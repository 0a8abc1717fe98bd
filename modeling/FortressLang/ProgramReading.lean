import FortressLang.OperatorChain
import FortressLang.Statement

/-! From the tree of a program to the program. The parts of a statement are found by the symbols of
the children; words and marks are left out. -/
namespace FortressLang
namespace Tree

/-- The first child of a nonterminal, which has to be there. -/
def require (t : Tree) (a : Nonterminal) : Except Issue { c : Tree // sizeOf c < sizeOf t } :=
  match h : t.childOf? a with
  | some c => .ok ⟨c, sizeOf_children_lt (List.mem_of_find?_eq_some h)⟩
  | none => .error (.malformedTree (.nonterminal a) t.label)

/-- The lexeme of the first child token of a terminal, which has to be there. -/
def requireLexeme (t : Tree) (terminal : Terminal) (expected : Shape) : Except Issue String :=
  match t.tokenOf? terminal with
  | some token => .ok token.lexeme
  | none => .error (.malformedTree expected t.label)

/-- The instruction nodes along a chain of `code` nodes, each the last child of the one before,
after those already found (newest first). -/
def collectInstructions (found : List Tree) (code : Tree) : List Tree :=
  let found := (code.childrenOf .instruction).reverse ++ found
  match h : code.childOf? .code with
  | some next =>
    have := sizeOf_children_lt (List.mem_of_find?_eq_some h)
    collectInstructions found next
  | none => found.reverse
termination_by sizeOf code

/-- The instruction nodes of a block, in order. -/
def instructions (code : Tree) : List Tree := collectInstructions [] code

theorem collectInstructions_eq (found : List Tree) (code : Tree) :
    collectInstructions found code = found.reverse ++ instructions code := by
  induction h : sizeOf code using Nat.strongRecOn generalizing found code with
  | _ n ih =>
    unfold instructions
    rw [collectInstructions, collectInstructions]
    split
    · rename_i next hnext
      have hlt : sizeOf next < n := h ▸ sizeOf_children_lt (List.mem_of_find?_eq_some hnext)
      rw [ih _ hlt _ _ rfl, ih _ hlt (List.reverse _ ++ []) _ rfl]
      simp
    · simp

theorem instructions_eq (code : Tree) :
    code.instructions = code.childrenOf .instruction ++
      match code.childOf? .code with
      | some next => next.instructions
      | none => [] := by
  rw [instructions, collectInstructions]
  split <;> rename_i h <;> simp [h, collectInstructions_eq]

theorem sizeOf_lt_of_mem_instructions {t code : Tree} (h : t ∈ code.instructions) :
    sizeOf t < sizeOf code := by
  induction hn : sizeOf code using Nat.strongRecOn generalizing code with
  | _ n ih =>
    subst hn
    rw [instructions_eq, List.mem_append] at h
    rcases h with h | h
    · exact sizeOf_children_lt (List.mem_filter.mp h).1
    · split at h
      · rename_i next hnext
        have hlt := sizeOf_children_lt (List.mem_of_find?_eq_some hnext)
        exact Nat.lt_trans (ih _ hlt h rfl) hlt
      · cases h

end Tree

/-- Two sums are asked for before the comparison, and all three before the sums are read. -/
def Condition.ofTree (t : Tree) : Except Issue Condition :=
  match t.childrenOf .sum with
  | lhs :: rhs :: _ => do
    let comparison ← t.require .comparison
    let some mark := (comparison.1.children.filterMap Tree.token?).findSome?
        fun token => Comparison.ofTerminal? token.terminal
      | .error (.malformedTree .comparisonMark comparison.1.label)
    let lhs ← Expr.ofTree lhs
    let rhs ← Expr.ofTree rhs
    .ok ⟨lhs, mark, rhs⟩
  | _ => .error (.malformedTree .comparedSums t.label)

/-- Of a conditional, the part after `ELSE` is read first, then the condition. -/
def Statement.ofTree (t : Tree) : Except Issue Statement :=
  match h : t.children with
  | [] => .error (.malformedTree .instruction t.label)
  | s :: _ =>
    have : sizeOf s < sizeOf t := Tree.sizeOf_children_lt (h ▸ List.mem_cons_self)
    match s.nonterminal? with
    | some .assignment => do
      let target ← s.requireLexeme .varName .assignedVariable
      let value ← Expr.ofTree (← s.require .sum).1
      .ok (.assign target value)
    | some .conditional => do
      let ⟨ending, _⟩ ← s.require .conditionalEnd
      let elsePart ←
        match he : ending.childOf? .code with
        | some code =>
          have := Tree.sizeOf_children_lt (List.mem_of_find?_eq_some he)
          code.instructions.attach.mapM fun i => Statement.ofTree i.1
        | none => .ok []
      let condition ← Condition.ofTree (← s.require .condition).1
      let ⟨code, _⟩ ← s.require .code
      let thenPart ← code.instructions.attach.mapM fun i => Statement.ofTree i.1
      .ok (.branch condition thenPart elsePart)
    | some .loop => do
      let condition ← Condition.ofTree (← s.require .condition).1
      let ⟨code, _⟩ ← s.require .code
      let body ← code.instructions.attach.mapM fun i => Statement.ofTree i.1
      .ok (.loop condition body)
    | some .print => .print <$> s.requireLexeme .varName .printedVariable
    | some .read => .read <$> s.requireLexeme .varName .readVariable
    | _ => .error (.malformedTree .statement s.label)
termination_by sizeOf t
decreasing_by
  all_goals
    have := Tree.sizeOf_lt_of_mem_instructions i.2
    omega

/-- The statements of a block. -/
def Statement.listOfTree (code : Tree) : Except Issue (List Statement) :=
  code.instructions.mapM Statement.ofTree

def Program.ofTree (t : Tree) : Except Issue Program :=
  if t.nonterminal? = some .program then do
    let name ← t.requireLexeme .progName .programName
    let code ← t.require .code
    let statements ← Statement.listOfTree code.1
    .ok ⟨name, statements⟩
  else .error (.malformedTree (.nonterminal .program) t.label)

end FortressLang
