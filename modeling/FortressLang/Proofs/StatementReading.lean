import FortressLang.ProgramReading

/-! What is read from the tree of a statement, a condition or a program, given what is read from its
parts. -/
namespace FortressLang

theorem Tree.leaf_nonterminal? (x : Token) : (Tree.leaf x).nonterminal? = none := rfl

theorem Tree.leaf_token? (x : Token) : (Tree.leaf x).token? = some x := rfl

theorem Tree.require_eq {t c : Tree} {a : Nonterminal} (h : t.childOf? a = some c) :
    t.require a = .ok ⟨c, sizeOf_children_lt (List.mem_of_find?_eq_some h)⟩ := by
  unfold require
  split
  · rename_i d hd
    obtain rfl : d = c := Option.some.inj (hd.symm.trans h)
    rfl
  · rename_i hnone
    rw [h] at hnone
    cases hnone

namespace Statement

theorem listOfTree_nil : listOfTree (.node (.nonterminal .code) []) = .ok [] := by
  rw [listOfTree, Tree.instructions_eq]
  rfl

theorem listOfTree_cons {i next : Tree} (comma : Token) (hi : i.nonterminal? = some .instruction)
    (hnext : next.nonterminal? = some .code) {s : Statement} (hs : Statement.ofTree i = .ok s)
    {ss : List Statement} (hss : listOfTree next = .ok ss) :
    listOfTree (.node (.nonterminal .code) [i, .leaf comma, next]) = .ok (s :: ss) := by
  have hinstructions : (Tree.node (.nonterminal .code) [i, .leaf comma, next]).instructions =
      i :: next.instructions := by
    rw [Tree.instructions_eq]
    simp [Tree.childrenOf, Tree.childOf?, Tree.children, hi, hnext, Tree.leaf_nonterminal?]
  rw [listOfTree] at hss ⊢
  rw [hinstructions, List.mapM_cons, hs, hss]
  rfl

theorem mapM_attach (code : Tree) :
    (code.instructions.attach.mapM fun i => Statement.ofTree i.1) = listOfTree code := by
  have hmap := List.mapM_map (m := Except Issue) (f := Subtype.val) (g := Statement.ofTree)
    (l := code.instructions.attach)
  rw [List.attach_map_subtype_val] at hmap
  exact hmap.symm

def listOfBlock (t : Tree) : Except Issue (List Statement) :=
  match t.childOf? .code with
  | some code => listOfTree code
  | none => .ok []

theorem ofTree_instruction (l : Tree.Label) (s : Tree) (rest : List Tree) :
    Statement.ofTree (.node l (s :: rest)) =
      match s.nonterminal? with
      | some .assignment => do
        let target ← s.requireLexeme .varName .assignedVariable
        let value ← Expr.ofTree (← s.require .sum).1
        .ok (.assign target value)
      | some .conditional => do
        let ending ← s.require .conditionalEnd
        let elsePart ← listOfBlock ending.1
        let condition ← Condition.ofTree (← s.require .condition).1
        let thenPart ← listOfTree (← s.require .code).1
        .ok (.branch condition thenPart elsePart)
      | some .loop => do
        let condition ← Condition.ofTree (← s.require .condition).1
        let body ← listOfTree (← s.require .code).1
        .ok (.loop condition body)
      | some .print => .print <$> s.requireLexeme .varName .printedVariable
      | some .read => .read <$> s.requireLexeme .varName .readVariable
      | _ => .error (.malformedTree .statement s.label) := by
  rw [Statement.ofTree]
  split
  · rename_i h
    cases h
  · rename_i s' rest h
    obtain ⟨rfl, rfl⟩ := List.cons.inj h
    cases s.nonterminal? with
    | none => rfl
    | some a =>
      cases a with
      | conditional =>
        simp only [mapM_attach]
        congr 1
        funext ending
        split <;> rename_i hcode <;> simp only [listOfBlock, hcode]
      | loop => simp only [mapM_attach]
      | _ => rfl

theorem ofTree_assign {x : Token} (hx : x.terminal = .varName) (sign : Token) {t : Tree}
    (ht : t.nonterminal? = some .sum) {e : Expr} (he : Expr.ofTree t = .ok e) :
    Statement.ofTree (.node (.nonterminal .instruction)
      [.node (.nonterminal .assignment) [.leaf x, .leaf sign, t]]) = .ok (.assign x.lexeme e) := by
  let s : Tree := .node (.nonterminal .assignment) [.leaf x, .leaf sign, t]
  have hkind : s.nonterminal? = some .assignment := rfl
  have hname : s.requireLexeme .varName .assignedVariable = .ok x.lexeme := by
    simp [s, Tree.requireLexeme, Tree.tokenOf?, Tree.children, Tree.leaf_token?, hx]
  have hsum : s.childOf? .sum = some t := by
    simp [s, Tree.childOf?, Tree.children, Tree.leaf_nonterminal?, ht]
  change Statement.ofTree (.node (.nonterminal .instruction) [s]) = _
  rw [ofTree_instruction]
  simp only [hkind, hname, Tree.require_eq hsum, bind, Except.bind, he]

section

variable {word l x : Token} (hword : word.terminal ≠ .varName) (hl : l.terminal ≠ .varName)
  (hx : x.terminal = .varName)

include hword hl hx

theorem requireLexeme_call (a : Nonterminal) (r : Token) (expected : Shape) :
    (Tree.node (.nonterminal a) [.leaf word, .leaf l, .leaf x, .leaf r]).requireLexeme .varName
      expected = .ok x.lexeme := by
  simp [Tree.requireLexeme, Tree.tokenOf?, Tree.children, Tree.leaf_token?, hword, hl, hx]

theorem ofTree_print (r : Token) :
    Statement.ofTree (.node (.nonterminal .instruction)
      [.node (.nonterminal .print) [.leaf word, .leaf l, .leaf x, .leaf r]]) =
        .ok (.print x.lexeme) := by
  rw [ofTree_instruction]
  exact congrArg (Functor.map Statement.print) (requireLexeme_call hword hl hx .print r _)

theorem ofTree_read (r : Token) :
    Statement.ofTree (.node (.nonterminal .instruction)
      [.node (.nonterminal .read) [.leaf word, .leaf l, .leaf x, .leaf r]]) =
        .ok (.read x.lexeme) := by
  rw [ofTree_instruction]
  exact congrArg (Functor.map Statement.read) (requireLexeme_call hword hl hx .read r _)

end

section

variable {test code : Tree} {c : Condition} {ss : List Statement}
  (htest : test.nonterminal? = some .condition) (hc : Condition.ofTree test = .ok c)
  (hcode : code.nonterminal? = some .code) (hss : listOfTree code = .ok ss)

include htest hc hcode hss

theorem ofTree_loop (w l r d e : Token) :
    Statement.ofTree (.node (.nonterminal .instruction)
      [.node (.nonterminal .loop)
        [.leaf w, .leaf l, test, .leaf r, .leaf d, code, .leaf e]]) = .ok (.loop c ss) := by
  let s : Tree := .node (.nonterminal .loop)
    [.leaf w, .leaf l, test, .leaf r, .leaf d, code, .leaf e]
  have hkind : s.nonterminal? = some .loop := rfl
  have hcondition : s.childOf? .condition = some test := by
    simp [s, Tree.childOf?, Tree.children, Tree.leaf_nonterminal?, htest]
  have hbody : s.childOf? .code = some code := by
    simp [s, Tree.childOf?, Tree.children, Tree.leaf_nonterminal?, htest, hcode]
  change Statement.ofTree (.node (.nonterminal .instruction) [s]) = _
  rw [ofTree_instruction]
  simp only [hkind, Tree.require_eq hcondition, Tree.require_eq hbody, bind, Except.bind, hc, hss]

theorem ofTree_conditional {ending : Tree} (hending : ending.nonterminal? = some .conditionalEnd)
    {es : List Statement}
    (hes : ending.childOf? .code = none ∧ es = [] ∨
      ∃ code', ending.childOf? .code = some code' ∧ listOfTree code' = .ok es) (i l r t : Token) :
    Statement.ofTree (.node (.nonterminal .instruction)
      [.node (.nonterminal .conditional)
        [.leaf i, .leaf l, test, .leaf r, .leaf t, code, ending]]) = .ok (.branch c ss es) := by
  let s : Tree := .node (.nonterminal .conditional)
    [.leaf i, .leaf l, test, .leaf r, .leaf t, code, ending]
  have hkind : s.nonterminal? = some .conditional := rfl
  have hcondition : s.childOf? .condition = some test := by
    simp [s, Tree.childOf?, Tree.children, Tree.leaf_nonterminal?, htest]
  have hthen : s.childOf? .code = some code := by
    simp [s, Tree.childOf?, Tree.children, Tree.leaf_nonterminal?, htest, hcode]
  have hend : s.childOf? .conditionalEnd = some ending := by
    simp [s, Tree.childOf?, Tree.children, Tree.leaf_nonterminal?, htest, hcode, hending]
  change Statement.ofTree (.node (.nonterminal .instruction) [s]) = _
  rw [ofTree_instruction]
  simp only [hkind, Tree.require_eq hcondition, Tree.require_eq hthen, Tree.require_eq hend, bind,
    Except.bind, hc, hss]
  rcases hes with ⟨hnone, rfl⟩ | ⟨code', hsome, hes⟩
  · simp only [listOfBlock, hnone]
  · simp only [listOfBlock, hsome, hes]

end

end Statement

/-- The left sum of a comparison is the one in front of the mark. -/
theorem Condition.ofTree_sums {lhs rhs : Tree} {o : Token} {c : Comparison} {a b : Expr}
    (hl : lhs.nonterminal? = some .sum) (hr : rhs.nonterminal? = some .sum)
    (ho : Comparison.ofTerminal? o.terminal = some c)
    (ha : Expr.ofTree lhs = .ok a) (hb : Expr.ofTree rhs = .ok b) :
    Condition.ofTree (.node (.nonterminal .condition)
      [lhs, .node (.nonterminal .comparison) [.leaf o], rhs]) = .ok ⟨a, c, b⟩ := by
  let mark : Tree := .node (.nonterminal .comparison) [.leaf o]
  let s : Tree := .node (.nonterminal .condition) [lhs, mark, rhs]
  have hmark : mark.nonterminal? = some .comparison := rfl
  have hsums : s.childrenOf .sum = [lhs, rhs] := by
    simp [s, Tree.childrenOf, Tree.children, hl, hr, hmark]
  have hcomparison : s.childOf? .comparison = some mark := by
    simp [s, Tree.childOf?, Tree.children, hl, hmark]
  have hfound : ((mark.children.filterMap Tree.token?).findSome? fun token =>
      Comparison.ofTerminal? token.terminal) = some c := by
    simp [mark, Tree.children, Tree.leaf_token?, ho]
  change Condition.ofTree s = _
  simp only [Condition.ofTree, hsums, Tree.require_eq hcomparison, hfound, ha, hb, bind,
    Except.bind]

theorem Program.ofTree_node {b x : Token} (hb : b.terminal ≠ .progName)
    (hx : x.terminal = .progName) {code : Tree} (hcode : code.nonterminal? = some .code)
    {ss : List Statement} (hss : Statement.listOfTree code = .ok ss) (e : Token) :
    Program.ofTree (.node (.nonterminal .program) [.leaf b, .leaf x, code, .leaf e]) =
      .ok ⟨x.lexeme, ss⟩ := by
  let t : Tree := .node (.nonterminal .program) [.leaf b, .leaf x, code, .leaf e]
  have hkind : t.nonterminal? = some .program := rfl
  have hname : t.requireLexeme .progName .programName = .ok x.lexeme := by
    simp [t, Tree.requireLexeme, Tree.tokenOf?, Tree.children, Tree.leaf_token?, hb, hx]
  have hfound : t.childOf? .code = some code := by
    simp [t, Tree.childOf?, Tree.children, Tree.leaf_nonterminal?, hcode]
  change Program.ofTree t = _
  rw [Program.ofTree, if_pos hkind, hname, Tree.require_eq hfound]
  simp only [bind, Except.bind, hss]

end FortressLang
