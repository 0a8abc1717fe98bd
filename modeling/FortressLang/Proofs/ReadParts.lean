import FortressLang.Proofs.InstructionNodes
import FortressLang.Proofs.StatementReading
import FortressLang.Proofs.SumOperands

/-! The way that the reading of a program takes through a tree. Whatever the shape of the tree, the
statements come from the instruction nodes on this way and their operands from its sums. -/
namespace FortressLang
namespace Tree

/-- The children of a node that are read. For most parts it is the first child of a nonterminal
only. -/
def parts (t : Tree) : List Tree :=
  match t.nonterminal? with
  | some .program | some .conditionalEnd => (t.childOf? .code).toList
  | some .code => t.childrenOf .instruction ++ (t.childOf? .code).toList
  | some .instruction => t.children.take 1
  | some .assignment => (t.childOf? .sum).toList
  | some .conditional =>
    (t.childOf? .condition).toList ++ (t.childOf? .code).toList ++
      (t.childOf? .conditionalEnd).toList
  | some .loop => (t.childOf? .condition).toList ++ (t.childOf? .code).toList
  | some .condition => (t.childrenOf .sum).take 2
  | _ => []

/-- Trees of different nonterminals are different ones of a list. -/
theorem subperm_of_kinds {as : List Nonterminal} (h : as.Nodup) (ts : List Tree) :
    (as.flatMap fun a => ts.filter (·.nonterminal? = some a)).Subperm ts := by
  induction as generalizing ts with
  | nil => exact List.nil_subperm
  | cons a as ih =>
    obtain ⟨ha, has⟩ := List.nodup_cons.mp h
    let others := ts.filter fun t => !decide (t.nonterminal? = some a)
    have hothers : ∀ b ∈ as, ts.filter (·.nonterminal? = some b) =
        others.filter (·.nonterminal? = some b) := by
      intro b hb
      rw [List.filter_filter]
      refine List.filter_congr fun t _ => ?_
      have hab : b ≠ a := fun hab => ha (hab ▸ hb)
      by_cases ht : t.nonterminal? = some b <;> simp [ht, hab]
    rw [List.flatMap_cons, List.flatMap_congr hothers]
    exact ((List.Subperm.refl _).append (ih has others)).trans
      (List.filter_append_perm _ ts).subperm

theorem childOf?_sublist (t : Tree) (a : Nonterminal) :
    (t.childOf? a).toList.Sublist (t.childrenOf a) := by
  rw [childOf?_eq_head?, ← List.take_one]
  exact List.take_sublist 1 _

theorem parts_subperm (t : Tree) : t.parts.Subperm t.children := by
  have hkinds (as : List Nonterminal) (h : as.Nodup) :
      (as.flatMap t.childrenOf).Subperm t.children := subperm_of_kinds h t.children
  have hone (a : Nonterminal) : (t.childOf? a).toList.Subperm t.children :=
    ((t.childOf?_sublist a).trans List.filter_sublist).subperm
  unfold parts
  split
  · exact hone .code
  · exact hone .code
  · refine .trans ?_ (hkinds [.instruction, .code] (by decide))
    simpa using ((List.Sublist.refl _).append (t.childOf?_sublist .code)).subperm
  · exact (List.take_sublist 1 _).subperm
  · exact hone .sum
  · refine .trans ?_ (hkinds [.condition, .code, .conditionalEnd] (by decide))
    simpa using (((t.childOf?_sublist .condition).append (t.childOf?_sublist .code)).append
      (t.childOf?_sublist .conditionalEnd)).subperm
  · refine .trans ?_ (hkinds [.condition, .code] (by decide))
    simpa using ((t.childOf?_sublist .condition).append (t.childOf?_sublist .code)).subperm
  · exact ((List.take_sublist 2 _).trans List.filter_sublist).subperm
  · exact List.nil_subperm

def isSum (t : Tree) : Bool := t.nonterminal? = some .sum

def asInstruction (t : Tree) : List Tree :=
  if t.nonterminal? = some .instruction then [t] else []

/-- Every child is visited, and every instruction node counts. -/
def instructionNodes : Walk Tree := ⟨children, asInstruction, tokenWalk.mem_children⟩

def instructionsRead : Walk Tree := ⟨parts, asInstruction, fun hc => (parts_subperm _).subset hc⟩

/-- Every operand token below a sum, whatever stands between them. -/
def sumOperands : Walk Token where
  next t := if t.isSum then [] else t.children
  own t := if t.isSum then t.operands else []
  mem_children hc := by
    split at hc
    · cases hc
    · exact hc

def operandsRead : Walk Token where
  next := parts
  own t := if t.isSum then t.raise.found else []
  mem_children hc := (parts_subperm _).subset hc

theorem gather_instructionNodes (t : Tree) :
    instructionNodes.gather t = t.nodesOf .instruction := by
  induction t using Tree.induction with
  | node l cs ih =>
    rw [Walk.gather_eq, nodesOf_node]
    have hself : (node l cs).asInstruction =
        if l = .nonterminal .instruction then [node l cs] else [] := by
      cases l <;> simp [asInstruction, nonterminal?, label]
    exact congrArg₂ (· ++ ·) hself (List.flatMap_congr ih)

theorem instructionsRead_within : instructionsRead.Within instructionNodes :=
  ⟨fun _ => List.Subperm.refl _, parts_subperm⟩

theorem operandsRead_within : operandsRead.Within sumOperands where
  own t := by
    change (if t.isSum then t.raise.found else []).Subperm (if t.isSum then t.operands else [])
    split
    · exact t.raise.found_sublist.subperm.trans (t.tokens_raise.filter _)
    · exact List.Subperm.refl _
  next t := by
    change t.parts.Subperm (if t.isSum then [] else t.children)
    split
    · rename_i ht
      have hparts : t.parts = [] := by
        rw [parts, of_decide_eq_true ht]
      rw [hparts]
    · exact t.parts_subperm

/-- On the way through these trees stand the instruction nodes of the statements, one by one, and
the operand tokens of the values. -/
def ReadAs (ts : List Tree) (ss : List Statement) (vs : List Value) : Prop :=
  List.Forall₂ Statement.Shown (ts.flatMap instructionsRead.gather) ss ∧
    List.Forall₂ Token.Denotes (ts.flatMap operandsRead.gather) vs

namespace ReadAs

theorem nil : ReadAs [] [] [] := ⟨.nil, .nil⟩

theorem append {ts us : List Tree} {ss rs : List Statement} {vs ws : List Value}
    (h : ReadAs ts ss vs) (h' : ReadAs us rs ws) : ReadAs (ts ++ us) (ss ++ rs) (vs ++ ws) := by
  rw [ReadAs, List.flatMap_append, List.flatMap_append]
  exact ⟨List.rel_append h.1 h'.1, List.rel_append h.2 h'.2⟩

variable {t : Tree} {a : Nonterminal} (ht : t.nonterminal? = some a)

include ht

/-- A node that bears nothing itself is read as its parts are. -/
theorem node (hi : a ≠ .instruction) (hs : a ≠ .sum) {ss : List Statement} {vs : List Value}
    (h : ReadAs t.parts ss vs) : ReadAs [t] ss vs := by
  have hinstruction : instructionsRead.own t = [] := by
    simp [instructionsRead, asInstruction, ht, hi]
  have hsum : operandsRead.own t = [] := by simp [operandsRead, isSum, ht, hs]
  rw [ReadAs, List.flatMap_singleton, List.flatMap_singleton, Walk.gather_eq, Walk.gather_eq,
    hinstruction, hsum]
  exact h

theorem sum (hs : a = .sum) {e : Expr}
    (h : List.Forall₂ Token.Denotes t.raise.found e.values) : ReadAs [t] [] e.values := by
  subst hs
  have hparts : t.parts = [] := by rw [parts, ht]
  have hinstruction : instructionsRead.gather t = [] := by
    simp [Walk.gather_eq, instructionsRead, asInstruction, ht, hparts]
  have hfound : operandsRead.gather t = t.raise.found := by
    simp [Walk.gather_eq, operandsRead, isSum, ht, hparts]
  rw [ReadAs, List.flatMap_singleton, List.flatMap_singleton, hinstruction, hfound]
  exact ⟨.nil, h⟩

theorem instruction (hi : a = .instruction) {s : Statement} {vs : List Value}
    (hs : Statement.Shown t s) (h : ReadAs (t.children.take 1) s.nested vs) :
    ReadAs [t] s.flat vs := by
  subst hi
  have hparts : t.parts = t.children.take 1 := by rw [parts, ht]
  have hinstruction : instructionsRead.gather t =
      t :: (t.children.take 1).flatMap instructionsRead.gather := by
    rw [Walk.gather_eq]
    simp [instructionsRead, asInstruction, ht, hparts]
  have hsum : operandsRead.gather t = (t.children.take 1).flatMap operandsRead.gather := by
    rw [Walk.gather_eq]
    simp [operandsRead, isSum, ht, hparts]
  rw [ReadAs, List.flatMap_singleton, List.flatMap_singleton, hinstruction, hsum, s.flat_eq]
  exact ⟨.cons hs h.1, h.2⟩

end ReadAs
end Tree

def Condition.values (c : Condition) : List Value := c.lhs.values ++ c.rhs.values

namespace Statement

mutual

def values : Statement → List Value
  | assign _ e => e.values
  | branch c ts es => c.values ++ valuesAll ts ++ valuesAll es
  | loop c ss => c.values ++ valuesAll ss
  | print _ => []
  | read _ => []

def valuesAll : List Statement → List Value
  | [] => []
  | s :: ss => s.values ++ valuesAll ss

end

theorem flatAll_append (ss rs : List Statement) :
    flatAll (ss ++ rs) = flatAll ss ++ flatAll rs := by
  induction ss with
  | nil => rfl
  | cons s ss ih => rw [List.cons_append, flatAll, flatAll, ih, List.append_assoc]

theorem valuesAll_append (ss rs : List Statement) :
    valuesAll (ss ++ rs) = valuesAll ss ++ valuesAll rs := by
  induction ss with
  | nil => rfl
  | cons s ss ih => rw [List.cons_append, valuesAll, valuesAll, ih, List.append_assoc]

theorem listOfTree_eq (code : Tree) : listOfTree code = (do
    let ss ← (code.childrenOf .instruction).mapM Statement.ofTree
    let rs ← listOfBlock code
    .ok (ss ++ rs)) := by
  rw [listOfTree, Tree.instructions_eq, List.mapM_append, listOfBlock]
  cases code.childOf? .code <;> rfl

end Statement

namespace Tree

open Statement (flatAll valuesAll listOfTree listOfBlock)

/-- The statements, with nested ones, and their operands are those on the way. -/
def ReadAsBlock (ts : List Tree) (ss : List Statement) : Prop :=
  ReadAs ts (flatAll ss) (valuesAll ss)

/-- What is read from a node of a nonterminal is what stands on the way through it, or the shape of
the tree is at fault. -/
def Reading (t : Tree) : Nonterminal → Prop
  | .program => Yields (fun p => ReadAsBlock [t] p.statements) (Program.ofTree t)
  | .code => Yields (ReadAsBlock [t]) (listOfTree t)
  | .instruction => Yields (fun s => ReadAs [t] s.flat s.values) (Statement.ofTree t)
  | .assignment | .conditional | .loop | .print | .read => ∀ l rest,
    Yields (fun s => t.nonterminal? = some s.kind ∧ ReadAs [t] s.nested s.values)
      (Statement.ofTree (.node l (t :: rest)))
  | .conditionalEnd => Yields (ReadAsBlock [t]) (listOfBlock t)
  | .condition => Yields (fun c => ReadAs [t] [] c.values) (Condition.ofTree t)
  | .sum => Yields (fun e => ReadAs [t] [] e.values) (Expr.ofTree t)
  | .sumRest | .product | .productRest | .atom | .comparison => True

theorem yields_require (t : Tree) (a : Nonterminal) :
    Yields (fun c => t.childOf? a = some c.1) (t.require a) := by
  unfold require
  split
  · rename_i h
    exact h
  · exact .malformed

theorem yields_requireLexeme (t : Tree) (x : Terminal) (expected : Shape) :
    Yields (fun _ => True) (t.requireLexeme x expected) := by
  unfold requireLexeme
  split
  · trivial
  · exact .malformed

section

variable {t : Tree} (ih : ∀ c ∈ t.children, ∀ a, c.nonterminal? = some a → c.Reading a)

include ih

theorem reading_childOf? {a : Nonterminal} {c : Tree} (h : t.childOf? a = some c) : c.Reading a :=
  ih c (List.mem_of_find?_eq_some h) a (by simpa using List.find?_some h)

theorem reading_block : Yields (ReadAsBlock (t.childOf? .code).toList) (listOfBlock t) := by
  unfold listOfBlock
  split
  · rename_i code h
    rw [h]
    exact reading_childOf? ih h
  · rename_i h
    rw [h]
    exact ReadAs.nil

theorem reading_code (ht : t.nonterminal? = some .code) : t.Reading .code := by
  have hparts : t.parts = t.childrenOf .instruction ++ (t.childOf? .code).toList := by
    rw [parts, ht]
  have hchildren : ∀ i ∈ t.childrenOf .instruction, i.Reading .instruction := by
    intro i hi
    obtain ⟨hi, hkind⟩ := List.mem_filter.mp hi
    exact ih i hi _ (of_decide_eq_true hkind)
  have hinstructions : Yields (ReadAsBlock (t.childrenOf .instruction))
      ((t.childrenOf .instruction).mapM Statement.ofTree) := by
    generalize t.childrenOf .instruction = is at hchildren
    induction is with
    | nil => exact ReadAs.nil
    | cons i is ih' =>
      rw [List.forall_mem_cons] at hchildren
      rw [List.mapM_cons]
      refine hchildren.1.bind fun s _ hs => ?_
      refine (ih' hchildren.2).bind fun ss _ hss => ?_
      exact hs.append hss
  change Yields _ (listOfTree t)
  rw [Statement.listOfTree_eq]
  refine hinstructions.bind fun ss _ hss => ?_
  refine (reading_block ih).bind fun rs _ hrs => ?_
  refine .node ht (by decide) (by decide) ?_
  rw [hparts, Statement.flatAll_append, Statement.valuesAll_append]
  exact hss.append hrs

theorem reading_program (ht : t.nonterminal? = some .program) : t.Reading .program := by
  have hparts : t.parts = (t.childOf? .code).toList := by rw [parts, ht]
  change Yields _ (Program.ofTree t)
  rw [Program.ofTree, if_pos ht]
  refine (t.yields_requireLexeme _ _).bind fun name _ _ => ?_
  refine (t.yields_require _).bind fun code _ hcode => ?_
  refine (reading_childOf? ih hcode).bind fun ss _ hss => ?_
  refine .node ht (by decide) (by decide) ?_
  rw [hparts, hcode]
  exact hss

theorem reading_condition (ht : t.nonterminal? = some .condition) : t.Reading .condition := by
  have hparts : t.parts = (t.childrenOf .sum).take 2 := by rw [parts, ht]
  have hsums : ∀ s ∈ t.childrenOf .sum, s.Reading .sum := by
    intro s hs
    obtain ⟨hs, hkind⟩ := List.mem_filter.mp hs
    exact ih s hs _ (of_decide_eq_true hkind)
  change Yields _ (Condition.ofTree t)
  rw [Condition.ofTree]
  split
  · rename_i lhs rhs rest h
    rw [h] at hparts hsums
    refine (t.yields_require _).bind fun comparison _ _ => ?_
    split
    · refine Yields.bind (hsums lhs List.mem_cons_self) fun a _ ha => ?_
      refine Yields.bind (hsums rhs (by simp)) fun b _ hb => ?_
      refine .node ht (by decide) (by decide) ?_
      rw [hparts]
      exact ha.append hb
    · exact .malformed
  · exact .malformed

theorem reading_assignment (ht : t.nonterminal? = some .assignment) : t.Reading .assignment := by
  intro l rest
  have hparts : t.parts = (t.childOf? .sum).toList := by rw [parts, ht]
  rw [Statement.ofTree_instruction, ht]
  refine (t.yields_requireLexeme _ _).bind fun name _ _ => ?_
  refine (t.yields_require _).bind fun s _ hs => ?_
  refine (reading_childOf? ih hs).bind fun e _ he => ?_
  refine ⟨rfl, .node ht (by decide) (by decide) ?_⟩
  rw [hparts, hs]
  exact he

theorem reading_loop (ht : t.nonterminal? = some .loop) : t.Reading .loop := by
  intro l rest
  have hparts : t.parts = (t.childOf? .condition).toList ++ (t.childOf? .code).toList := by
    rw [parts, ht]
  rw [Statement.ofTree_instruction, ht]
  refine (t.yields_require _).bind fun test _ htest => ?_
  refine (reading_childOf? ih htest).bind fun c _ hc => ?_
  refine (t.yields_require _).bind fun code _ hcode => ?_
  refine (reading_childOf? ih hcode).bind fun ss _ hss => ?_
  refine ⟨rfl, .node ht (by decide) (by decide) ?_⟩
  rw [hparts, htest, hcode]
  exact ReadAs.append hc hss

theorem reading_conditional (ht : t.nonterminal? = some .conditional) :
    t.Reading .conditional := by
  intro l rest
  have hparts : t.parts = (t.childOf? .condition).toList ++ (t.childOf? .code).toList ++
      (t.childOf? .conditionalEnd).toList := by
    rw [parts, ht]
  rw [Statement.ofTree_instruction, ht]
  refine (t.yields_require _).bind fun ending _ hending => ?_
  refine (reading_childOf? ih hending).bind fun es _ hes => ?_
  refine (t.yields_require _).bind fun test _ htest => ?_
  refine (reading_childOf? ih htest).bind fun c _ hc => ?_
  refine (t.yields_require _).bind fun code _ hcode => ?_
  refine (reading_childOf? ih hcode).bind fun ss _ hss => ?_
  refine ⟨rfl, .node ht (by decide) (by decide) ?_⟩
  rw [hparts, htest, hcode, hending]
  exact (ReadAs.append hc hss).append hes

omit ih in
theorem reading_call {a : Nonterminal} (ht : t.nonterminal? = some a) (hparts : t.parts = [])
    (hi : a ≠ .instruction) (hs : a ≠ .sum) {f : String → Statement}
    (hf : ∀ x, (f x).kind = a ∧ (f x).nested = [] ∧ (f x).values = []) (expected : Shape) :
    Yields (fun s => some a = some s.kind ∧ ReadAs [t] s.nested s.values)
      (f <$> t.requireLexeme .varName expected) := by
  refine (t.yields_requireLexeme _ _).map fun x _ => ?_
  obtain ⟨hkind, hnested, hvalues⟩ := hf x
  rw [hkind, hnested, hvalues]
  refine ⟨rfl, .node ht hi hs ?_⟩
  rw [hparts]
  exact .nil

theorem reading_instruction (ht : t.nonterminal? = some .instruction) :
    t.Reading .instruction := by
  obtain ⟨l, cs⟩ := t
  change Yields _ (Statement.ofTree (.node l cs))
  cases cs with
  | nil =>
    rw [Statement.ofTree]
    exact .malformed
  | cons c rest =>
    have hread : Yields
        (fun s => c.nonterminal? = some s.kind ∧ ReadAs [c] s.nested s.values)
        (Statement.ofTree (.node l (c :: rest))) := by
      have hc := ih c List.mem_cons_self
      cases hkind : c.nonterminal? with
      | none =>
        rw [Statement.ofTree_instruction, hkind]
        exact .malformed
      | some a =>
        have hreading := hc a hkind
        rw [← hkind]
        cases a with
        | assignment | conditional | loop | print | read => exact hreading l rest
        | _ =>
          rw [Statement.ofTree_instruction, hkind]
          exact .malformed
    exact hread.imp fun s hs h => .instruction ht rfl ⟨ht, h.1, hs⟩ h.2

end

/-- Every tree is read along its way, or found to be malformed. -/
theorem reading (t : Tree) (h : ∀ x ∈ t.tokens, Source.Numeral x) :
    ∀ a, t.nonterminal? = some a → t.Reading a := by
  induction t using Tree.induction with
  | node l cs ih =>
    have hbelow : ∀ c ∈ cs, ∀ a, c.nonterminal? = some a → c.Reading a := by
      intro c hc
      refine ih c hc fun x hx => h x ?_
      rw [tokens_eq]
      exact List.mem_append_right _ (List.mem_flatMap.mpr ⟨c, hc, hx⟩)
    intro a ha
    cases a with
    | program => exact reading_program hbelow ha
    | code => exact reading_code hbelow ha
    | instruction => exact reading_instruction hbelow ha
    | assignment => exact reading_assignment hbelow ha
    | conditional => exact reading_conditional hbelow ha
    | conditionalEnd =>
      have hparts : (node l cs).parts = ((node l cs).childOf? .code).toList := by rw [parts, ha]
      refine (reading_block (t := .node l cs) hbelow).imp fun ss _ hss => ?_
      refine .node ha (by decide) (by decide) ?_
      rw [hparts]
      exact hss
    | condition => exact reading_condition hbelow ha
    | loop => exact reading_loop hbelow ha
    | print =>
      intro k rest
      rw [Statement.ofTree_instruction, ha]
      exact reading_call ha (by rw [parts, ha]) (by decide) (by decide) (fun _ => ⟨rfl, rfl, rfl⟩) _
    | read =>
      intro k rest
      rw [Statement.ofTree_instruction, ha]
      exact reading_call ha (by rw [parts, ha]) (by decide) (by decide) (fun _ => ⟨rfl, rfl, rfl⟩) _
    | sum => exact (Expr.yields_ofTree h).imp fun e _ he => .sum ha rfl he
    | sumRest | product | productRest | atom | comparison => trivial

theorem yields_program (t : Tree) (h : ∀ x ∈ t.tokens, Source.Numeral x) :
    Yields (fun p => ReadAsBlock [t] p.statements) (Program.ofTree t) := by
  by_cases ht : t.nonterminal? = some .program
  · exact t.reading h .program ht
  · rw [Program.ofTree, if_neg ht]
    exact .malformed

end Tree
end FortressLang
