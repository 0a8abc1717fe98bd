import FortressLang.Proofs.DescribedGrammar
import FortressLang.Proofs.ParsedSums
import FortressLang.Proofs.ParserSoundness
import FortressLang.Proofs.SourceProgram
import FortressLang.Proofs.StatementReading

/-! How deep a tree nests, and what that bounds: a parsed tree keeps to the limit, and in the
program that is read from it blocks nest less deep than the tree, and every expression is read from
a sum in it. -/
namespace FortressLang
namespace Tree

def Label.nesting : Label → Nat
  | .nonterminal a => nestingOf a
  | .token _ => 0

mutual

/-- The most that the nodes on a way down add to the nesting. What vanished adds nothing. -/
def nesting : Tree → Nat
  | node l cs => nestingAll cs + if cs.isEmpty then 0 else l.nesting

def nestingAll : List Tree → Nat
  | [] => 0
  | t :: ts => max t.nesting (nestingAll ts)

end

@[simp] theorem nesting_leaf (x : Token) : (leaf x).nesting = 0 := by
  simp [leaf, nesting, nestingAll]

theorem nesting_le_nestingAll {t : Tree} {ts : List Tree} (h : t ∈ ts) :
    t.nesting ≤ nestingAll ts := by
  induction ts with
  | nil => cases h
  | cons u ts ih =>
    rw [nestingAll]
    rcases List.mem_cons.mp h with rfl | h
    · exact Nat.le_max_left _ _
    · exact (ih h).trans (Nat.le_max_right _ _)

theorem nesting_child {t c : Tree} (h : c ∈ t.children) : c.nesting ≤ t.nesting := by
  obtain ⟨l, cs⟩ := t
  rw [nesting]
  exact (nesting_le_nestingAll h).trans (Nat.le_add_right _ _)

theorem nesting_child_lt {t c : Tree} (h : c ∈ t.children) {a : Nonterminal}
    (ht : t.nonterminal? = some a) (ha : a ≠ .code) : c.nesting < t.nesting := by
  obtain ⟨l, cs⟩ := t
  have hl : l = .nonterminal a := by cases l <;> simp_all [nonterminal?, label]
  have hcs : cs.isEmpty = false := by cases cs <;> simp_all [children]
  have hc := nesting_le_nestingAll h
  rw [nesting, hcs, hl]
  simp only [children, Label.nesting, nestingOf_of_ne ha, Bool.false_eq_true, if_false] at hc ⊢
  omega

theorem Within.nesting_le {s t : Tree} (h : s.Within t) : s.nesting ≤ t.nesting := by
  induction h with
  | refl => exact Nat.le_refl _
  | child hc _ ih => exact ih.trans (nesting_child hc)

theorem Within.trans {s t u : Tree} (h : s.Within t) (h' : t.Within u) : s.Within u := by
  induction h' with
  | refl => exact h
  | child hc _ ih => exact .child hc ih

theorem Within.sizeOf_le {s t : Tree} (h : s.Within t) : sizeOf s ≤ sizeOf t := by
  induction h with
  | refl => exact Nat.le_refl _
  | child hc _ ih => exact ih.trans (sizeOf_children_lt hc).le

theorem Within.of_childOf? {t c : Tree} {a : Nonterminal} (h : t.childOf? a = some c) :
    c.Within t := .child (List.mem_of_find?_eq_some h) .refl

end Tree

/-- Derived trees nest as deep as they are derived. -/
theorem Derives.nestingAll_le {g : Grammar} {xs : List Symbol} {ts : List Tree} {w : List Token}
    {n : Nat} (h : Derives g xs ts w n) : Tree.nestingAll ts ≤ n := by
  induction h with
  | nil => exact Nat.le_refl _
  | epsilon _ ih => exact ih
  | token found _ _ _ ih =>
    rw [Tree.nestingAll, Tree.nesting_leaf]
    exact Nat.max_le.mpr ⟨Nat.zero_le _, ih⟩
  | @node a xs cs ts w v m n r hr hcs hts ihcs ihts =>
    rw [Tree.nestingAll, Tree.nesting]
    refine max_le_max ?_ ihts
    cases cs with
    | nil => simp [Tree.nestingAll]
    | cons c cs =>
      have he : ¬r.isEpsilon := fun he => absurd (hcs.of_isEpsilon he).1 (List.cons_ne_nil _ _)
      rw [Rule.weight_of_not_isEpsilon he, (Grammar.mem_rulesFor.mp hr).2]
      exact Nat.add_le_add_right ihcs _

theorem Parser.nesting_of_run {g : Grammar} {t : Table} (ht : Table.build g = .ok t)
    (hg : g.EndFree) {p : Parser} {tree : Tree} (h : (Parser.run t p).1 = .ok tree) :
    tree.nesting ≤ nestingLimit := by
  obtain ⟨w, n, s, found, ⟨cs, m, hd, rfl, rfl⟩, hn, -, -, -⟩ := derivation_of_run ht hg h
  have hroot := Derives.node g.start (Grammar.mem_rulesFor.mpr ⟨g.rules.head_mem _, rfl⟩) hd .nil
  have hle := hroot.nestingAll_le
  simp only [Tree.nestingAll, Nat.max_zero] at hle
  exact hle.trans hn

namespace Source

mutual

theorem Sum.nesting_spelled : ∀ (s : Sum) {t : Tree}, s.Spelled t → t.nesting = s.nesting
  | .of first rest, _, ⟨_, _, ht, hp, hr⟩ => by
    subst ht
    rw [Tree.nesting, Tree.nestingAll, Tree.nestingAll, first.nesting_spelled hp,
      rest.nesting_spelled hr, Sum.nesting, Tree.nestingAll, Nat.max_zero]
    rfl

theorem SumRest.nesting_spelled : ∀ (s : SumRest) {t : Tree}, s.Spelled t → t.nesting = s.nesting
  | .stop, _, ht => by
    obtain rfl := ht
    rfl
  | .step _ next rest, _, ⟨_, _, _, ht, _, hp, hr⟩ => by
    subst ht
    simp only [Tree.nesting, Tree.nestingAll, Tree.nesting_leaf, next.nesting_spelled hp,
      rest.nesting_spelled hr, SumRest.nesting, Nat.max_zero, Nat.zero_max]
    rfl

theorem Product.nesting_spelled : ∀ (s : Product) {t : Tree}, s.Spelled t → t.nesting = s.nesting
  | .of first rest, _, ⟨_, _, ht, ha, hr⟩ => by
    subst ht
    simp only [Tree.nesting, Tree.nestingAll, first.nesting_spelled ha, rest.nesting_spelled hr,
      Product.nesting, Nat.max_zero]
    rfl

theorem ProductRest.nesting_spelled :
    ∀ (s : ProductRest) {t : Tree}, s.Spelled t → t.nesting = s.nesting
  | .stop, _, ht => by
    obtain rfl := ht
    rfl
  | .step _ next rest, _, ⟨_, _, _, ht, _, ha, hr⟩ => by
    subst ht
    simp only [Tree.nesting, Tree.nestingAll, Tree.nesting_leaf, next.nesting_spelled ha,
      rest.nesting_spelled hr, ProductRest.nesting, Nat.max_zero, Nat.zero_max]
    rfl

theorem Atom.nesting_spelled : ∀ (s : Atom) {t : Tree}, s.Spelled t → t.nesting = s.nesting
  | .named _, _, ⟨_, ht, _, _⟩ => by
    subst ht
    rfl
  | .number _, _, ⟨_, ht, _, _⟩ => by
    subst ht
    rfl
  | .minus inner, _, ⟨_, _, ht, _, ha⟩ => by
    subst ht
    simp only [Tree.nesting, Tree.nestingAll, Tree.nesting_leaf, inner.nesting_spelled ha,
      Atom.nesting, Nat.max_zero, Nat.zero_max]
    rfl
  | .group inner, _, ⟨_, _, _, ht, _, _, hs⟩ => by
    subst ht
    simp only [Tree.nesting, Tree.nestingAll, Tree.nesting_leaf, inner.nesting_spelled hs,
      Atom.nesting, Nat.max_zero, Nat.zero_max]
    rfl

end

end Source

namespace Statement

mutual

/-- How many bodies of loops and parts of conditionals a statement has inside each other. -/
def depth : Statement → Nat
  | assign _ _ => 0
  | branch _ ts es => max (depthAll ts) (depthAll es) + 1
  | loop _ ss => depthAll ss + 1
  | print _ => 0
  | read _ => 0

def depthAll : List Statement → Nat
  | [] => 0
  | s :: ss => max s.depth (depthAll ss)

end

mutual

def exprs : Statement → List Expr
  | assign _ e => [e]
  | branch c ts es => c.lhs :: c.rhs :: (exprsAll ts ++ exprsAll es)
  | loop c ss => c.lhs :: c.rhs :: exprsAll ss
  | print _ => []
  | read _ => []

def exprsAll : List Statement → List Expr
  | [] => []
  | s :: ss => s.exprs ++ exprsAll ss

end

theorem depthAll_le {n : Nat} {ss : List Statement} (h : ∀ s ∈ ss, 2 * s.depth ≤ n) :
    2 * depthAll ss ≤ n := by
  induction ss with
  | nil => exact Nat.zero_le n
  | cons s ss ih =>
    rw [List.forall_mem_cons] at h
    have hs := h.1
    have hss := ih h.2
    rw [depthAll]
    omega

theorem exprsAll_eq (ss : List Statement) : exprsAll ss = ss.flatMap exprs := by
  induction ss with
  | nil => rfl
  | cons s ss ih => rw [exprsAll, List.flatMap_cons, ih]

end Statement

namespace Tree

/-- A sum in the tree is read as the expression. -/
def HasSum (t : Tree) (e : Expr) : Prop :=
  ∃ u : Tree, u.Within t ∧ u.nonterminal? = some .sum ∧ Expr.ofTree u = .ok e

theorem HasSum.within {t u : Tree} {e : Expr} (h : t.HasSum e) (ht : t.Within u) : u.HasSum e := by
  obtain ⟨v, hv, hsum, he⟩ := h
  exact ⟨v, hv.trans ht, hsum, he⟩

/-- The tree has room for the statements: two levels for each block inside another one, and a sum
for each expression. -/
structure HasRoom (t : Tree) (ss : List Statement) : Prop where
  depth : 2 * Statement.depthAll ss ≤ t.nesting
  exprs : ∀ e ∈ Statement.exprsAll ss, t.HasSum e

theorem HasRoom.within {t u : Tree} {ss : List Statement} (h : t.HasRoom ss) (ht : t.Within u) :
    u.HasRoom ss where
  depth := h.depth.trans ht.nesting_le
  exprs e he := (h.exprs e he).within ht

theorem within_of_mem_instructions {i code : Tree} (h : i ∈ code.instructions) :
    i.Within code ∧ i.nonterminal? = some .instruction := by
  induction hn : sizeOf code using Nat.strongRecOn generalizing code with
  | _ n ih =>
    subst hn
    rw [instructions_eq, List.mem_append] at h
    rcases h with h | h
    · obtain ⟨hi, hkind⟩ := List.mem_filter.mp h
      exact ⟨.child hi .refl, of_decide_eq_true hkind⟩
    · split at h
      · rename_i next hnext
        have hlt := sizeOf_children_lt (List.mem_of_find?_eq_some hnext)
        obtain ⟨hwithin, hkind⟩ := ih _ hlt h rfl
        exact ⟨hwithin.trans (.of_childOf? hnext), hkind⟩
      · cases h

end Tree

theorem Tree.require_eq_ok {t : Tree} {a : Nonterminal} {c : { c : Tree // sizeOf c < sizeOf t }}
    (h : t.require a = .ok c) : t.childOf? a = some c.1 := by
  unfold require at h
  split at h
  · cases h
    assumption
  · cases h

theorem Condition.hasSum_of_ofTree {t : Tree} {c : Condition} (h : Condition.ofTree t = .ok c) :
    t.HasSum c.lhs ∧ t.HasSum c.rhs := by
  unfold Condition.ofTree at h
  split at h
  · rename_i lhs rhs rest hsums
    have hsum : ∀ s ∈ t.childrenOf .sum, s.Within t ∧ s.nonterminal? = some .sum := by
      intro s hs
      obtain ⟨hs, hkind⟩ := List.mem_filter.mp hs
      exact ⟨.child hs .refl, of_decide_eq_true hkind⟩
    rw [hsums, List.forall_mem_cons, List.forall_mem_cons] at hsum
    obtain ⟨hl, hr, -⟩ := hsum
    obtain ⟨comparison, -, h⟩ := bind_eq_ok.mp h
    split at h
    · obtain ⟨a, ha, h⟩ := bind_eq_ok.mp h
      obtain ⟨b, hb, h⟩ := bind_eq_ok.mp h
      cases h
      exact ⟨⟨lhs, hl.1, hl.2, ha⟩, ⟨rhs, hr.1, hr.2, hb⟩⟩
    · cases h
  · cases h

namespace Statement

theorem hasRoom_listOfTree {code : Tree} {ss : List Statement} (h : listOfTree code = .ok ss)
    (hroom : ∀ i ∈ code.instructions, ∀ s, Statement.ofTree i = .ok s → i.HasRoom [s]) :
    code.HasRoom ss := by
  have hone (s : Statement) (hs : s ∈ ss) : code.HasRoom [s] := by
    obtain ⟨i, hi, his⟩ := mem_of_mapM_ok h hs
    exact (hroom i hi s his).within (Tree.within_of_mem_instructions hi).1
  refine ⟨depthAll_le fun s hs => ?_, fun e he => ?_⟩
  · simpa [depthAll] using (hone s hs).depth
  · rw [exprsAll_eq, List.mem_flatMap] at he
    obtain ⟨s, hs, he⟩ := he
    exact (hone s hs).exprs e (by simpa [exprsAll] using he)

theorem hasRoom_listOfBlock {t : Tree} {ss : List Statement} (h : listOfBlock t = .ok ss)
    (hroom : ∀ code, t.childOf? .code = some code → ∀ rs, listOfTree code = .ok rs →
      code.HasRoom rs) : t.HasRoom ss := by
  unfold listOfBlock at h
  split at h
  · rename_i code hcode
    exact (hroom code hcode ss h).within (.of_childOf? hcode)
  · cases h
    exact ⟨Nat.zero_le _, nofun⟩

section

variable {c : Tree} {l : Tree.Label} {rest : List Tree} {s : Statement}
  (hroom : ∀ code : Tree, code.Within c → ∀ ss, listOfTree code = .ok ss → code.HasRoom ss)
  (h : Statement.ofTree (.node l (c :: rest)) = .ok s)

include h

theorem hasSum_of_assignment (hc : c.nonterminal? = some .assignment) :
    s.depth = 0 ∧ ∀ e ∈ s.exprs, c.HasSum e := by
  rw [ofTree_instruction, hc] at h
  obtain ⟨x, -, h⟩ := bind_eq_ok.mp h
  obtain ⟨u, hu, h⟩ := bind_eq_ok.mp h
  obtain ⟨e, he, h⟩ := bind_eq_ok.mp h
  cases h
  have hchild := Tree.require_eq_ok hu
  have hkind : u.1.nonterminal? = some .sum := by simpa using List.find?_some hchild
  refine ⟨rfl, ?_⟩
  rw [exprs, List.forall_mem_singleton]
  exact ⟨u.1, .of_childOf? hchild, hkind, he⟩

include hroom

/-- Either block of a conditional has room below it, the one behind `ELSE` in a node of its own. -/
theorem hasRoom_of_conditional (hc : c.nonterminal? = some .conditional) :
    2 * s.depth ≤ c.nesting + 1 ∧ ∀ e ∈ s.exprs, c.HasSum e := by
  rw [ofTree_instruction, hc] at h
  obtain ⟨ending, hending, h⟩ := bind_eq_ok.mp h
  obtain ⟨es, hes, h⟩ := bind_eq_ok.mp h
  obtain ⟨test, htest, h⟩ := bind_eq_ok.mp h
  obtain ⟨condition, hcondition, h⟩ := bind_eq_ok.mp h
  obtain ⟨code, hcode, h⟩ := bind_eq_ok.mp h
  obtain ⟨ts, hts, h⟩ := bind_eq_ok.mp h
  cases h
  have hend := Tree.require_eq_ok hending
  have hthen := Tree.require_eq_ok hcode
  have htested := Tree.require_eq_ok htest
  have hes' := hasRoom_listOfBlock hes fun code' hcode' rs hrs =>
    hroom code' (.trans (.of_childOf? hcode') (.of_childOf? hend)) rs hrs
  have hts' := hroom code.1 (.of_childOf? hthen) ts hts
  have hsums := Condition.hasSum_of_ofTree hcondition
  have hlt := Tree.nesting_child_lt (List.mem_of_find?_eq_some hend) hc (by decide)
  have hlt' := Tree.nesting_child_lt (List.mem_of_find?_eq_some hthen) hc (by decide)
  refine ⟨?_, ?_⟩
  · have hd := hts'.depth
    have hd' := hes'.depth
    rw [depth]
    omega
  · simp only [exprs, List.forall_mem_cons, List.forall_mem_append]
    exact ⟨hsums.1.within (.of_childOf? htested), hsums.2.within (.of_childOf? htested),
      fun e he => (hts'.exprs e he).within (.of_childOf? hthen),
      fun e he => (hes'.exprs e he).within (.of_childOf? hend)⟩

theorem hasRoom_of_loop (hc : c.nonterminal? = some .loop) :
    2 * s.depth ≤ c.nesting + 1 ∧ ∀ e ∈ s.exprs, c.HasSum e := by
  rw [ofTree_instruction, hc] at h
  obtain ⟨test, htest, h⟩ := bind_eq_ok.mp h
  obtain ⟨condition, hcondition, h⟩ := bind_eq_ok.mp h
  obtain ⟨code, hcode, h⟩ := bind_eq_ok.mp h
  obtain ⟨ss, hss, h⟩ := bind_eq_ok.mp h
  cases h
  have hbody := Tree.require_eq_ok hcode
  have htested := Tree.require_eq_ok htest
  have hss' := hroom code.1 (.of_childOf? hbody) ss hss
  have hsums := Condition.hasSum_of_ofTree hcondition
  have hlt := Tree.nesting_child_lt (List.mem_of_find?_eq_some hbody) hc (by decide)
  refine ⟨?_, ?_⟩
  · have hd := hss'.depth
    rw [depth]
    omega
  · simp only [exprs, List.forall_mem_cons]
    exact ⟨hsums.1.within (.of_childOf? htested), hsums.2.within (.of_childOf? htested),
      fun e he => (hss'.exprs e he).within (.of_childOf? hbody)⟩

end

/-- By induction on the size of the tree: the block of a statement stands two nodes below it. -/
theorem hasRoom_ofTree {i : Tree} {s : Statement} (hi : i.nonterminal? = some .instruction)
    (h : Statement.ofTree i = .ok s) : i.HasRoom [s] := by
  induction hn : sizeOf i using Nat.strongRecOn generalizing i s with
  | _ n ih =>
    subst hn
    obtain ⟨l, cs⟩ := i
    cases cs with
    | nil =>
      rw [Statement.ofTree] at h
      cases h
    | cons c rest =>
      have hchild : c ∈ (Tree.node l (c :: rest)).children := List.mem_cons_self
      have hlt := Tree.nesting_child_lt hchild hi (by decide)
      have hroom (code : Tree) (hcode : code.Within c) (ss : List Statement)
          (hss : listOfTree code = .ok ss) : code.HasRoom ss := by
        refine hasRoom_listOfTree hss fun j hj r hr => ?_
        have hsize := Tree.sizeOf_lt_of_mem_instructions hj
        have hsize' := Tree.sizeOf_children_lt hchild
        have hle := hcode.sizeOf_le
        exact ih _ (by omega) (Tree.within_of_mem_instructions hj).2 hr rfl
      have hbelow : 2 * s.depth ≤ c.nesting + 1 ∧ ∀ e ∈ s.exprs, c.HasSum e := by
        have hread := h
        rw [ofTree_instruction] at hread
        cases hc : c.nonterminal? with
        | none => rw [hc] at hread; cases hread
        | some a =>
          rw [hc] at hread
          cases a with
          | assignment =>
            obtain ⟨hdepth, hexprs⟩ := hasSum_of_assignment h hc
            exact ⟨by omega, hexprs⟩
          | conditional => exact hasRoom_of_conditional hroom h hc
          | loop => exact hasRoom_of_loop hroom h hc
          | print | read =>
            obtain ⟨x, -, rfl⟩ := map_eq_ok.mp hread
            exact ⟨Nat.zero_le _, List.forall_mem_nil _⟩
          | _ => cases hread
      refine ⟨?_, fun e he => ?_⟩
      · have hdepth := hbelow.1
        simp only [depthAll, Nat.max_zero]
        omega
      · have hsum := hbelow.2 e (by simpa [exprsAll] using he)
        exact hsum.within (.child hchild .refl)

end Statement

theorem Program.hasRoom_of_ofTree {t : Tree} {p : Program} (h : Program.ofTree t = .ok p) :
    2 * Statement.depthAll p.statements < t.nesting ∧
      ∀ e ∈ Statement.exprsAll p.statements, t.HasSum e := by
  unfold Program.ofTree at h
  split at h
  · rename_i ht
    obtain ⟨name, -, h⟩ := bind_eq_ok.mp h
    obtain ⟨code, hcode, h⟩ := bind_eq_ok.mp h
    obtain ⟨ss, hss, h⟩ := bind_eq_ok.mp h
    cases h
    have hchild := Tree.require_eq_ok hcode
    have hroom := Statement.hasRoom_listOfTree hss fun i hi s hs =>
      Statement.hasRoom_ofTree (Tree.within_of_mem_instructions hi).2 hs
    have hlt := Tree.nesting_child_lt (List.mem_of_find?_eq_some hchild) ht (by decide)
    exact ⟨hroom.depth.trans_lt hlt,
      fun e he => (hroom.exprs e he).within (.of_childOf? hchild)⟩
  · cases h

end FortressLang
