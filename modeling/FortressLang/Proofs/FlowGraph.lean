import FortressLang.Proofs.LoweredBlocks
import Mathlib.Logic.Relation

/-! Lowered code as a flow graph. Its labels and conditions are unique, each statement jumps to
labels of its own, every exit ends a block and every block begins behind one, and a run can get
everywhere: the first exit to a label stands in front of it. -/
namespace FortressLang

def targets (code : List Op) : List CodeLabel := code.flatMap Op.exits

@[simp] theorem targets_nil : targets [] = [] := rfl

@[simp] theorem targets_cons (op : Op) (code : List Op) :
    targets (op :: code) = op.exits ++ targets code := List.flatMap_cons

@[simp] theorem targets_append (code more : List Op) :
    targets (code ++ more) = targets code ++ targets more := List.flatMap_append

/-- Where no label stands, no exit does: it would have one behind it. -/
theorem Blocks.targets_eq_nil {code : List Op} (h : Blocks code) (hl : labels code = []) :
    targets code = [] := by
  induction h with
  | nil => rfl
  | inner hinner _ ih =>
    rw [labels_cons, hinner.2] at hl
    rw [targets_cons, hinner.1]
    exact ih hl
  | exit => simp [Op.label?] at hl

/-- One step along the graph: from an exit to its labels, from another operation to the next. -/
inductive Leads (code : List Op) : Nat → Nat → Prop
  | next {i : Nat} {op : Op} : code[i]? = some op → op.exits = [] → Leads code i (i + 1)
  | exit {i j : Nat} {op : Op} {l : CodeLabel} : code[i]? = some op → l ∈ op.exits →
    code[j]? = some (.label l) → Leads code i j

/-- There is a way from the beginning of the code. -/
def Reached (code : List Op) (i : Nat) : Prop := Relation.ReflTransGen (Leads code) 0 i

/-- Every label of the code stands behind an exit to it, or is known from in front of the code. -/
def Entered (known : List CodeLabel) : List Op → Prop
  | [] => True
  | op :: code => (∀ l, op.label? = some l → l ∈ known) ∧ Entered (op.exits ++ known) code

namespace Entered

variable {known known' : List CodeLabel} {code more : List Op} {l : CodeLabel} {i : Nat}

theorem mono (h : Entered known code) (hk : known ⊆ known') : Entered known' code := by
  induction code generalizing known known' with
  | nil => trivial
  | cons op code ih =>
    exact ⟨fun l hl => hk (h.1 l hl), ih h.2 (List.append_subset.mpr
      ⟨List.subset_append_left _ _, List.Subset.trans hk (List.subset_append_right _ _)⟩)⟩

theorem append (h : Entered known code) (h' : Entered known more) :
    Entered known (code ++ more) := by
  induction code generalizing known with
  | nil => exact h'
  | cons op code ih => exact ⟨h.1, ih h.2 (h'.mono (List.subset_append_right _ _))⟩

theorem of_labels_eq_nil (h : labels code = []) : Entered known code := by
  induction code generalizing known with
  | nil => trivial
  | cons op code ih =>
    rw [labels_cons, List.append_eq_nil_iff, Option.toList_eq_nil_iff] at h
    exact ⟨by simp [h.1], ih h.2⟩

theorem exit {op : Op} (hop : op.label? = none) (hl : l ∈ op.exits ++ known)
    (h : Entered (op.exits ++ known) code) : Entered known (op :: .label l :: code) :=
  ⟨by simp [hop], by simpa [Op.label?] using hl, h⟩

theorem exists_exit (h : Entered known code) (hi : code[i]? = some (.label l)) :
    l ∈ known ∨ ∃ j < i, ∃ op, code[j]? = some op ∧ l ∈ op.exits := by
  induction code generalizing known i with
  | nil => simp at hi
  | cons op code ih =>
    cases i with
    | zero =>
      obtain rfl := Option.some.inj hi
      exact .inl (h.1 l rfl)
    | succ i =>
      rcases ih h.2 hi with hl | ⟨j, hj, op', hop', hl⟩
      · rcases List.mem_append.mp hl with hl | hl
        · exact .inr ⟨0, by omega, op, rfl, hl⟩
        · exact .inl hl
      · exact .inr ⟨j + 1, by omega, op', hop', hl⟩

/-- Where every label has an exit in front of it, a run can get everywhere: to a label from that
exit, and to anything else from the operation in front of it. -/
theorem reached (h : Entered [] code) (hblocks : Blocks code) (hi : i ≤ code.length) :
    Reached code i := by
  induction i using Nat.strongRecOn with
  | _ i ih =>
    match i with
    | 0 => exact .refl
    | i + 1 =>
      have hop : code[i]? = some code[i] := List.getElem?_eq_getElem hi
      by_cases hexits : code[i].exits = []
      · exact (ih i (Nat.lt_succ_self i) (by omega)).tail (.next hop hexits)
      · obtain ⟨l, hl⟩ := hblocks.label_behind_exit hop hexits
        obtain ⟨j, hj, op, hjop, hlop⟩ := (h.exists_exit hl).resolve_left List.not_mem_nil
        exact (ih j hj (by omega)).tail (.exit hjop hlop hl)

end Entered

theorem Statement.labels_assign (ctx : Context) (target : String) (value : Expr) :
    labels ((assign target value).lower ctx).1 = [] := by
  simp [Statement.lower, Expr.labels_lower, Context.labels_allocate, Op.label?]

theorem Statement.labels_read (ctx : Context) (name : String) :
    labels ((read name).lower ctx).1 = [] := by
  simp [Statement.lower, Context.labels_allocate, Op.label?]

theorem Condition.entered_lower (c : Condition) (block first : Nat) (known : List CodeLabel) :
    Entered known (c.lower block first).1 := .of_labels_eq_nil (c.labels_lower block first)

mutual

theorem Statement.entered_lower (ctx : Context) (known : List CodeLabel) :
    ∀ s : Statement, Entered known (s.lower ctx).1
  | .assign target value => .of_labels_eq_nil (Statement.labels_assign ctx target value)
  | .print name => .of_labels_eq_nil rfl
  | .read name => .of_labels_eq_nil (Statement.labels_read ctx name)
  | .branch c ts es => by
    rw [Statement.lower_branch]
    refine (c.entered_lower _ _ _).append (.exit rfl (by simp [Op.exits]) ?_)
    refine (Statement.entered_lowerAll _ _ ts).append (.exit rfl (by simp [Op.exits]) ?_)
    exact (Statement.entered_lowerAll _ _ es).append (.exit rfl (by simp [Op.exits]) trivial)
  | .loop c ss => by
    rw [Statement.lower_loop]
    refine .exit rfl (by simp [Op.exits]) ?_
    refine (c.entered_lower _ _ _).append (.exit rfl (by simp [Op.exits]) ?_)
    exact (Statement.entered_lowerAll _ _ ss).append (.exit rfl (by simp [Op.exits]) trivial)

theorem Statement.entered_lowerAll (ctx : Context) (known : List CodeLabel) :
    ∀ ss : List Statement, Entered known (lowerAll ctx ss).1
  | [] => trivial
  | s :: ss => (Statement.entered_lower ctx known s).append (Statement.entered_lowerAll _ known ss)

end

mutual

theorem Statement.targets_subset_labels (ctx : Context) :
    ∀ s : Statement, targets (s.lower ctx).1 ⊆ labels (s.lower ctx).1
  | .assign target value => by
    rw [(Statement.continues_lower ctx _).blocks.targets_eq_nil (Statement.labels_assign ..)]
    exact List.nil_subset _
  | .print name => List.nil_subset _
  | .read name => by
    rw [(Statement.continues_lower ctx _).blocks.targets_eq_nil (Statement.labels_read ..)]
    exact List.nil_subset _
  | .branch c ts es => by
    have htest := (c.continues_lower ctx).blocks.targets_eq_nil (c.labels_lower _ _)
    have hthen := Statement.targets_lowerAll_subset_labels (ctx.inside c) ts
    have helse := Statement.targets_lowerAll_subset_labels (lowerAll (ctx.inside c) ts).2 es
    intro l hl
    have hl₁ := @hthen l
    have hl₂ := @helse l
    simp only [Statement.lower_branch, targets_append, targets_cons, targets_nil, htest,
      labels_append, labels_cons, labels_nil, Condition.labels_lower, Op.exits, Op.label?,
      Option.toList, List.mem_append, List.mem_cons, List.not_mem_nil, or_false, false_or] at hl ⊢
    tauto
  | .loop c ss => by
    have htest := (c.continues_lower ctx).blocks.targets_eq_nil (c.labels_lower _ _)
    have hbody := Statement.targets_lowerAll_subset_labels (ctx.inside c) ss
    intro l hl
    have hl' := @hbody l
    simp only [Statement.lower_loop, targets_append, targets_cons, targets_nil, htest,
      labels_append, labels_cons, labels_nil, Condition.labels_lower, Op.exits, Op.label?,
      Option.toList, List.mem_append, List.mem_cons, List.not_mem_nil, or_false, false_or] at hl ⊢
    tauto

theorem Statement.targets_lowerAll_subset_labels (ctx : Context) :
    ∀ ss : List Statement, targets (lowerAll ctx ss).1 ⊆ labels (lowerAll ctx ss).1
  | [] => List.nil_subset _
  | s :: ss => by
    have hs := Statement.targets_subset_labels ctx s
    have hss := Statement.targets_lowerAll_subset_labels (s.lower ctx).2 ss
    simp only [Statement.lowerAll, targets_append, labels_append]
    exact List.append_subset.mpr
      ⟨List.Subset.trans hs (List.subset_append_left _ _),
        List.Subset.trans hss (List.subset_append_right _ _)⟩

end

/-- The list of statements contains the statement, at any depth, and lowering the list in a context
lowers it in a context of its own. -/
inductive Statement.Lowers : Context → List Statement → Context → Statement → Prop
  | here {ctx : Context} {s : Statement} {ss : List Statement} : Lowers ctx (s :: ss) ctx s
  | later {ctx d : Context} {s u : Statement} {ss : List Statement} :
    Lowers (s.lower ctx).2 ss d u → Lowers ctx (s :: ss) d u
  | inThen {ctx d : Context} {c : Condition} {ts es ss : List Statement} {u : Statement} :
    Lowers (ctx.inside c) ts d u → Lowers ctx (branch c ts es :: ss) d u
  | inElse {ctx d : Context} {c : Condition} {ts es ss : List Statement} {u : Statement} :
    Lowers (lowerAll (ctx.inside c) ts).2 es d u → Lowers ctx (branch c ts es :: ss) d u
  | inBody {ctx d : Context} {c : Condition} {body ss : List Statement} {u : Statement} :
    Lowers (ctx.inside c) body d u → Lowers ctx (loop c body :: ss) d u

theorem Statement.Lowers.standing {ctx d : Context} {ss : List Statement} {u : Statement}
    (h : Lowers ctx ss d u) : (u.lower d).1 <:+: (lowerAll ctx ss).1 := by
  have behind {xs ys : List Op} (op op' : Op) (zs : List Op) (h : xs <:+: ys) :
      xs <:+: zs ++ op :: op' :: ys :=
    (List.infix_cons (List.infix_cons h)).trans (List.suffix_append _ _).isInfix
  induction h with
  | here => exact (List.prefix_append _ _).isInfix
  | later _ ih => exact ih.trans (List.suffix_append _ _).isInfix
  | inThen _ ih =>
    rw [lowerAll, lower_branch]
    exact .trans (behind _ _ _ (ih.trans (List.prefix_append _ _).isInfix))
      (List.prefix_append _ _).isInfix
  | inElse _ ih =>
    rw [lowerAll, lower_branch]
    exact .trans (behind _ _ _ (behind _ _ _ (ih.trans (List.prefix_append _ _).isInfix)))
      (List.prefix_append _ _).isInfix
  | inBody _ ih =>
    rw [lowerAll, lower_loop]
    exact .trans (behind _ _ [] (behind _ _ _ (ih.trans (List.prefix_append _ _).isInfix)))
      (List.prefix_append _ _).isInfix

/-- Flat code that is a flow graph: every block but the first begins with a label of its own, every
block but the last ends with an exit to such labels, and all of them are reached. -/
structure FlowGraph (code : List Op) : Prop where
  labels_nodup : (labels code).Nodup
  blocks : Blocks code
  label_behind_exit : ∀ {i op}, code[i]? = some op → op.exits ≠ [] →
    ∃ l, code[i + 1]? = some (.label l)
  exit_before_label : ∀ {i l}, code[i]? = some (.label l) →
    ∃ j op, i = j + 1 ∧ code[j]? = some op ∧ op.exits ≠ []
  reached : ∀ {i}, i ≤ code.length → Reached code i
  /-- A branch tests a condition that its own block has decided. -/
  decided : ∀ {before block onTrue onFalse after},
    code = before ++ .branch block onTrue onFalse :: after →
    ∃ comparison lhs rhs, .compare block comparison lhs rhs ∈ openBlock before
  conditions_nodup : (conditions code).Nodup

namespace Context.Continues

variable {ctx last : Context} {code : List Op}

theorem conditions_nodup (h : ctx.Continues (code, last)) : (conditions code).Nodup := by
  have hall : (List.range last.nextBlock).Nodup := List.nodup_range
  rw [← h.conditions_eq] at hall
  exact hall.of_append_right

theorem decided (h : ctx.Continues (code, last)) {before after : List Op} {block : Nat}
    {onTrue onFalse : CodeLabel} (hcode : code = before ++ .branch block onTrue onFalse :: after) :
    ∃ comparison lhs rhs, .compare block comparison lhs rhs ∈ openBlock before := by
  obtain ⟨op, hop, hwrites⟩ := h.grounded before _ after hcode _ (List.mem_singleton_self _)
  cases op <;> simp only [Op.writes?, Option.some.injEq, reduceCtorEq, Register.condition.injEq]
    at hwrites
  exact hwrites ▸ ⟨_, _, _, hop⟩

end Context.Continues

/-- The code of a list of statements is a flow graph, in whatever context it is lowered. The code
of each statement stands in it in one piece, and jumps to labels of that piece only. -/
theorem lowered_code_is_flow_graph (ctx : Context) (ss : List Statement) :
    FlowGraph (Statement.lowerAll ctx ss).1 ∧
    ∀ d u, Statement.Lowers ctx ss d u →
      (u.lower d).1 <:+: (Statement.lowerAll ctx ss).1 ∧
      ∀ op ∈ (u.lower d).1, ∀ l ∈ op.exits, l ∈ labels (u.lower d).1 := by
  have hcontinues := Statement.continues_lowerAll ctx ss
  have hblocks := hcontinues.blocks
  refine ⟨?_, fun d u hu => ⟨hu.standing, fun op hop l hl => ?_⟩⟩
  · exact {
      labels_nodup := (Statement.labelsWithin_lowerAll ctx ss).nodup
      blocks := hblocks
      label_behind_exit := hblocks.label_behind_exit
      exit_before_label := hblocks.exit_before_label
      reached := (Statement.entered_lowerAll ctx [] ss).reached hblocks
      decided := hcontinues.decided
      conditions_nodup := hcontinues.conditions_nodup }
  · exact Statement.targets_subset_labels d u (List.mem_flatMap.mpr ⟨op, hop, hl⟩)

end FortressLang
