import FortressLang.Lowering
import Mathlib.Data.List.Nodup

/-! Every label of lowered code stands in it once. A statement's labels are named after the blocks
that it takes, and the blocks that statements take follow each other. -/
namespace FortressLang

def Context.inside (ctx : Context) (c : Condition) : Context :=
  { ctx with nextTemp := (c.lower ctx.nextBlock ctx.nextTemp).2, nextBlock := ctx.nextBlock + 1 }

theorem Statement.lower_branch (ctx : Context) (c : Condition) (ts es : List Statement) :
    (branch c ts es).lower ctx =
      let thenPart := lowerAll (ctx.inside c) ts
      let elsePart := lowerAll thenPart.2 es
      ((c.lower ctx.nextBlock ctx.nextTemp).1 ++
        .branch ctx.nextBlock (.thenPart ctx.nextBlock) (.elsePart ctx.nextBlock) ::
        .label (.thenPart ctx.nextBlock) :: (thenPart.1 ++
        .jump (.finish ctx.nextBlock) :: .label (.elsePart ctx.nextBlock) :: (elsePart.1 ++
        [.jump (.finish ctx.nextBlock), .label (.finish ctx.nextBlock)])), elsePart.2) := by
  simp [lower, Context.inside]

theorem Statement.lower_loop (ctx : Context) (c : Condition) (ss : List Statement) :
    (loop c ss).lower ctx =
      let body := lowerAll (ctx.inside c) ss
      (.jump (.test ctx.nextBlock) :: .label (.test ctx.nextBlock) ::
        ((c.lower ctx.nextBlock ctx.nextTemp).1 ++
        .branch ctx.nextBlock (.body ctx.nextBlock) (.finish ctx.nextBlock) ::
        .label (.body ctx.nextBlock) :: (body.1 ++
        [.jump (.test ctx.nextBlock), .label (.finish ctx.nextBlock)])), body.2) := by
  simp [lower, Context.inside]

def CodeLabel.block : CodeLabel → Nat
  | thenPart n | elsePart n | finish n | test n | body n => n

def Op.label? : Op → Option CodeLabel
  | label l => some l
  | _ => none

def labels (code : List Op) : List CodeLabel := code.filterMap Op.label?

@[simp] theorem labels_nil : labels [] = [] := rfl

@[simp] theorem labels_cons (op : Op) (code : List Op) :
    labels (op :: code) = op.label?.toList ++ labels code := by
  cases h : op.label? <;> simp [labels, h]

@[simp] theorem labels_append (code more : List Op) :
    labels (code ++ more) = labels code ++ labels more := List.filterMap_append

theorem mem_labels {l : CodeLabel} {code : List Op} : l ∈ labels code ↔ .label l ∈ code := by
  simp only [labels, List.mem_filterMap]
  constructor
  · rintro ⟨op, hop, hl⟩
    cases op <;> simp only [Op.label?, Option.some.injEq, reduceCtorEq] at hl
    exact hl ▸ hop
  · exact fun h => ⟨_, h, rfl⟩

theorem findIdx?_label {code : List Op} {l : CodeLabel} {a : Nat} (hn : (labels code).Nodup)
    (h : code[a]? = some (.label l)) : code.findIdx? (· = .label l) = some a := by
  obtain ⟨ha, hl⟩ := List.getElem?_eq_some_iff.mp h
  rw [List.findIdx?_eq_some_iff_getElem]
  refine ⟨ha, by simpa using hl, fun j hj hjl => ?_⟩
  have hsplit : code = code.take a ++ .label l :: code.drop (a + 1) := by
    rw [← hl, List.getElem_cons_drop, List.take_append_drop]
  have hbefore : Op.label l ∈ code.take a :=
    List.mem_take_iff_getElem.mpr ⟨j, by omega, by simpa using hjl⟩
  rw [hsplit, labels_append, List.nodup_append] at hn
  exact hn.2.2 l (mem_labels.mpr hbefore) l (by simp [Op.label?]) rfl

/-- The labels of the code are those of blocks between two bounds, each at most once. -/
structure LabelsWithin (lo hi : Nat) (code : List Op) : Prop where
  le : lo ≤ hi
  bounds : ∀ l ∈ labels code, lo ≤ l.block ∧ l.block < hi
  nodup : (labels code).Nodup

namespace LabelsWithin

variable {a b c : Nat} {code more : List Op}

theorem of_labels_eq_nil (h : labels code = []) : LabelsWithin a a code where
  le := Nat.le_refl a
  bounds := by simp [h]
  nodup := by simp [h]

theorem append (h : LabelsWithin a b code) (h' : LabelsWithin b c more) :
    LabelsWithin a c (code ++ more) where
  le := Nat.le_trans h.le h'.le
  bounds l hl := by
    have hab := h.le
    have hbc := h'.le
    rw [labels_append, List.mem_append] at hl
    rcases hl with hl | hl
    · have := h.bounds l hl
      omega
    · have := h'.bounds l hl
      omega
  nodup := by
    rw [labels_append, List.nodup_append]
    refine ⟨h.nodup, h'.nodup, fun l hl m hm hlm => ?_⟩
    subst hlm
    have := h.bounds l hl
    have := h'.bounds l hm
    omega

/-- The labels of one block may stand around and between the code of later blocks. -/
theorem wrap {whole : List Op} (h : LabelsWithin (a + 1) b code) (outer : List CodeLabel)
    (hwhole : ∀ l, (labels whole).count l = outer.count l + (labels code).count l)
    (houter : outer.Nodup) (hblock : ∀ l ∈ outer, l.block = a) : LabelsWithin a b whole := by
  have hperm : (labels whole).Perm (outer ++ labels code) :=
    List.perm_iff_count.mpr fun l => by rw [hwhole, List.count_append]
  refine ⟨Nat.le_of_succ_le h.le, fun l hl => ?_, ?_⟩
  · have hab := h.le
    rcases List.mem_append.mp (hperm.mem_iff.mp hl) with hl | hl
    · have := hblock l hl
      omega
    · have := h.bounds l hl
      omega
  · rw [hperm.nodup_iff, List.nodup_append]
    refine ⟨houter, h.nodup, fun l hl m hm hlm => ?_⟩
    subst hlm
    have := hblock l hl
    have := h.bounds l hm
    omega

end LabelsWithin

theorem Expr.labels_lower (first : Nat) (e : Expr) : labels (e.lower first).1 = [] := by
  induction e generalizing first with
  | operand o =>
    obtain ⟨v, negated⟩ := o
    cases v <;> cases negated <;> rfl
  | binary op lhs rhs ihl ihr => simp [Expr.lower, ihl, ihr, Op.label?]

theorem Condition.labels_lower (c : Condition) (block first : Nat) :
    labels (c.lower block first).1 = [] := by
  simp [Condition.lower, Expr.labels_lower, Op.label?]

theorem Context.labels_allocate (ctx : Context) (name : String) :
    labels (ctx.allocate name).1 = [] := by
  unfold Context.allocate
  split
  · rfl
  · split <;> rfl

theorem Context.nextBlock_allocate (ctx : Context) (name : String) :
    (ctx.allocate name).2.nextBlock = ctx.nextBlock := by
  unfold Context.allocate
  split
  · rfl
  · split <;> rfl

mutual

theorem Statement.labelsWithin_lower (ctx : Context) :
    ∀ s : Statement, LabelsWithin ctx.nextBlock (s.lower ctx).2.nextBlock (s.lower ctx).1
  | .assign target value => by
    simp only [Statement.lower, Context.nextBlock_allocate]
    apply LabelsWithin.of_labels_eq_nil
    simp [Expr.labels_lower, Context.labels_allocate, Op.label?]
  | .print name => .of_labels_eq_nil rfl
  | .read name => by
    simp only [Statement.lower, Context.nextBlock_allocate]
    apply LabelsWithin.of_labels_eq_nil
    simp [Context.labels_allocate, Op.label?]
  | .branch c ts es => by
    rw [Statement.lower_branch]
    have hthen := Statement.labelsWithin_lowerAll (ctx.inside c) ts
    have helse := Statement.labelsWithin_lowerAll (lowerAll (ctx.inside c) ts).2 es
    let n := ctx.nextBlock
    refine (hthen.append helse).wrap [.thenPart n, .elsePart n, .finish n] (fun l => ?_)
      (by simp) (by simp [CodeLabel.block, n])
    simp only [labels_append, labels_cons, labels_nil, Condition.labels_lower, Op.label?,
      Option.toList, List.count_append, List.count_cons, List.count_nil, n]
    omega
  | .loop c ss => by
    rw [Statement.lower_loop]
    let n := ctx.nextBlock
    refine (Statement.labelsWithin_lowerAll (ctx.inside c) ss).wrap
      [.test n, .body n, .finish n] (fun l => ?_) (by simp) (by simp [CodeLabel.block, n])
    simp only [labels_append, labels_cons, labels_nil, Condition.labels_lower, Op.label?,
      Option.toList, List.count_append, List.count_cons, List.count_nil, n]
    omega

theorem Statement.labelsWithin_lowerAll (ctx : Context) :
    ∀ ss : List Statement,
      LabelsWithin ctx.nextBlock (lowerAll ctx ss).2.nextBlock (lowerAll ctx ss).1
  | [] => .of_labels_eq_nil rfl
  | s :: ss =>
    (Statement.labelsWithin_lower ctx s).append (Statement.labelsWithin_lowerAll _ ss)

end

end FortressLang
