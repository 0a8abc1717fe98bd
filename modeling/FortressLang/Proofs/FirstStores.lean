import FortressLang.Proofs.HeldStorage
import FortressLang.Proofs.NumberedTemporaries

/-! Storage that is allocated in place. Over the whole life of a context, storage is made for the
variables that are stored to, once each, and right in front of the first store. -/
namespace FortressLang

def Op.stored? : Op → Option String
  | store _ name => some name
  | _ => none

theorem Op.stored?_eq_some {op : Op} {name : String} :
    op.stored? = some name ↔ ∃ src, op = .store src name := by
  cases op <;> simp [stored?]

theorem Op.stored?_of_keepsStorage {op : Op} (h : op.keepsStorage = true) : op.stored? = none := by
  cases op <;> first | rfl | cases h

/-- The first store to a variable stands at this place in the code. -/
def FirstStore (code : List Op) (name : String) (i : Nat) : Prop :=
  code[i]?.bind Op.stored? = some name ∧ ∀ j < i, code[j]?.bind Op.stored? ≠ some name

section

variable {op : Op} {code : List Op} {name : String}

theorem firstStore_zero : FirstStore (op :: code) name 0 ↔ op.stored? = some name := by
  simp [FirstStore]

theorem firstStore_succ {i : Nat} : FirstStore (op :: code) name (i + 1) ↔
    op.stored? ≠ some name ∧ FirstStore code name i := by
  constructor
  · rintro ⟨hi, hbefore⟩
    exact ⟨hbefore 0 (Nat.succ_pos i), hi, fun j hj => hbefore (j + 1) (Nat.succ_lt_succ hj)⟩
  · rintro ⟨hop, hi, hbefore⟩
    refine ⟨hi, fun j hj => ?_⟩
    cases j with
    | zero => exact hop
    | succ j => exact hbefore j (Nat.lt_of_succ_lt_succ hj)

end

/-- Code in front of which some variables have storage, and behind which others have it, too: a
store to a variable without storage has it made right in front, and none is made elsewhere. -/
inductive Supplied : List String → List Op → List String → Prop
  | nil {known : List String} : Supplied known [] known
  | other {known last : List String} {op : Op} {code : List Op} : op.keepsStorage = true →
    Supplied known code last → Supplied known (op :: code) last
  | again {known last : List String} {src : Nat} {name : String} {code : List Op} : name ∈ known →
    Supplied known code last → Supplied known (.store src name :: code) last
  | first {known last : List String} {src : Nat} {name : String} {code : List Op} : name ∉ known →
    Supplied (name :: known) code last →
      Supplied known (.alloc name :: .store src name :: code) last

namespace Supplied

variable {known mid last : List String} {code more : List Op} {name : String} {i : Nat}

theorem append (h : Supplied known code mid) (h' : Supplied mid more last) :
    Supplied known (code ++ more) last := by
  induction h with
  | nil => exact h'
  | other hop _ ih => exact .other hop (ih h')
  | again hname _ ih => exact .again hname (ih h')
  | first hname _ ih => exact .first hname (ih h')

theorem of_keepsStorage (h : ∀ op ∈ code, op.keepsStorage = true) : Supplied known code known := by
  induction code with
  | nil => exact .nil
  | cons op code ih =>
    rw [List.forall_mem_cons] at h
    exact .other h.1 (ih h.2)

theorem known_of_firstStore_zero (h : Supplied known code last) (hfirst : FirstStore code name 0) :
    name ∈ known := by
  cases h with
  | nil => simp [FirstStore] at hfirst
  | other hop =>
    rw [firstStore_zero, Op.stored?_of_keepsStorage hop] at hfirst
    cases hfirst
  | again hname =>
    obtain rfl := Option.some.inj (firstStore_zero.mp hfirst)
    exact hname
  | first => cases firstStore_zero.mp hfirst

/-- Storage is made exactly in front of the first stores to other variables than the known ones. -/
theorem alloc_iff (h : Supplied known code last) :
    code[i]? = some (.alloc name) ↔ name ∉ known ∧ FirstStore code name (i + 1) := by
  induction h generalizing i with
  | nil => simp [FirstStore]
  | @other known last op code hop h ih =>
    have hstored := Op.stored?_of_keepsStorage hop
    cases i with
    | zero =>
      have halloc : op ≠ .alloc name := by
        rintro rfl
        cases hop
      have hzero := @known_of_firstStore_zero known last code name h
      simp only [List.getElem?_cons_zero, Option.some.injEq, halloc, firstStore_succ, false_iff]
      tauto
    | succ i =>
      rw [List.getElem?_cons_succ, ih, firstStore_succ, hstored]
      simp
  | @again known last src x code hx h ih =>
    cases i with
    | zero =>
      have hzero := @known_of_firstStore_zero known last code name h
      simp only [List.getElem?_cons_zero, Option.some.injEq, reduceCtorEq, firstStore_succ,
        false_iff]
      tauto
    | succ i =>
      have hother : name ∉ known → (Op.store src x).stored? ≠ some name := by
        rintro hname hstored
        obtain rfl := Option.some.inj hstored
        exact hname hx
      rw [List.getElem?_cons_succ, ih, firstStore_succ]
      tauto
  | @first known last src x code hx h ih =>
    have hzero := @known_of_firstStore_zero (x :: known) last code name h
    match i with
    | 0 =>
      simp only [List.getElem?_cons_zero, Option.some.injEq, Op.alloc.injEq, firstStore_succ,
        firstStore_zero, Op.stored?, reduceCtorEq, ne_eq, not_false_eq_true, true_and]
      exact ⟨fun hname => ⟨hname ▸ hx, hname⟩, fun hname => hname.2⟩
    | 1 =>
      simp only [List.getElem?_cons_succ, List.getElem?_cons_zero, Option.some.injEq, reduceCtorEq,
        firstStore_succ, Op.stored?, ne_eq, not_false_eq_true, true_and, false_iff]
      rintro ⟨hname, hne, hfirst⟩
      rcases List.mem_cons.mp (hzero hfirst) with rfl | hmem
      · exact hne rfl
      · exact hname hmem
    | i + 2 =>
      rw [List.getElem?_cons_succ, List.getElem?_cons_succ, ih]
      simp only [firstStore_succ, Op.stored?, List.mem_cons, not_or, Option.some.injEq, ne_eq,
        reduceCtorEq, not_false_eq_true, true_and]
      constructor
      · rintro ⟨⟨hne, hname⟩, hfirst⟩
        exact ⟨hname, fun heq => hne heq.symm, hfirst⟩
      · rintro ⟨hname, hne, hfirst⟩
        exact ⟨⟨fun heq => hne heq.symm, hname⟩, hfirst⟩

theorem not_known_of_alloc (h : Supplied known code last) (hname : .alloc name ∈ code) :
    name ∉ known := by
  obtain ⟨i, hi⟩ := List.mem_iff_getElem?.mp hname
  exact (h.alloc_iff.mp hi).1

theorem nodup_allocated (h : Supplied known code last) :
    (code.filterMap Op.allocated?).Nodup := by
  induction h with
  | nil => exact List.nodup_nil
  | other hop _ ih => rwa [List.filterMap_cons_none (Op.isAlloc_of_keepsStorage hop)]
  | again _ _ ih => rwa [List.filterMap_cons_none rfl]
  | @first known last src x code _ h ih =>
    have halloc : (Op.alloc x).allocated? = some x := rfl
    rw [List.filterMap_cons_some halloc, List.filterMap_cons_none rfl, List.nodup_cons]
    refine ⟨fun hx => ?_, ih⟩
    obtain ⟨op, hop, hallocated⟩ := List.mem_filterMap.mp hx
    obtain rfl := Op.allocated?_eq_some.mp hallocated
    exact h.not_known_of_alloc hop List.mem_cons_self

/-- Storage is made in the order of the first stores. -/
theorem allocated_eq (h : Supplied known code last) :
    code.filterMap Op.allocated? =
      ((code.filterMap Op.stored?).filter fun x => !decide (x ∈ known)).eraseDups := by
  induction h with
  | nil => rfl
  | other hop _ ih =>
    rwa [List.filterMap_cons_none (Op.isAlloc_of_keepsStorage hop),
      List.filterMap_cons_none (Op.stored?_of_keepsStorage hop)]
  | @again known last src x code hx _ ih =>
    have hstored : (Op.store src x).stored? = some x := rfl
    rwa [List.filterMap_cons_none rfl, List.filterMap_cons_some hstored,
      List.filter_cons_of_neg (by simpa using hx)]
  | @first known last src x code hx _ ih =>
    have halloc : (Op.alloc x).allocated? = some x := rfl
    have hstored : (Op.store src x).stored? = some x := rfl
    have hother : ∀ y, (!decide (y ∈ x :: known)) = (!y == x && !decide (y ∈ known)) := by
      intro y
      by_cases hyx : y = x <;> simp [hyx]
    rw [List.filterMap_cons_some halloc, List.filterMap_cons_none rfl,
      List.filterMap_cons_none rfl, List.filterMap_cons_some hstored,
      List.filter_cons_of_pos (by simpa using hx), List.eraseDups_cons, List.filter_filter, ih]
    simp only [hother]

end Supplied

/-- Lowering in place supplies its stores, behind those that were supplied before. -/
theorem supplied_rule : StorageRule fun ctx _ lowered =>
    ctx.held = none → lowered.2.held = none ∧ Supplied ctx.allocated lowered.1 lowered.2.allocated
    where
  keeps hallocated hheld hcode hctx := ⟨hheld.trans hctx, hallocated ▸ .of_keepsStorage hcode⟩
  store ctx src name hctx := by
    unfold Context.allocate
    split
    · rename_i hname
      exact ⟨hctx, .again hname .nil⟩
    · rename_i hname
      rw [hctx]
      exact ⟨rfl, .first hname .nil⟩
  append h h' hctx := ⟨(h' (h hctx).1).1, (h hctx).2.append (h' (h hctx).1).2⟩

namespace Request

variable {ctx : Context}

theorem supplied_serve (h : ctx.held = none) (r : Request) :
    (r.serve ctx).2.held = none ∧
      Supplied ctx.allocated (r.serve ctx).1 (r.serve ctx).2.allocated := by
  cases r with
  | lower s | generate s => exact supplied_rule.statement ctx s h
  | render code => exact ⟨h, .nil⟩
  | takeHeld =>
    have hnothing : ctx.takeHeld = ([], ctx) := by rw [Context.takeHeld, h]
    rw [serve, hnothing]
    exact ⟨h, .nil⟩

theorem supplied_serveAll (h : ctx.held = none) (rs : List Request) :
    Supplied ctx.allocated (serveAll ctx rs).1 (serveAll ctx rs).2.allocated := by
  induction rs generalizing ctx with
  | nil => exact .nil
  | cons r rs ih =>
    obtain ⟨hheld, hsupplied⟩ := r.supplied_serve h
    exact hsupplied.append (ih hheld)

end Request

/-- Of all the code that a context gives out which allocates in place, whatever it is asked for:
storage for a variable is made right in front of the first store to it and nowhere else. So it is
made for the variables that are stored to, each once, in the order of their first stores, and for
no variable that is only loaded from. -/
theorem storage_is_made_at_first_store (rs : List Request) :
    let code := (Request.serveAll .inPlace rs).1
    (∀ i name, code[i]? = some (.alloc name) ↔ FirstStore code name (i + 1)) ∧
    code.filterMap Op.allocated? = (code.filterMap Op.stored?).eraseDups ∧
    (code.filterMap Op.allocated?).Nodup ∧
    ∀ name, .alloc name ∈ code ↔ ∃ src, .store src name ∈ code := by
  have hheld : Context.inPlace.held = none := rfl
  have hnew : Context.inPlace.allocated = [] := rfl
  have h := Request.supplied_serveAll hheld rs
  have hnames := h.allocated_eq
  simp only [hnew, List.not_mem_nil, decide_false, Bool.not_false, List.filter_true] at hnames
  refine ⟨fun i name => ?_, hnames, h.nodup_allocated, fun name => ?_⟩
  · rw [h.alloc_iff]
    exact and_iff_right List.not_mem_nil
  · have hmem := congrArg (name ∈ ·) hnames
    simpa [Op.allocated?_eq_some, Op.stored?_eq_some] using hmem

end FortressLang
