import FortressLang.Lowering
import FortressLang.Proofs.FlowProgress

/-! The code of an expression computes its value, wherever it stands and whatever the temporaries
held before. The code of a condition decides it. -/
namespace FortressLang

/-- Between the two states, straight code has run that keeps the store and writes no temporary
below a bound. -/
structure Computed (s t : FlowState) (length bound : Nat) : Prop where
  pc : t.pc = s.pc + length
  store : t.store = s.store
  temps : ∀ i < bound, t.temps i = s.temps i

namespace Computed

variable {s t u : FlowState} {m n bound bound' : Nat}

theorem trans (h : Computed s t m bound) (h' : Computed t u n bound') (hb : bound ≤ bound') :
    Computed s u (m + n) bound where
  pc := by rw [h'.pc, h.pc, Nat.add_assoc]
  store := h'.store.trans h.store
  temps i hi := (h'.temps i (by omega)).trans (h.temps i hi)

theorem write (s : FlowState) {dest : Nat} (v : Int32) (h : bound ≤ dest) :
    Computed s (s.write dest v) 1 bound where
  pc := rfl
  store := rfl
  temps i hi := Function.update_of_ne (by omega) _ _

end Computed

namespace Expr

theorem first_lt_lower (first : Nat) (e : Expr) : first < (e.lower first).2 := by
  induction e generalizing first with
  | operand o =>
    obtain ⟨v, negated⟩ := o
    cases v <;> cases negated <;> simp [lower]
  | binary op lhs rhs ihl ihr =>
    have hl := ihl first
    have hr := ihr (lhs.lower first).2
    simp only [lower]
    omega

/-- Wherever the code of the expression stands, running it leaves the value, if there is one, in the
last temporary. -/
def Leaves (code : List Op) (e : Expr) : Prop :=
  ∀ {first : Nat} {s : FlowState} {v : Int32}, Located code (e.lower first).1 s.pc →
    e.value? .words s.store.memory = some v →
    ∃ t, Flow code s (e.lower first).1.length t ∧
      Computed s t (e.lower first).1.length first ∧ t.temps ((e.lower first).2 - 1) = some v

theorem Leaves.pair {code : List Op} {lhs rhs : Expr} (hlhs : lhs.Leaves code)
    (hrhs : rhs.Leaves code) {first : Nat} {s : FlowState} {a b : Int32}
    (h : Located code ((lhs.lower first).1 ++ (rhs.lower (lhs.lower first).2).1) s.pc)
    (ha : lhs.value? .words s.store.memory = some a)
    (hb : rhs.value? .words s.store.memory = some b) :
    ∃ u, Flow code s ((lhs.lower first).1 ++ (rhs.lower (lhs.lower first).2).1).length u ∧
      Computed s u ((lhs.lower first).1 ++ (rhs.lower (lhs.lower first).2).1).length first ∧
      u.temps ((lhs.lower first).2 - 1) = some a ∧
      u.temps ((rhs.lower (lhs.lower first).2).2 - 1) = some b := by
  have hmid := first_lt_lower first lhs
  obtain ⟨t, hst, hleft, hta⟩ := hlhs h.left ha
  have hright := h.right
  rw [← hleft.pc] at hright
  rw [← hleft.store] at hb
  obtain ⟨u, htu, hcomputed, hub⟩ := hrhs hright hb
  rw [List.length_append]
  refine ⟨u, hst.trans htu, hleft.trans hcomputed (Nat.le_of_lt hmid), ?_, hub⟩
  rw [hcomputed.temps _ (by omega), hta]

theorem leaves_lower (code : List Op) (e : Expr) : e.Leaves code := by
  intro first s v h hv
  induction e generalizing first s v with
  | operand o =>
    obtain ⟨value, negated⟩ := o
    simp only [value?, Option.some.injEq] at hv
    subst hv
    match value, negated with
    | .constant n, negated =>
      have hstep : s.step code =
          .next (s.write first (Operand.worth .words s.store.memory ⟨.constant n, negated⟩)) := by
        rw [FlowState.step_of_getElem? h.getElem?]
        cases negated <;> simp [FlowState.exec, Operand.worth, Arithmetic.signed, Arithmetic.words]
      exact ⟨_, .one hstep, .write s _ (Nat.le_refl _), Function.update_self ..⟩
    | .variable name, false =>
      have hload : s.step code = .next (s.write first (s.store.memory name)) :=
        FlowState.step_of_getElem? h.getElem?
      exact ⟨_, .one hload, .write s _ (Nat.le_refl _), Function.update_self ..⟩
    | .variable name, true =>
      let loaded := s.write first (s.store.memory name)
      have hload : s.step code = .next loaded := FlowState.step_of_getElem? h.getElem?
      have hinvert : loaded.step code =
          .next (loaded.write (first + 1) (-s.store.memory name)) := by
        rw [FlowState.step_of_getElem? h.tail.getElem?]
        simp [FlowState.exec, FlowState.write, loaded]
      exact ⟨_, .succ hload (.one hinvert),
        .trans (.write s _ (Nat.le_refl _)) (.write _ _ (Nat.le_succ _)) (Nat.le_refl _),
        Function.update_self ..⟩
  | binary op lhs rhs ihl ihr =>
    simp only [value?, Option.bind_eq_bind, Option.bind_eq_some_iff] at hv
    obtain ⟨a, ha, b, hb, hab⟩ := hv
    simp only [lower] at h ⊢
    have hmid := first_lt_lower first lhs
    have hlast := first_lt_lower (lhs.lower first).2 rhs
    obtain ⟨u, hsu, hcomputed, hua, hub⟩ := Leaves.pair ihl ihr h.left ha hb
    have hop := h.right.getElem?
    rw [← hcomputed.pc] at hop
    have hstep : u.step code = .next (u.write (rhs.lower (lhs.lower first).2).2 v) := by
      rw [FlowState.step_of_getElem? hop]
      simp only [FlowState.exec, hua, hub, hab]
    refine ⟨u.write (rhs.lower (lhs.lower first).2).2 v, ?_, ?_, Function.update_self ..⟩
    · simpa [Nat.add_assoc] using hsu.trans (.one hstep)
    · simpa [Nat.add_assoc] using hcomputed.trans (.write u v (by omega)) (Nat.le_refl _)

/-- The code of an expression without a value stops at the missing quotient. -/
theorem ends_lower {code : List Op} {e : Expr} {first : Nat} {s : FlowState}
    (h : Located code (e.lower first).1 s.pc) (hv : e.value? .words s.store.memory = none) :
    s.Ends code (.stopped .noQuotient s.store) := by
  induction e generalizing first s with
  | operand o => cases hv
  | binary op lhs rhs ihl ihr =>
    simp only [lower] at h
    cases ha : lhs.value? .words s.store.memory with
    | none => exact ihl h.left.left ha
    | some a =>
      cases hb : rhs.value? .words s.store.memory with
      | none =>
        obtain ⟨t, hst, hcomputed, -⟩ := leaves_lower code lhs h.left.left ha
        have hright := h.left.right
        rw [← hcomputed.pc] at hright
        rw [← hcomputed.store] at hb ⊢
        exact .of_flow hst (ihr hright hb)
      | some b =>
        obtain ⟨u, hsu, hcomputed, hua, hub⟩ :=
          Leaves.pair (leaves_lower code lhs) (leaves_lower code rhs) h.left ha hb
        have hop := h.right.getElem?
        rw [← hcomputed.pc] at hop
        have hab : Arithmetic.words.operate? op a b = none := by
          simpa [value?, ha, hb] using hv
        refine .of_flow hsu ⟨0, u, .refl u, ?_⟩
        rw [FlowState.step_of_getElem? hop]
        simp only [FlowState.exec, hua, hub, hab, hcomputed.store]

end Expr

namespace Condition

theorem flow_lower {code : List Op} {c : Condition} {block first : Nat} {s : FlowState} {b : Bool}
    (h : Located code (c.lower block first).1 s.pc) (hb : c.holds? s.store.memory = some b) :
    ∃ t, Flow code s (c.lower block first).1.length t ∧
      t.pc = s.pc + (c.lower block first).1.length ∧ t.store = s.store ∧
      t.conditions block = some b := by
  simp only [holds?, Option.bind_eq_bind, Option.bind_eq_some_iff, Option.pure_def,
    Option.some.injEq] at hb
  obtain ⟨l, hl, r, hr, rfl⟩ := hb
  simp only [lower] at h ⊢
  obtain ⟨u, hsu, hcomputed, hul, hur⟩ :=
    Expr.Leaves.pair (c.lhs.leaves_lower code) (c.rhs.leaves_lower code) h.left hl hr
  have hop := h.right.getElem?
  rw [← hcomputed.pc] at hop
  have hstep : u.step code = .next (u.judge block (c.comparison.holds l r)) := by
    rw [FlowState.step_of_getElem? hop]
    simp only [FlowState.exec, hul, hur]
  refine ⟨u.judge block (c.comparison.holds l r), ?_, ?_, hcomputed.store, Function.update_self ..⟩
  · simpa [Nat.add_assoc] using hsu.trans (.one hstep)
  · have hpc := hcomputed.pc
    simp only [FlowState.judge, hpc, List.length_append, List.length_singleton, Nat.add_assoc]

theorem ends_lower {code : List Op} {c : Condition} {block first : Nat} {s : FlowState}
    (h : Located code (c.lower block first).1 s.pc) (hb : c.holds? s.store.memory = none) :
    s.Ends code (.stopped .noQuotient s.store) := by
  simp only [lower] at h
  cases hl : c.lhs.value? .words s.store.memory with
  | none => exact Expr.ends_lower h.left.left hl
  | some l =>
    obtain ⟨t, hst, hcomputed, -⟩ := c.lhs.leaves_lower code h.left.left hl
    have hright := h.left.right
    rw [← hcomputed.pc] at hright
    have hr : c.rhs.value? .words t.store.memory = none := by
      rw [hcomputed.store]
      cases hr : c.rhs.value? .words s.store.memory with
      | none => rfl
      | some r => simp [holds?, hl, hr] at hb
    rw [← hcomputed.store]
    exact .of_flow hst (Expr.ends_lower hright hr)

end Condition
end FortressLang
