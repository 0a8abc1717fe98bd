import FortressLang.Proofs.SimplifiedMeaning

/-! The expression with the other sign. It is worth the negative wherever quotients carry a sign, as
they do over the integers, and it differs on the way to the leftmost operand only. -/
namespace FortressLang

inductive Side | left | right
  deriving DecidableEq

theorem Operator.opposite_of_isMultiplicative {op : Operator} (h : op.isMultiplicative) :
    op.opposite = op := by
  cases op with
  | add | sub => cases h
  | mul | div => rfl

theorem Arithmetic.operate?_opposite {α : Type} {A : Arithmetic α} {a b : α} (h : A.Carries a b)
    (op : Operator) : A.operate? op.opposite (A.neg a) b = (A.operate? op a b).map A.neg := by
  cases op with
  | add => exact congrArg some (A.neg_add a b).symm
  | sub => exact congrArg some (A.neg_sub a b).symm
  | mul => exact congrArg some (A.neg_mul a b).symm
  | div => exact h

namespace Expr

/-- Where every quotient carries a sign, the other sign of an expression is that of its value. -/
theorem value?_negated {α : Type} {A : Arithmetic α} (hA : ∀ a b, A.Carries a b) (ρ : String → α)
    (e : Expr) : e.negated.value? A ρ = (e.value? A ρ).map A.neg := by
  induction e with
  | operand o =>
    obtain ⟨v, negated⟩ := o
    cases negated <;>
      simp [Expr.negated, Operand.flip, value?, Operand.worth, Arithmetic.signed, A.neg_neg]
  | binary op lhs rhs ih _ =>
    rw [negated, value?, value?, ih]
    cases lhs.value? A ρ with
    | none => rfl
    | some a =>
      cases rhs.value? A ρ with
      | none => rfl
      | some b => exact A.operate?_opposite (hA a b) op

/-- What stands at the end of a way down from the root of an expression, if the way is in it. -/
def part? : Expr → List Side → Option Expr
  | e, [] => some e
  | operand _, _ :: _ => none
  | binary _ lhs _, .left :: way => lhs.part? way
  | binary _ _ rhs, .right :: way => rhs.part? way

@[simp] theorem part?_nil (e : Expr) : e.part? [] = some e := by cases e <;> rfl

@[simp] theorem part?_operand_cons (o : Operand) (side : Side) (way : List Side) :
    (operand o).part? (side :: way) = none := rfl

@[simp] theorem part?_left (op : Operator) (lhs rhs : Expr) (way : List Side) :
    (binary op lhs rhs).part? (.left :: way) = lhs.part? way := rfl

@[simp] theorem part?_right (op : Operator) (lhs rhs : Expr) (way : List Side) :
    (binary op lhs rhs).part? (.right :: way) = rhs.part? way := rfl

/-- A change of sign reaches what lies on the way to the leftmost operand, and nothing else. -/
theorem part?_negated (e : Expr) (way : List Side) :
    e.negated.part? way = if .right ∈ way then e.part? way else (e.part? way).map negated := by
  induction way generalizing e with
  | nil => simp
  | cons side way ih =>
    cases e with
    | operand o => simp [negated]
    | binary op lhs rhs =>
      cases side with
      | left => simp [negated, ih]
      | right => simp [negated]

section

variable {e : Expr} {way : List Side}

theorem part?_negated_of_right_mem (h : .right ∈ way) : e.negated.part? way = e.part? way := by
  rw [part?_negated, if_pos h]

theorem part?_negated_eq_none_iff : e.negated.part? way = none ↔ e.part? way = none := by
  rw [part?_negated]
  split
  · rfl
  · exact Option.map_eq_none_iff

theorem part?_negated_operand {o : Operand} (h : e.part? way = some (.operand o)) :
    ∃ sign, e.negated.part? way = some (.operand ⟨o.value, sign⟩) := by
  rw [part?_negated, h]
  split
  · exact ⟨o.negated, rfl⟩
  · exact ⟨!o.negated, rfl⟩

theorem part?_negated_binary {op : Operator} {lhs rhs : Expr}
    (h : e.part? way = some (.binary op lhs rhs)) :
    ∃ op' lhs', e.negated.part? way = some (.binary op' lhs' rhs) ∧
      (op.isMultiplicative → op' = op) := by
  rw [part?_negated, h]
  split
  · exact ⟨op, lhs, rfl, fun _ => rfl⟩
  · exact ⟨op.opposite, lhs.negated, rfl, Operator.opposite_of_isMultiplicative⟩

end

/-- The second expression is the first with other signs on the way to the leftmost operand. They
have the same ways, and at their ends the same values and the same multiplicative operators; off the
way to the leftmost operand they are the same altogether. -/
structure SameUpToSigns (e f : Expr) : Prop where
  shape : ∀ way, f.part? way = none ↔ e.part? way = none
  operand : ∀ way o, e.part? way = some (.operand o) →
    ∃ sign, f.part? way = some (.operand ⟨o.value, sign⟩)
  operator : ∀ way op lhs rhs, e.part? way = some (.binary op lhs rhs) →
    ∃ op' lhs', f.part? way = some (.binary op' lhs' rhs) ∧ (op.isMultiplicative → op' = op)
  aside : ∀ way, .right ∈ way → f.part? way = e.part? way

theorem sameUpToSigns_negated (e : Expr) : e.SameUpToSigns e.negated where
  shape _ := part?_negated_eq_none_iff
  operand _ _ := part?_negated_operand
  operator _ _ _ _ := part?_negated_binary
  aside _ := part?_negated_of_right_mem

/-- At the end of the way stands a quotient by zero. -/
def DividesByZeroAt (ρ : String → Int) (e : Expr) (way : List Side) : Prop :=
  ∃ lhs rhs, e.part? way = some (.binary .div lhs rhs) ∧ rhs.value? .integers ρ = some 0

section

variable {ρ : String → Int} {e : Expr} {way : List Side}

theorem not_dividesByZeroAt_operand (o : Operand) (way : List Side) :
    ¬ (operand o).DividesByZeroAt ρ way := by
  rintro ⟨lhs, rhs, hpart, -⟩
  cases way <;> simp at hpart

theorem exists_dividesByZeroAt_binary {op : Operator} {lhs rhs : Expr} :
    (∃ way, (binary op lhs rhs).DividesByZeroAt ρ way) ↔
      (op = .div ∧ rhs.value? .integers ρ = some 0) ∨ (∃ way, lhs.DividesByZeroAt ρ way) ∨
        ∃ way, rhs.DividesByZeroAt ρ way := by
  constructor
  · rintro ⟨_ | ⟨side, way⟩, a, b, hpart, hb⟩
    · obtain ⟨rfl, rfl, rfl⟩ : op = .div ∧ lhs = a ∧ rhs = b := by simpa using hpart
      exact .inl ⟨rfl, hb⟩
    · cases side with
      | left => exact .inr (.inl ⟨way, a, b, hpart, hb⟩)
      | right => exact .inr (.inr ⟨way, a, b, hpart, hb⟩)
  · rintro (⟨rfl, hb⟩ | ⟨way, a, b, hpart, hb⟩ | ⟨way, a, b, hpart, hb⟩)
    · exact ⟨[], lhs, rhs, rfl, hb⟩
    · exact ⟨.left :: way, a, b, hpart, hb⟩
    · exact ⟨.right :: way, a, b, hpart, hb⟩

theorem value?_eq_none_iff : e.value? .integers ρ = none ↔ ∃ way, e.DividesByZeroAt ρ way := by
  induction e with
  | operand o => simp [value?, not_dividesByZeroAt_operand]
  | binary op lhs rhs ihl ihr =>
    rw [exists_dividesByZeroAt_binary, ← ihl, ← ihr, value?]
    cases lhs.value? .integers ρ with
    | none => simp
    | some a =>
      cases rhs.value? .integers ρ with
      | none => simp
      | some b => cases op <;> simp [Arithmetic.operate?, Arithmetic.integers]

theorem DividesByZeroAt.negated (h : e.DividesByZeroAt ρ way) :
    e.negated.DividesByZeroAt ρ way := by
  obtain ⟨lhs, rhs, hpart, hzero⟩ := h
  obtain ⟨op, lhs', hpart', hop⟩ := part?_negated_binary hpart
  obtain rfl := hop rfl
  exact ⟨lhs', rhs, hpart', hzero⟩

/-- The other sign back again makes this an equivalence. -/
theorem dividesByZeroAt_negated : e.negated.DividesByZeroAt ρ way ↔ e.DividesByZeroAt ρ way :=
  ⟨fun h => e.negated_negated ▸ h.negated, DividesByZeroAt.negated⟩

end

end Expr

/-- For every expression and all integers for its variables: the expression with the other sign is
worth the negative, it divides by zero at the same places, and where there is such a place neither
has a value. With the sign changed twice it is the expression itself. It differs in signs on the way
to the leftmost operand only. -/
theorem negated_flips_sign (e : Expr) :
    (∀ ρ : String → Int,
      e.negated.value? .integers ρ = (e.value? .integers ρ).map (-·) ∧
        (e.value? .integers ρ = none ↔ ∃ way, e.DividesByZeroAt ρ way) ∧
        ∀ way, e.negated.DividesByZeroAt ρ way ↔ e.DividesByZeroAt ρ way) ∧
    e.negated.negated = e ∧ e.SameUpToSigns e.negated := by
  refine ⟨fun ρ => ⟨?_, Expr.value?_eq_none_iff, fun _ => Expr.dividesByZeroAt_negated⟩,
    e.negated_negated, e.sameUpToSigns_negated⟩
  exact e.value?_negated Arithmetic.integers_carries ρ

end FortressLang
