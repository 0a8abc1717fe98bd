import FortressLang.Proofs.SimplifiedSum

/-! What a sum is worth once the signs in it are moved to leftmost operands. That is the value of
its expression, in every arithmetic. It is the value of the sum as it was written if every sign that
is moved over a quotient turns the quotient into its negative. -/
namespace FortressLang

namespace Arithmetic

variable {α : Type}

/-- The quotient of the negative is the negative of the quotient. -/
def Carries (A : Arithmetic α) (a b : α) : Prop := A.div? (A.neg a) b = (A.div? a b).map A.neg

def combine (A : Arithmetic α) (minus : Bool) (a b : α) : α :=
  if minus then A.sub a b else A.add a b

theorem operate?_additive (A : Arithmetic α) (minus : Bool) (a b : α) :
    A.operate? (if minus then .sub else .add) a b = some (A.combine minus a b) := by
  cases minus <;> rfl

theorem neg_sub (A : Arithmetic α) (a b : α) : A.neg (A.sub a b) = A.add (A.neg a) b := by
  rw [A.sub_eq, A.neg_add, A.sub_eq, A.neg_neg]

theorem combine_combine (A : Arithmetic α) (minus negative : Bool) (a b c : α) :
    A.combine negative a (A.combine minus b c) =
      A.combine (minus ^^ negative) (A.combine negative a b) c := by
  have hadd : A.sub (A.add a b) c = A.add a (A.sub b c) := by
    rw [A.sub_eq, A.sub_eq, A.add_assoc]
  have hsub : A.sub (A.sub a b) c = A.sub a (A.add b c) := by
    rw [A.sub_eq a (A.add b c), A.neg_add, A.sub_eq (A.sub a b), A.sub_eq a, A.sub_eq (A.neg b),
      A.add_assoc]
  have hback : A.add (A.sub a b) c = A.sub a (A.sub b c) := by
    rw [A.sub_eq a (A.sub b c), A.neg_sub, A.sub_eq, A.add_assoc]
  cases minus <;> cases negative <;> simp [combine, A.add_assoc, hadd, hsub, hback]

end Arithmetic

namespace Source

variable {α : Type} (A : Arithmetic α) (ρ : String → α)

section Moved

mutual

/-- The value of a sum, or of its negative, with every sign moved to a leftmost operand. -/
def Sum.moved? (negative : Bool) : Sum → Option α
  | .of first rest => do rest.moved? negative (← first.moved? negative)

def SumRest.moved? (negative : Bool) (left : α) : SumRest → Option α
  | .stop => some left
  | .step minus next rest => do
    let right ← next.moved? (takesMinus minus next rest)
    let op := additive ((minus && !takesMinus minus next rest) ^^ negative)
    rest.moved? negative (← A.operate? op left right)

def Product.moved? (negative : Bool) : Product → Option α
  | .of first rest => do rest.moved? (← first.moved? negative)

/-- The sign of a product is with its first factor. -/
def ProductRest.moved? (left : α) : ProductRest → Option α
  | .stop => some left
  | .step slash next rest => do
    rest.moved? (← A.operate? (multiplicative slash) left (← next.moved? false))

def Atom.moved? (negative : Bool) : Atom → Option α
  | .named x => some (A.signed negative (ρ x))
  | .number n => some (A.signed negative (A.constant n))
  | .minus inner => inner.moved? (!negative)
  | .group inner => inner.moved? negative

end

end Moved

theorem signed_additive (minus negative : Bool) (lhs rhs : Expr) :
    (Expr.binary (additive minus) lhs rhs).signed negative =
      .binary (additive (minus ^^ negative)) (lhs.signed negative) rhs := by
  cases minus <;> cases negative <;> rfl

theorem signed_multiplicative (slash negative : Bool) (lhs rhs : Expr) :
    (Expr.binary (multiplicative slash) lhs rhs).signed negative =
      .binary (multiplicative slash) (lhs.signed negative) rhs := by
  cases slash <;> cases negative <;> rfl

theorem SumRest.combine_moved? (negative : Bool) (left right : α) (rest : SumRest) :
    (rest.moved? A ρ false right).map (A.combine negative left) =
      rest.moved? A ρ negative (A.combine negative left right) := by
  cases rest with
  | stop => rfl
  | step minus next rest =>
    simp only [SumRest.moved?, additive, A.operate?_additive, Option.bind_eq_bind, Option.bind_some,
      Option.map_bind, Bool.xor_false]
    congr 1
    funext term
    rw [Function.comp_apply, rest.combine_moved?, A.combine_combine]

mutual

theorem Sum.value?_expr (s : Sum) (negative : Bool) :
    (s.expr.signed negative).value? A ρ = s.moved? A ρ negative := by
  cases s with
  | of first rest =>
    change ((rest.expr first.expr).signed negative).value? A ρ = _
    rw [rest.value?_expr, first.value?_expr]
    rfl

theorem SumRest.value?_expr (rest : SumRest) (first : Expr) (negative : Bool) :
    ((rest.expr first).signed negative).value? A ρ =
      (do rest.moved? A ρ negative (← (first.signed negative).value? A ρ)) := by
  cases rest with
  | stop =>
    change (first.signed negative).value? A ρ = _
    cases (first.signed negative).value? A ρ <;> rfl
  | step minus next rest =>
    have hterm : (next.expr.signed (takesMinus minus next rest)).value? A ρ =
        next.moved? A ρ (takesMinus minus next rest) := next.value?_expr _
    have hrest := rest.value?_expr (next.expr.signed (takesMinus minus next rest)) false
    rw [Expr.signed_false, Expr.signed_false, hterm] at hrest
    rw [SumRest.expr.eq_2, signed_additive, Expr.value?, hrest]
    simp only [SumRest.moved?, additive, A.operate?_additive, Option.bind_eq_bind,
      Option.bind_assoc]
    congr 1
    funext left
    congr 1
    funext term
    cases rest with
    | stop => rfl
    | step minus' q rest =>
      rw [takesMinus_step, Bool.and_not_self, Bool.false_xor, Option.bind_some,
        ← SumRest.combine_moved?, Option.map_eq_bind]
      rfl

theorem Product.value?_expr (p : Product) (negative : Bool) :
    (p.expr.signed negative).value? A ρ = p.moved? A ρ negative := by
  cases p with
  | of first rest =>
    change ((rest.expr first.expr).signed negative).value? A ρ = _
    rw [rest.value?_expr, first.value?_expr]
    rfl

theorem ProductRest.value?_expr (rest : ProductRest) (first : Expr) (negative : Bool) :
    ((rest.expr first).signed negative).value? A ρ =
      (do rest.moved? A ρ (← (first.signed negative).value? A ρ)) := by
  cases rest with
  | stop =>
    change (first.signed negative).value? A ρ = _
    cases (first.signed negative).value? A ρ <;> rfl
  | step slash next rest =>
    change ((rest.expr (.binary (multiplicative slash) first next.expr)).signed negative).value? A ρ
      = _
    have hnext : next.expr.value? A ρ = next.moved? A ρ false := next.value?_expr false
    rw [rest.value?_expr, signed_multiplicative, Expr.value?, hnext]
    simp only [ProductRest.moved?, bind_assoc]

theorem Atom.value?_expr (a : Atom) (negative : Bool) :
    (a.expr.signed negative).value? A ρ = a.moved? A ρ negative := by
  cases a with
  | named x => cases negative <;> rfl
  | number n => cases negative <;> rfl
  | minus inner =>
    change (inner.expr.negated.signed negative).value? A ρ = _
    rw [Expr.signed_negated, inner.value?_expr]
    rfl
  | group inner => exact inner.value?_expr negative

end

section Faithful

mutual

/-- Every sign that is moved in a sum, or in its negative, is carried over the quotients that it
passes. -/
def Sum.Faithful (negative : Bool) : Sum → Prop
  | .of first rest => first.Faithful negative ∧ rest.Faithful

def SumRest.Faithful : SumRest → Prop
  | .stop => True
  | .step minus next rest => next.Faithful (takesMinus minus next rest) ∧ rest.Faithful

def Product.Faithful (negative : Bool) : Product → Prop
  | .of first rest => first.Faithful negative ∧
      ∀ left, first.value? A ρ = some left → rest.Faithful negative left

/-- A sign passes the quotients that its factor is divided by, from the left. -/
def ProductRest.Faithful (negative : Bool) (left : α) : ProductRest → Prop
  | .stop => True
  | .step slash next rest => next.Faithful false ∧ ∀ right, next.value? A ρ = some right →
      (slash = true → negative = true → A.Carries left right) ∧
        ∀ result, A.operate? (multiplicative slash) left right = some result →
          rest.Faithful negative result

def Atom.Faithful (negative : Bool) : Atom → Prop
  | .named _ => True
  | .number _ => True
  | .minus inner => inner.Faithful (!negative)
  | .group inner => inner.Faithful negative

end

end Faithful

variable {A}

theorem combine_signed (A : Arithmetic α) (minus taken negative : Bool) (h : taken → minus)
    (a b : α) :
    A.combine ((minus && !taken) ^^ negative) (A.signed negative a) (A.signed taken b) =
      A.signed negative (A.combine minus a b) := by
  cases minus <;> cases taken <;> cases negative <;>
    simp_all [Arithmetic.combine, Arithmetic.signed, A.sub_eq, A.neg_add, A.neg_neg]

theorem takesMinus_le (minus : Bool) (next : Product) (rest : SumRest)
    (h : takesMinus minus next rest) : minus := by
  rw [takesMinus, Bool.and_eq_true] at h
  exact h.1

theorem operate?_signed (negative slash : Bool) {a b : α}
    (h : slash = true → negative = true → A.Carries a b) :
    A.operate? (multiplicative slash) (A.signed negative a) b =
      (A.operate? (multiplicative slash) a b).map (A.signed negative) := by
  cases negative with
  | false =>
    have hid : A.signed false = id := rfl
    rw [hid, Option.map_id]
    rfl
  | true =>
    cases slash with
    | false => exact congrArg some (A.neg_mul a b).symm
    | true => exact h rfl rfl

mutual

theorem Sum.moved?_eq (s : Sum) {negative : Bool} (h : s.Faithful A ρ negative) :
    s.moved? A ρ negative = (s.value? A ρ).map (A.signed negative) := by
  cases s with
  | of first rest =>
    obtain ⟨hfirst, hrest⟩ := h
    rw [Sum.moved?, Sum.value?, first.moved?_eq hfirst]
    cases first.value? A ρ with
    | none => rfl
    | some left => exact rest.moved?_eq hrest negative left

theorem SumRest.moved?_eq (rest : SumRest) (h : rest.Faithful A ρ) (negative : Bool) (left : α) :
    rest.moved? A ρ negative (A.signed negative left) =
      (rest.value? A ρ left).map (A.signed negative) := by
  cases rest with
  | stop => rfl
  | step minus next rest =>
    obtain ⟨hnext, hrest⟩ := h
    simp only [SumRest.moved?, SumRest.value?, additive, A.operate?_additive, Option.bind_eq_bind,
      Option.bind_some, next.moved?_eq hnext]
    cases next.value? A ρ with
    | none => rfl
    | some right =>
      simp only [Option.map_some, Option.bind_some]
      rw [combine_signed A _ _ _ (takesMinus_le minus next rest)]
      exact rest.moved?_eq hrest negative _

theorem Product.moved?_eq (p : Product) {negative : Bool} (h : p.Faithful A ρ negative) :
    p.moved? A ρ negative = (p.value? A ρ).map (A.signed negative) := by
  cases p with
  | of first rest =>
    obtain ⟨hfirst, hrest⟩ := h
    rw [Product.moved?, Product.value?, first.moved?_eq hfirst]
    cases hleft : first.value? A ρ with
    | none => rfl
    | some left => exact rest.moved?_eq (hrest left hleft)

theorem ProductRest.moved?_eq (rest : ProductRest) {negative : Bool} {left : α}
    (h : rest.Faithful A ρ negative left) :
    rest.moved? A ρ (A.signed negative left) =
      (rest.value? A ρ left).map (A.signed negative) := by
  cases rest with
  | stop => rfl
  | step slash next rest =>
    obtain ⟨hnext, hsteps⟩ := h
    have hterm : next.moved? A ρ false = next.value? A ρ := by
      rw [next.moved?_eq hnext]
      exact congrFun Option.map_id _
    rw [ProductRest.moved?, ProductRest.value?, hterm]
    cases hright : next.value? A ρ with
    | none => rfl
    | some right =>
      obtain ⟨hcarries, hrest⟩ := hsteps right hright
      simp only [Option.bind_eq_bind, Option.bind_some]
      rw [operate?_signed negative slash hcarries]
      cases hresult : A.operate? (multiplicative slash) left right with
      | none => rfl
      | some result => exact rest.moved?_eq (hrest result hresult)

theorem Atom.moved?_eq (a : Atom) {negative : Bool} (h : a.Faithful A ρ negative) :
    a.moved? A ρ negative = (a.value? A ρ).map (A.signed negative) := by
  cases a with
  | named x => rfl
  | number n => rfl
  | minus inner =>
    rw [Atom.moved?, Atom.value?, inner.moved?_eq h]
    cases inner.value? A ρ with
    | none => rfl
    | some v => exact congrArg some (by cases negative <;> simp [Arithmetic.signed, A.neg_neg])
  | group inner => exact inner.moved?_eq h

end

mutual

/-- Where every quotient carries a sign, so does every sum. -/
theorem Sum.faithful_of_carries (hA : ∀ a b, A.Carries a b) (s : Sum) (negative : Bool) :
    s.Faithful A ρ negative := by
  cases s with
  | of first rest => exact ⟨first.faithful_of_carries hA negative, rest.faithful_of_carries hA⟩

theorem SumRest.faithful_of_carries (hA : ∀ a b, A.Carries a b) (rest : SumRest) :
    rest.Faithful A ρ := by
  cases rest with
  | stop => trivial
  | step minus next rest => exact ⟨next.faithful_of_carries hA _, rest.faithful_of_carries hA⟩

theorem Product.faithful_of_carries (hA : ∀ a b, A.Carries a b) (p : Product) (negative : Bool) :
    p.Faithful A ρ negative := by
  cases p with
  | of first rest =>
    exact ⟨first.faithful_of_carries hA negative,
      fun left _ => rest.faithful_of_carries hA negative left⟩

theorem ProductRest.faithful_of_carries (hA : ∀ a b, A.Carries a b) (rest : ProductRest)
    (negative : Bool) (left : α) : rest.Faithful A ρ negative left := by
  cases rest with
  | stop => trivial
  | step slash next rest =>
    exact ⟨next.faithful_of_carries hA false, fun right _ => ⟨fun _ _ => hA left right,
      fun result _ => rest.faithful_of_carries hA negative result⟩⟩

theorem Atom.faithful_of_carries (hA : ∀ a b, A.Carries a b) (a : Atom) (negative : Bool) :
    a.Faithful A ρ negative := by
  cases a with
  | named x => trivial
  | number n => trivial
  | minus inner => exact inner.faithful_of_carries hA (!negative)
  | group inner => exact inner.faithful_of_carries hA negative

end

end Source
end FortressLang
