import FortressLang.Proofs.SimplifiedSum
import FortressLang.Proofs.SourceProgram
import Mathlib.Tactic.Linarith

/-! The height of an expression against the nesting of the sum that is written for it. A product is
turned to the left, so its first factor comes to stand below all its operators, however deep the
factor is itself. -/
namespace FortressLang

namespace Expr

/-- The operators on the longest way from the root of an expression to an operand. -/
def height : Expr → Nat
  | operand _ => 0
  | binary _ lhs rhs => max lhs.height rhs.height + 1

@[simp] theorem height_negated (e : Expr) : e.negated.height = e.height := by
  induction e with
  | operand o => rfl
  | binary op lhs rhs ih _ => rw [negated, height, height, ih]

@[simp] theorem height_signed (negative : Bool) (e : Expr) :
    (e.signed negative).height = e.height := by
  cases negative <;> simp

end Expr

namespace Source

mutual

def Sum.height : Sum → Nat
  | .of first rest => rest.height first.height

/-- With the height of what comes first: a sum nests to the right. -/
def SumRest.height (first : Nat) : SumRest → Nat
  | .stop => first
  | .step _ next rest => max first (rest.height next.height) + 1

def Product.height : Product → Nat
  | .of first rest => rest.height first.height

/-- With the height of what comes first: a product nests to the left. -/
def ProductRest.height (first : Nat) : ProductRest → Nat
  | .stop => first
  | .step _ next rest => rest.height (max first next.height + 1)

def Atom.height : Atom → Nat
  | .named _ => 0
  | .number _ => 0
  | .minus inner => inner.height
  | .group inner => inner.height

end

mutual

theorem Sum.height_expr : ∀ s : Sum, s.expr.height = s.height
  | .of first rest => by rw [Sum.expr, Sum.height, rest.height_expr, first.height_expr]

theorem SumRest.height_expr :
    ∀ (s : SumRest) (first : Expr), (s.expr first).height = s.height first.height
  | .stop, _ => rfl
  | .step minus next rest, first => by
    rw [SumRest.expr, SumRest.height, Expr.height, rest.height_expr, Expr.height_signed,
      next.height_expr]

theorem Product.height_expr : ∀ p : Product, p.expr.height = p.height
  | .of first rest => by
    rw [Product.expr, Product.height, rest.height_expr, first.height_expr]

theorem ProductRest.height_expr :
    ∀ (p : ProductRest) (first : Expr), (p.expr first).height = p.height first.height
  | .stop, _ => rfl
  | .step slash next rest, first => by
    rw [ProductRest.expr, ProductRest.height, rest.height_expr, Expr.height, next.height_expr]

theorem Atom.height_expr : ∀ a : Atom, a.expr.height = a.height
  | .named x => rfl
  | .number n => rfl
  | .minus inner => by rw [Atom.expr, Atom.height, Expr.height_negated, inner.height_expr]
  | .group inner => by rw [Atom.expr, Atom.height, inner.height_expr]

end

theorem Atom.nesting_pos (a : Atom) : 0 < a.nesting := by
  cases a <;> simp [nesting]

theorem Product.two_le_nesting (p : Product) : 2 ≤ p.nesting := by
  obtain ⟨first, rest⟩ := p
  have hpos := first.nesting_pos
  simp only [nesting]
  omega

theorem atom_bound_mono {h q m : Nat} (hq : 0 < q) (hqm : q ≤ m) (hh : 6 * h + 3 * q ≤ q * q + 2) :
    6 * h + 3 * m ≤ m * m + 2 := by
  obtain ⟨d, rfl⟩ := Nat.exists_eq_add_of_le hqm
  cases d with
  | zero => exact hh
  | succ d => nlinarith

/-! Without a bound on where the operators of a product stand, heights grow with the square of the
nesting: each level can put all its operators on top of its first factor. -/

mutual

theorem Sum.height_le : ∀ s : Sum, 6 * s.height + s.nesting ≤ s.nesting * s.nesting
  | .of first rest => by
    have hfirst := first.height_le
    have hrest := rest.height_le first.height
    simp only [Sum.height, Sum.nesting]
    have hp : first.nesting ≤ max first.nesting rest.nesting := Nat.le_max_left _ _
    have hr : rest.nesting ≤ max first.nesting rest.nesting := Nat.le_max_right _ _
    generalize max first.nesting rest.nesting = m at hp hr ⊢
    rcases hrest with hrest | hrest <;> nlinarith

/-- Of a rest: the first term stands below one operator of it, the others as in a sum. -/
theorem SumRest.height_le : ∀ (s : SumRest) (first : Nat),
    s.height first ≤ first + 1 ∨ 6 * s.height first ≤ s.nesting * (s.nesting + 1)
  | .stop, first => .inl (Nat.le_succ first)
  | .step minus next rest, first => by
    have hnext := next.height_le
    have htwo := next.two_le_nesting
    have hrest := rest.height_le next.height
    simp only [SumRest.height, SumRest.nesting]
    have hp : next.nesting ≤ max next.nesting rest.nesting := Nat.le_max_left _ _
    have hr : rest.nesting ≤ max next.nesting rest.nesting := Nat.le_max_right _ _
    generalize max next.nesting rest.nesting = m at hp hr ⊢
    rcases Nat.le_total (rest.height next.height) first with hle | hle
    · exact .inl (by rw [Nat.max_eq_left hle])
    · refine .inr ?_
      rw [Nat.max_eq_right hle]
      rcases hrest with hrest | hrest <;> nlinarith

theorem Product.height_le : ∀ p : Product,
    6 * p.height + 6 ≤ p.nesting * p.nesting + p.nesting
  | .of first rest => by
    have hpos := first.nesting_pos
    have hrest := rest.height_le first.height
    simp only [Product.height, Product.nesting]
    have hp : first.nesting ≤ max first.nesting rest.nesting := Nat.le_max_left _ _
    have hr : rest.nesting ≤ max first.nesting rest.nesting := Nat.le_max_right _ _
    have hfirst := atom_bound_mono hpos hp first.height_le
    generalize max first.nesting rest.nesting = m at hp hr hfirst ⊢
    rcases hrest with hrest | hrest
    · have hsub : rest.nesting - 1 + 1 ≤ m := by omega
      nlinarith
    · have hsquare : rest.nesting * (rest.nesting + 1) ≤ m * (m + 1) :=
        Nat.mul_le_mul hr (Nat.succ_le_succ hr)
      obtain rfl | hm : m = 1 ∨ 2 ≤ m := by omega
      · omega
      · nlinarith

/-- Of a rest: the first factor stands below all its operators, the others below those from theirs
on. -/
theorem ProductRest.height_le : ∀ (p : ProductRest) (first : Nat),
    p.height first ≤ first + (p.nesting - 1) ∨ 6 * p.height first ≤ p.nesting * (p.nesting + 1)
  | .stop, first => .inl (Nat.le_add_right first _)
  | .step slash next rest, first => by
    have hpos := next.nesting_pos
    have hrest := rest.height_le (max first next.height + 1)
    simp only [ProductRest.height, ProductRest.nesting, Nat.add_sub_cancel]
    have hp : next.nesting ≤ max next.nesting rest.nesting := Nat.le_max_left _ _
    have hr : rest.nesting ≤ max next.nesting rest.nesting := Nat.le_max_right _ _
    have hnext := atom_bound_mono hpos hp next.height_le
    generalize max next.nesting rest.nesting = m at hp hr hnext ⊢
    rcases hrest with hrest | hrest
    · have hsub : rest.nesting - 1 + 1 ≤ m := by omega
      rcases Nat.le_total next.height first with hle | hle
      · rw [Nat.max_eq_left hle] at hrest ⊢
        exact .inl (by omega)
      · rw [Nat.max_eq_right hle] at hrest ⊢
        exact .inr (by nlinarith)
    · exact .inr (by nlinarith)

theorem Atom.height_le : ∀ a : Atom, 6 * a.height + 3 * a.nesting ≤ a.nesting * a.nesting + 2
  | .named x => by simp [Atom.height, Atom.nesting]
  | .number n => by simp [Atom.height, Atom.nesting]
  | .minus inner => by
    have hinner := inner.height_le
    have hpos := inner.nesting_pos
    simp only [Atom.height, Atom.nesting]
    nlinarith
  | .group inner => by
    have hinner := inner.height_le
    simp only [Atom.height, Atom.nesting]
    nlinarith

end

/-! Where every product has its operators in the last factor, heights keep to the nesting. -/

def ProductRest.isStop : ProductRest → Bool
  | .stop => true
  | .step .. => false

mutual

/-- In every product, whatever stands around it, all factors but the last are single operands. -/
def Sum.operatorsLast : Sum → Bool
  | .of first rest => first.operatorsLast && rest.operatorsLast

def SumRest.operatorsLast : SumRest → Bool
  | .stop => true
  | .step _ next rest => next.operatorsLast && rest.operatorsLast

def Product.operatorsLast : Product → Bool
  | .of first rest =>
    first.operatorsLast && rest.operatorsLast && (rest.isStop || first.height = 0)

def ProductRest.operatorsLast : ProductRest → Bool
  | .stop => true
  | .step _ next rest =>
    next.operatorsLast && rest.operatorsLast && (rest.isStop || next.height = 0)

def Atom.operatorsLast : Atom → Bool
  | .named _ => true
  | .number _ => true
  | .minus inner => inner.operatorsLast
  | .group inner => inner.operatorsLast

end

mutual

theorem Sum.height_lt_nesting : ∀ s : Sum, s.operatorsLast = true → s.height + 2 ≤ s.nesting
  | .of first rest, h => by
    rw [Sum.operatorsLast, Bool.and_eq_true] at h
    have hfirst := first.height_lt_nesting h.1
    have hrest := rest.height_lt_nesting h.2 first.height
    simp only [Sum.height, Sum.nesting]
    omega

theorem SumRest.height_lt_nesting : ∀ s : SumRest, s.operatorsLast = true → ∀ first : Nat,
    s.height first ≤ first + 1 ∨ s.height first + 1 ≤ s.nesting
  | .stop, _, first => .inl (Nat.le_succ first)
  | .step minus next rest, h, first => by
    rw [SumRest.operatorsLast, Bool.and_eq_true] at h
    have hnext := next.height_lt_nesting h.1
    have hrest := rest.height_lt_nesting h.2 next.height
    simp only [SumRest.height, SumRest.nesting]
    omega

theorem Product.height_lt_nesting :
    ∀ p : Product, p.operatorsLast = true → p.height + 2 ≤ p.nesting
  | .of first rest, h => by
    simp only [Product.operatorsLast, Bool.and_eq_true, Bool.or_eq_true, decide_eq_true_eq] at h
    obtain ⟨⟨hf, hr⟩, hlast⟩ := h
    have hfirst := first.height_lt_nesting hf
    have hrest := rest.height_lt_nesting hr first.height
    have hpos := first.nesting_pos
    simp only [Product.height, Product.nesting]
    rcases hlast with hstop | hzero
    · cases rest with
      | stop => simp only [ProductRest.height]; omega
      | step => cases hstop
    · omega

theorem ProductRest.height_lt_nesting : ∀ p : ProductRest, p.operatorsLast = true →
    ∀ first : Nat, p.height first ≤ first + (p.nesting - 1)
  | .stop, _, first => Nat.le_add_right first _
  | .step slash next rest, h, first => by
    simp only [ProductRest.operatorsLast, Bool.and_eq_true, Bool.or_eq_true,
      decide_eq_true_eq] at h
    obtain ⟨⟨hn, hr⟩, hlast⟩ := h
    have hnext := next.height_lt_nesting hn
    have hrest := rest.height_lt_nesting hr (max first next.height + 1)
    have hpos := next.nesting_pos
    simp only [ProductRest.height, ProductRest.nesting]
    rcases hlast with hstop | hzero
    · cases rest with
      | stop => simp only [ProductRest.height]; omega
      | step => cases hstop
    · omega

theorem Atom.height_lt_nesting : ∀ a : Atom, a.operatorsLast = true → a.height < a.nesting
  | .named x, _ => by simp [Atom.height, Atom.nesting]
  | .number n, _ => by simp [Atom.height, Atom.nesting]
  | .minus inner, h => Nat.lt_succ_of_lt (inner.height_lt_nesting h)
  | .group inner, h => by
    have hinner := inner.height_lt_nesting h
    simp only [Atom.height, Atom.nesting]
    omega

end

end Source
end FortressLang
