import FortressLang.Expr
import Mathlib.Tactic.Ring

/-! What an expression is worth. Unbounded integers and signed 32-bit words share one evaluator, and
differ in their operations only. -/
namespace FortressLang

/-- Numbers to compute with, under the laws that let a sign move through sums and products. Nothing
is asked of quotients, and a quotient need not exist. -/
structure Arithmetic (α : Type) where
  constant : Int32 → α
  neg : α → α
  add : α → α → α
  sub : α → α → α
  mul : α → α → α
  div? : α → α → Option α
  neg_neg : ∀ a, neg (neg a) = a
  sub_eq : ∀ a b, sub a b = add a (neg b)
  add_assoc : ∀ a b c, add (add a b) c = add a (add b c)
  neg_add : ∀ a b, neg (add a b) = sub (neg a) b
  neg_mul : ∀ a b, neg (mul a b) = mul (neg a) b

namespace Arithmetic

variable {α : Type}

def operate? (A : Arithmetic α) : Operator → α → α → Option α
  | .add, a, b => some (A.add a b)
  | .sub, a, b => some (A.sub a b)
  | .mul, a, b => some (A.mul a b)
  | .div, a, b => A.div? a b

def signed (A : Arithmetic α) (negative : Bool) (a : α) : α := if negative then A.neg a else a

/-- All integers. Division is toward zero, and there is no quotient by zero. -/
def integers : Arithmetic Int where
  constant := Int32.toInt
  neg a := -a
  add a b := a + b
  sub a b := a - b
  mul a b := a * b
  div? a b := if b = 0 then none else some (a.tdiv b)
  neg_neg := Int.neg_neg
  sub_eq _ _ := Int.sub_eq_add_neg
  add_assoc := Int.add_assoc
  neg_add _ _ := Int.neg_add.trans Int.sub_eq_add_neg.symm
  neg_mul a b := (Int.neg_mul a b).symm

/-- Signed 32-bit words, which wrap around. There is no quotient by zero, and none of the smallest
word by minus one. -/
def words : Arithmetic Int32 where
  constant n := n
  neg a := -a
  add a b := a + b
  sub a b := a - b
  mul a b := a * b
  div? a b := if b = 0 ∨ a = Int32.minValue ∧ b = -1 then none else some (a / b)
  neg_neg _ := Int32.neg_neg
  sub_eq := Int32.sub_eq_add_neg
  add_assoc := Int32.add_assoc
  neg_add _ _ := Int32.neg_add
  neg_mul a b := (Int32.neg_mul a b).symm

end Arithmetic

def Operand.worth {α : Type} (A : Arithmetic α) (ρ : String → α) (o : Operand) : α :=
  A.signed o.negated <|
    match o.value with
    | .variable name => ρ name
    | .constant n => A.constant n

/-- The value of an expression under values for its variables, unless a quotient is missing. Left
operands are computed first. -/
def Expr.value? {α : Type} (A : Arithmetic α) (ρ : String → α) : Expr → Option α
  | operand o => some (o.worth A ρ)
  | binary op lhs rhs => do A.operate? op (← lhs.value? A ρ) (← rhs.value? A ρ)

end FortressLang
