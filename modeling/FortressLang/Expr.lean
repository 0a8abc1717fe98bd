import FortressLang.Terminal

/-! Arithmetic expressions over variables and 32-bit constants. A unary minus has no node of its
own: each operand carries a sign. -/
namespace FortressLang

inductive Operator | add | sub | mul | div
  deriving DecidableEq

namespace Operator

def ofTerminal? : Terminal → Option Operator
  | .plus => some add
  | .minus => some sub
  | .times => some mul
  | .divide => some div
  | _ => none

def isAdditive : Operator → Bool
  | add | sub => true
  | mul | div => false

def isMultiplicative (op : Operator) : Bool := !op.isAdditive

def text : Operator → String
  | add => "+"
  | sub => "-"
  | mul => "*"
  | div => "/"

/-- The operator that takes the other sign of its left operand to the other sign of its result. -/
def opposite : Operator → Operator
  | add => sub
  | sub => add
  | op => op

@[simp] theorem opposite_opposite (op : Operator) : op.opposite.opposite = op := by
  cases op <;> rfl

end Operator

inductive Comparison | equal | smaller | greater
  deriving DecidableEq

namespace Comparison

def ofTerminal? : Terminal → Option Comparison
  | .equal => some equal
  | .smaller => some smaller
  | .greater => some greater
  | _ => none

def text : Comparison → String
  | equal => "="
  | smaller => "<"
  | greater => ">"

end Comparison

inductive Value
  | variable (name : String)
  | constant (n : Int32)
  deriving DecidableEq

structure Operand where
  value : Value
  negated : Bool
  deriving DecidableEq

namespace Operand

def flip (o : Operand) : Operand := { o with negated := !o.negated }

@[simp] theorem flip_flip (o : Operand) : o.flip.flip = o := by simp [flip]

/-- A negative constant under a minus is written with both signs. -/
def text (o : Operand) : String :=
  (if o.negated then "-" else "") ++
    match o.value with
    | .variable name => name
    | .constant n => toString n.toInt

end Operand

inductive Expr
  | operand (o : Operand)
  | binary (op : Operator) (lhs rhs : Expr)
  deriving DecidableEq

namespace Expr

/-- The same expression with the other sign, which is pushed down to the leftmost operand. -/
def negated : Expr → Expr
  | operand o => operand o.flip
  | binary op lhs rhs => binary op.opposite lhs.negated rhs

theorem negated_negated (e : Expr) : e.negated.negated = e := by
  induction e with
  | operand o => simp [negated]
  | binary op lhs rhs ih => simp [negated, ih]

/-- An expression with every operation in parentheses. -/
def text : Expr → String
  | operand o => o.text
  | binary op lhs rhs => "(" ++ lhs.text ++ " " ++ op.text ++ " " ++ rhs.text ++ ")"

end Expr
end FortressLang
