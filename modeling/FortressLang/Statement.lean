import FortressLang.Expr

/-! Programs: a name and a list of statements, which nest through branches and loops. -/
namespace FortressLang

structure Condition where
  lhs : Expr
  comparison : Comparison
  rhs : Expr
  deriving DecidableEq

def Condition.text (c : Condition) : String :=
  c.lhs.text ++ " " ++ c.comparison.text ++ " " ++ c.rhs.text

inductive Statement
  | assign (target : String) (value : Expr)
  | branch (condition : Condition) (thenPart elsePart : List Statement)
  | loop (condition : Condition) (body : List Statement)
  | print (name : String)
  | read (name : String)

structure Program where
  name : String
  statements : List Statement

end FortressLang
