import FortressLang.Issue
import FortressLang.Statement

/-! Drawings of statements: a document whose one picture is a bracketed tree of labelled nodes. -/
namespace FortressLang
namespace TreeDrawing

/-- Less-than and greater-than marks are set in math mode. -/
def escape (label : String) : String :=
  if label = "<" ∨ label = ">" then "$" ++ label ++ "$" else label

/-- A node with its children, which are already written. -/
def node (label : String) (children : List String) : String :=
  "[\x7b" ++ escape label ++ "\x7d " ++ String.join children ++ "]"

def ofExpr : Expr → String
  | .operand o => node o.text []
  | .binary op lhs rhs => node op.text [ofExpr lhs, ofExpr rhs]

def ofCondition (c : Condition) : String :=
  node c.comparison.text [ofExpr c.lhs, ofExpr c.rhs]

/-- Of a branch or a loop, only the condition is drawn. -/
def ofStatement : Statement → String
  | .assign target value => node ":=" [node target [], ofExpr value]
  | .branch condition _ _ => ofCondition condition
  | .loop condition _ => ofCondition condition
  | .print name => node name []
  | .read name => node name []

def header : String :=
  "\\documentclass[border=5pt]\x7bstandalone\x7d\n\n\\usepackage\x7btikz\x7d\n" ++
    "\\usepackage\x7bforest\x7d\n\n\\begin\x7bdocument\x7d\n\n" ++
    "\\begin\x7bforest\x7dfor tree=\x7brectangle, draw, l sep=20pt\x7d"

def footer : String :=
  ";\n\\end\x7bforest\x7d\n\n\\end\x7bdocument\x7d\n" ++
    "%% Local Variables:\n%% TeX-engine: pdflatex\n%% End:\n"

/-- The document that draws the first statement of a program. -/
def ofProgram (p : Program) : Except Issue String :=
  match p.statements with
  | [] => .error .nothingToDraw
  | s :: _ => .ok (header ++ ofStatement s ++ footer)

end TreeDrawing
end FortressLang
