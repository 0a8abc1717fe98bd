import FortressLang.Terminal

/-! Tokens: a terminal, the text that was read for it, and where that text begins. -/
namespace FortressLang

/-- Lines and columns count from one. -/
structure Position where
  line : Nat := 1
  column : Nat := 1
  deriving DecidableEq

namespace Position

/-- The place after one character: a line feed begins the next line. -/
def after (p : Position) (c : Char) : Position :=
  if c = '\n' then ⟨p.line + 1, 1⟩ else ⟨p.line, p.column + 1⟩

/-- The place after a stretch of text. -/
def advance (p : Position) (cs : List Char) : Position :=
  cs.foldl after p

@[simp] theorem advance_nil (p : Position) : p.advance [] = p := rfl

@[simp] theorem advance_append (p : Position) (cs ds : List Char) :
    p.advance (cs ++ ds) = (p.advance cs).advance ds := List.foldl_append

def text (p : Position) : String :=
  "line " ++ toString p.line ++ ", column " ++ toString p.column

end Position

structure Token where
  terminal : Terminal
  lexeme : String
  pos : Position
  deriving DecidableEq

namespace Token

def endOfStream (pos : Position) : Token := ⟨.endOfStream, "", pos⟩

/-- How an error message names a token: the class is written only where the lexeme alone would not
tell it. -/
def text (t : Token) : String :=
  match t.terminal with
  | .endOfStream => "end of stream at " ++ t.pos.text
  | terminal =>
    let quoted := "`" ++ t.lexeme ++ "` at " ++ t.pos.text
    if terminal.isClass then terminal.spelling ++ " " ++ quoted else quoted

end Token
end FortressLang
