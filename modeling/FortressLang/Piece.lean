import FortressLang.Decimal
import FortressLang.Issue
import FortressLang.Text

/-! Cutting a program's text into pieces: lexemes, gaps between them, and what is neither. The
pieces follow each other without loss or overlap, each with the position of its first character. -/
namespace FortressLang

inductive Piece.Kind
  | gap | lexeme (t : Terminal) | overflow | stray | unclosed
  deriving DecidableEq

/-- A gap is white space, a remark from a dollar sign to the end of its line, or a comment between
two double exclamation marks. An overflow is a number too large for a constant. -/
structure Piece where
  kind : Piece.Kind
  chars : List Char
  pos : Position
  deriving DecidableEq

namespace Piece

/-- How many characters stand before the end of a comment's closing mark, after its opening one. -/
def closing? (passed : Nat) : List Char → Option Nat
  | '!' :: '!' :: _ => some (passed + 2)
  | _ :: cs => closing? (passed + 1) cs
  | [] => none

def mark? : Char → Option Terminal
  | ',' => some .comma
  | '=' => some .equal
  | '<' => some .smaller
  | '>' => some .greater
  | '+' => some .plus
  | '-' => some .minus
  | '*' => some .times
  | '/' => some .divide
  | '(' => some .lparen
  | ')' => some .rparen
  | _ => none

def isVarChar (c : Char) : Bool := c.isLower || c.isDigit

def isNameChar (c : Char) : Bool := c.isAlphanum || c = '_'

def numberKind (cs : List Char) : Kind :=
  if (Decimal.int32? cs).isSome then .lexeme .number else .overflow

def nameKind (cs : List Char) : Kind :=
  .lexeme ((Terminal.keyword? (String.ofList cs)).getD .progName)

/-- The longest piece at the head of a text, as its kind and its characters after the first, and
what follows it. -/
def split (c : Char) (cs : List Char) : Kind × List Char × List Char :=
  if Text.isBlank c then (.gap, cs.takeWhile Text.isBlank, cs.dropWhile Text.isBlank)
  else if c = '$' then (.gap, cs.takeWhile (· ≠ '\n'), cs.dropWhile (· ≠ '\n'))
  else if c.isDigit then
    (numberKind (c :: cs.takeWhile Char.isDigit), cs.takeWhile Char.isDigit,
      cs.dropWhile Char.isDigit)
  else if c.isLower then (.lexeme .varName, cs.takeWhile isVarChar, cs.dropWhile isVarChar)
  else if c.isUpper then
    (nameKind (c :: cs.takeWhile isNameChar), cs.takeWhile isNameChar, cs.dropWhile isNameChar)
  else if c = ':' ∧ cs.head? = some '=' then (.lexeme .assign, cs.take 1, cs.drop 1)
  else if c = '!' ∧ cs.head? = some '!' then
    match closing? 1 (cs.drop 1) with
    | some n => (.gap, cs.take n, cs.drop n)
    | none => (.unclosed, cs, [])
  else
    match mark? c with
    | some t => (.lexeme t, [], cs)
    | none => (.stray, [], cs)

theorem split_append (c : Char) (cs : List Char) : (split c cs).2.1 ++ (split c cs).2.2 = cs := by
  unfold split
  repeat' split
  all_goals simp only [List.takeWhile_append_dropWhile, List.take_append_drop, List.append_nil,
    List.nil_append]

theorem length_split_le (c : Char) (cs : List Char) : (split c cs).2.2.length ≤ cs.length := by
  have h := congrArg List.length (split_append c cs)
  simp only [List.length_append] at h
  omega

/-- The pieces of a text that begins at a position, after those already cut (newest first). -/
def cut (done : List Piece) (pos : Position) : List Char → List Piece
  | [] => done.reverse
  | c :: cs =>
    let parts := split c cs
    cut (⟨parts.1, c :: parts.2.1, pos⟩ :: done) (pos.advance (c :: parts.2.1)) parts.2.2
termination_by cs => cs.length
decreasing_by simpa [Nat.lt_succ_iff] using length_split_le c cs

/-- The pieces of a whole text. -/
def ofText (cs : List Char) : List Piece := cut [] {} cs

/-- What holds of a text whenever it holds of what follows its first piece holds of every text. -/
theorem text_induction {motive : List Char → Prop} (nil : motive [])
    (cons : ∀ c cs, motive (split c cs).2.2 → motive (c :: cs)) (cs : List Char) : motive cs := by
  induction h : cs.length using Nat.strongRecOn generalizing cs with
  | _ n ih =>
    cases cs with
    | nil => exact nil
    | cons c cs =>
      have hle := length_split_le c cs
      rw [List.length_cons] at h
      exact cons c cs (ih _ (by omega) _ rfl)

theorem cut_eq (done : List Piece) (pos : Position) (cs : List Char) :
    cut done pos cs = done.reverse ++ cut [] pos cs := by
  induction cs using text_induction generalizing done pos with
  | nil => simp [cut]
  | cons c cs ih =>
    rw [cut, cut, ih, ih [_]]
    simp

theorem cut_cons (pos : Position) (c : Char) (cs : List Char) :
    cut [] pos (c :: cs) = ⟨(split c cs).1, c :: (split c cs).2.1, pos⟩ ::
      cut [] (pos.advance (c :: (split c cs).2.1)) (split c cs).2.2 := by
  rw [cut, cut_eq]
  rfl

/-- Nothing is lost: the pieces make up the text. -/
theorem flatMap_cut (pos : Position) (cs : List Char) : (cut [] pos cs).flatMap chars = cs := by
  induction cs using text_induction generalizing pos with
  | nil => simp [cut]
  | cons c cs ih => simp [cut_cons, ih, split_append]

/-- What a piece means to a parser; a gap means nothing. -/
def result? (p : Piece) : Option (Except Issue Token) :=
  match p.kind with
  | .gap => none
  | .lexeme t => some (.ok ⟨t, String.ofList p.chars, p.pos⟩)
  | .overflow => some (.error (.numberOutOfRange (String.ofList p.chars) p.pos))
  | .stray => p.chars.head?.map fun c => .error (.unknownCharacter c p.pos)
  | .unclosed => some (.error (.unterminatedComment p.pos))

end Piece
end FortressLang
