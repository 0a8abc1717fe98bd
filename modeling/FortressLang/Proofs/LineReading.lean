import FortressLang.Proofs.MainText
import FortressLang.Proofs.NamedOperations

/-! Every line of code is read back as its operation. A line is written in words, of which those
behind a percent sign are names; names and words together tell the operation. -/
namespace FortressLang

open Source (isVariable)

/-- A word of a line: what a name behind a percent sign stands for, or a text. -/
inductive LineWord
  | name (x : Local)
  | plain (s : String)

namespace LineWord

def separates : Char → Bool
  | ' ' | ',' | '(' | ')' | ':' | '\n' => true
  | _ => false

def chars : LineWord → List Char
  | name x => '%' :: x.text.toList
  | plain s => s.toList

def ofChars : List Char → LineWord
  | '%' :: cs => name (.ofText (String.ofList cs))
  | cs => plain (String.ofList cs)

/-- The words of a text, each up to the separator behind it, with what was met of the first. -/
def cut (met : List Char) : List Char → List LineWord
  | [] => []
  | c :: cs =>
    if separates c then (if met = [] then [] else [ofChars met]) ++ cut [] cs
    else cut (met ++ [c]) cs

def inWord (c : Char) : Bool := !separates c && c ≠ '%'

def solid : LineWord → Bool
  | name (.storage x) => isVariable x
  | name _ => true
  | plain s => s.toList ≠ [] && s.toList.all inWord

theorem inWord_of_isNameChar {c : Char} (h : Piece.isNameChar c = true) : inWord c = true := by
  have hpercent : c ≠ '%' := by
    rintro rfl
    exact absurd h (by decide)
  unfold inWord separates
  split <;> first | exact absurd h (by decide) | simp [hpercent]

theorem not_separates_of_inWord {c : Char} (h : inWord c = true) : separates c = false := by
  simp only [inWord, Bool.and_eq_true, Bool.not_eq_true'] at h
  exact h.1

theorem solid_plain {s : String} (hne : s.toList ≠ []) (h : ∀ c ∈ s.toList, inWord c = true) :
    (plain s).solid = true := by
  simp only [solid, Bool.and_eq_true, decide_eq_true_eq, List.all_eq_true]
  exact ⟨hne, h⟩

section

variable {w : LineWord} (h : w.solid = true)

include h

theorem isVariable_of_solid {x : Local} (hw : w = name x) :
    ∀ s, x = .storage s → isVariable s = true := by
  rintro s rfl
  subst hw
  exact h

theorem inWord_of_solid {s : String} (hw : w = plain s) :
    s.toList ≠ [] ∧ ∀ c ∈ s.toList, inWord c = true := by
  subst hw
  simpa only [solid, Bool.and_eq_true, decide_eq_true_eq, List.all_eq_true] using h

theorem chars_ne_nil : w.chars ≠ [] := by
  cases w with
  | name x => exact List.cons_ne_nil _ _
  | plain s => exact (inWord_of_solid h rfl).1

theorem not_separates : ∀ c ∈ w.chars, separates c = false := by
  cases w with
  | name x =>
    refine List.forall_mem_cons.mpr ⟨rfl, fun c hc => not_separates_of_inWord ?_⟩
    exact inWord_of_isNameChar (Local.isNameChar_text (isVariable_of_solid h rfl) c hc)
  | plain s => exact fun c hc => not_separates_of_inWord ((inWord_of_solid h rfl).2 c hc)

theorem ofChars_chars : ofChars w.chars = w := by
  cases w with
  | name x =>
    rw [chars, ofChars, String.ofList_toList, Local.ofText_text (isVariable_of_solid h rfl)]
  | plain s =>
    rw [chars, ofChars, String.ofList_toList]
    intro cs hcs
    have hpercent := (inWord_of_solid h rfl).2 '%' (hcs ▸ List.mem_cons_self)
    exact absurd hpercent (by decide)

end

theorem cut_met {cs : List Char} (h : ∀ c ∈ cs, separates c = false) (met rest : List Char) :
    cut met (cs ++ rest) = cut (met ++ cs) rest := by
  induction cs generalizing met with
  | nil => simp
  | cons c cs ih =>
    rw [List.forall_mem_cons] at h
    rw [List.cons_append, cut, h.1, if_neg (by decide), ih h.2]
    simp

theorem cut_separators {cs : List Char} (h : ∀ c ∈ cs, separates c = true) (rest : List Char) :
    cut [] (cs ++ rest) = cut [] rest := by
  induction cs with
  | nil => rfl
  | cons c cs ih =>
    rw [List.forall_mem_cons] at h
    rw [List.cons_append, cut, if_pos h.1, ih h.2]
    rfl

theorem cut_spaced {ps : List (LineWord × List Char)} (h : ∀ p ∈ ps, p.1.solid = true)
    (hspace : ∀ p ∈ ps, p.2 ≠ [] ∧ ∀ c ∈ p.2, separates c = true) :
    cut [] (ps.flatMap fun p => p.1.chars ++ p.2) = ps.map Prod.fst := by
  induction ps with
  | nil => rfl
  | cons p ps ih =>
    obtain ⟨w, space⟩ := p
    rw [List.forall_mem_cons] at h hspace
    obtain ⟨⟨hne, hall⟩, hspace⟩ := hspace
    obtain ⟨c, cs, rfl⟩ := List.exists_cons_of_ne_nil hne
    rw [List.forall_mem_cons] at hall
    rw [List.flatMap_cons, List.append_assoc, cut_met (not_separates h.1), List.nil_append,
      List.cons_append, cut, if_pos hall.1, if_neg (chars_ne_nil h.1), ofChars_chars h.1,
      cut_separators hall.2, ih h.2 hspace]
    rfl

end LineWord

namespace Op

open LineWord (name plain)

/-- The words in the line of an operation, each with what stands behind it. -/
def spaced : Op → List (LineWord × List Char)
  | loadVariable d x =>
    [(name (.temp d), [' ']), (plain "=", [' ']), (plain "load", [' ']), (plain "i32", [',', ' ']),
      (plain "i32*", [' ']), (name (.storage x), ['\n'])]
  | loadConstant d n =>
    [(name (.temp d), [' ']), (plain "=", [' ']), (plain "call", [' ']), (plain "i32", [' ']),
      (plain "@assign", ['(']), (plain "i32", [' ']), (plain (toString n), [')', '\n'])]
  | arith d op l r =>
    [(name (.temp d), [' ']), (plain "=", [' ']), (plain op.mnemonic, [' ']), (plain "i32", [' ']),
      (name (.temp l), [',', ' ']), (name (.temp r), ['\n'])]
  | invert d s =>
    [(name (.temp d), [' ']), (plain "=", [' ']), (plain "sub", [' ']), (plain "i32", [' ']),
      (plain "0", [',', ' ']), (name (.temp s), ['\n'])]
  | alloc x =>
    [(name (.storage x), [' ']), (plain "=", [' ']), (plain "alloca", [' ']), (plain "i32", ['\n'])]
  | store s x =>
    [(plain "store", [' ']), (plain "i32", [' ']), (name (.temp s), [',', ' ']),
      (plain "i32*", [' ']), (name (.storage x), ['\n'])]
  | print s =>
    [(plain "call", [' ']), (plain "void", [' ']), (plain "@println", ['(']), (plain "i32", [' ']),
      (name (.temp s), [')', '\n'])]
  | read d =>
    [(name (.temp d), [' ']), (plain "=", [' ']), (plain "call", [' ']), (plain "i32", [' ']),
      (plain "@readInt", ['(', ')', '\n'])]
  | compare b c l r =>
    [(name (.condition b), [' ']), (plain "=", [' ']), (plain "icmp", [' ']),
      (plain c.mnemonic, [' ']), (plain "i32", [' ']), (name (.temp l), [',', ' ']),
      (name (.temp r), ['\n'])]
  | branch b t f =>
    [(plain "br", [' ']), (plain "i1", [' ']), (name (.condition b), [',', ' ']),
      (plain "label", [' ']), (name (.label t), [',', ' ']), (plain "label", [' ']),
      (name (.label f), ['\n'])]
  | jump l => [(plain "br", [' ']), (plain "label", [' ']), (name (.label l), ['\n'])]
  | label l => [(plain l.text, [':', '\n'])]

/-- A label stands at the beginning of its line. -/
def indent : Op → List Char
  | label _ => []
  | _ => [' ', ' ']

theorem line_spaced (op : Op) :
    op.line.toList ++ ['\n'] = op.indent ++ op.spaced.flatMap fun p => p.1.chars ++ p.2 := by
  cases op <;> (unfold line Op.text; simp [temp, indent, spaced, LineWord.chars, Local.text])

theorem separates_spaced (op : Op) :
    ∀ p ∈ op.spaced, p.2 ≠ [] ∧ ∀ c ∈ p.2, LineWord.separates c = true := by
  cases op <;> simp [spaced, LineWord.separates]

theorem solid_integer (n : Int) : (plain (toString n)).solid = true := by
  refine LineWord.solid_plain (fun hnil => ?_) fun c hc => ?_
  · rw [toList_toString] at hnil
    split at hnil
    · cases hnil
    · exact Nat.toDigits_ne_nil hnil
  · rcases mem_toString hc with rfl | hdigit
    · decide
    · exact LineWord.inWord_of_isNameChar (Piece.isNameChar_of_isDigit hdigit)

theorem solid_label (l : CodeLabel) : (plain l.text).solid = true :=
  LineWord.solid_plain l.text_ne_nil fun c hc =>
    LineWord.inWord_of_isNameChar (l.isNameChar_text c hc)

theorem solid_spaced {op : Op} (h : op.Named) : op.spaced.all (·.1.solid) = true := by
  cases op with
  | loadVariable d x | alloc x | store s x =>
    have hx : isVariable x = true := h x rfl
    change (isVariable x && true) = true
    rw [hx, Bool.and_true]
  | loadConstant d n =>
    change ((plain (toString n)).solid && true) = true
    rw [solid_integer, Bool.and_true]
  | label l =>
    change ((plain l.text).solid && true) = true
    rw [solid_label, Bool.and_true]
  | arith d op l r => cases op <;> rfl
  | compare b c l r => cases c <;> rfl
  | _ => rfl

end Op

def Local.label? : Local → Option CodeLabel
  | label l => some l
  | _ => none

def Operator.ofMnemonic? : String → Option Operator
  | "add" => some add
  | "sub" => some sub
  | "mul" => some mul
  | "sdiv" => some div
  | _ => none

def Comparison.ofMnemonic? : String → Option Comparison
  | "eq" => some equal
  | "slt" => some smaller
  | "sgt" => some greater
  | _ => none

namespace Op

open LineWord (name plain)

/-- The operation that has these words. A subtraction from a number, not from a temporary, turns a
sign. -/
def ofSentence? : List LineWord → Option Op
  | [name (.temp d), plain "=", plain "load", plain "i32", plain "i32*", name (.storage x)] =>
    some (loadVariable d x)
  | [name (.temp d), plain "=", plain "call", plain "i32", plain "@assign", plain "i32",
      plain n] => (Decimal.integer? n.toList).map (loadConstant d)
  | [name (.temp d), plain "=", plain op, plain "i32", name (.temp l), name (.temp r)] =>
    (Operator.ofMnemonic? op).map fun op => arith d op l r
  | [name (.temp d), plain "=", plain "sub", plain "i32", plain "0", name (.temp s)] =>
    some (invert d s)
  | [name (.storage x), plain "=", plain "alloca", plain "i32"] => some (alloc x)
  | [plain "store", plain "i32", name (.temp s), plain "i32*", name (.storage x)] =>
    some (store s x)
  | [plain "call", plain "void", plain "@println", plain "i32", name (.temp s)] => some (print s)
  | [name (.temp d), plain "=", plain "call", plain "i32", plain "@readInt"] => some (read d)
  | [name (.condition b), plain "=", plain "icmp", plain c, plain "i32", name (.temp l),
      name (.temp r)] => (Comparison.ofMnemonic? c).map fun c => compare b c l r
  | [plain "br", plain "i1", name (.condition b), plain "label", name (.label t), plain "label",
      name (.label f)] => some (branch b t f)
  | [plain "br", plain "label", name (.label l)] => some (jump l)
  | _ => none

/-- Only a label is a line of one word. -/
def ofWords? : List LineWord → Option Op
  | [plain l] => (Local.ofText l).label?.map label
  | ws => ofSentence? ws

def ofLine? (line : List Char) : Option Op := ofWords? (LineWord.cut [] (line ++ ['\n']))

theorem ofWords?_spaced (op : Op) : ofWords? (op.spaced.map Prod.fst) = some op := by
  cases op with
  | loadConstant d n =>
    change (Decimal.integer? (toString n).toList).map (loadConstant d) = _
    rw [Decimal.integer?_toString]
    rfl
  | label l =>
    have hl : Local.ofText l.text = .label l := Local.ofText_text (x := .label l) nofun
    change (Local.ofText l.text).label?.map label = _
    rw [hl]
    rfl
  | arith d op l r => cases op <;> rfl
  | compare b c l r => cases c <;> rfl
  | _ => rfl

theorem ofLine?_line {op : Op} (h : op.Named) : ofLine? op.line.toList = some op := by
  have hindent : ∀ c ∈ op.indent, LineWord.separates c = true := by
    unfold indent
    split <;> simp [LineWord.separates]
  rw [ofLine?, line_spaced, LineWord.cut_separators hindent,
    LineWord.cut_spaced (List.all_eq_true.mp (solid_spaced h)) op.separates_spaced, ofWords?_spaced]

end Op
end FortressLang
