import FortressLang.TokenStream
import Mathlib.Data.List.TakeWhile

/-! Words with blanks between them. Each word is cut off whole in front of a blank, so the tokens of
the text are the words again. -/
namespace FortressLang

structure Word where
  terminal : Terminal
  lexeme : String
  deriving DecidableEq

def Terminal.isFixed (t : Terminal) : Bool :=
  !t.isClass && t ≠ .epsilon && t ≠ .endOfStream

def Word.fixed (t : Terminal) : Word := ⟨t, t.spelling⟩

def Token.word (t : Token) : Word := ⟨t.terminal, t.lexeme⟩

theorem Token.terminal_of_word {x : Token} {w : Word} (h : x.word = w) :
    x.terminal = w.terminal := congrArg Word.terminal h

/-- The text is at its end, or begins with a blank. -/
def BlankAhead (cs : List Char) : Prop := ∀ c, cs.head? = some c → Text.isBlank c = true

/-- A text of the words in order, with blanks around them and between any two. -/
inductive Layout : List Word → List Char → Prop
  | blanks {gap : List Char} : (∀ c ∈ gap, Text.isBlank c = true) → Layout [] gap
  | word {gap rest : List Char} {ws : List Word} (w : Word) :
    (∀ c ∈ gap, Text.isBlank c = true) → BlankAhead rest → Layout ws rest →
      Layout (w :: ws) (gap ++ (w.lexeme.toList ++ rest))

/-- The word is a piece of its own in front of a blank. -/
def Word.Whole (w : Word) : Prop :=
  ∃ c cs, w.lexeme.toList = c :: cs ∧
    ∀ rest, BlankAhead rest → Piece.split c (cs ++ rest) = (.lexeme w.terminal, cs, rest)

theorem span_exact {p : Char → Bool} {cs rest : List Char} (hcs : ∀ c ∈ cs, p c = true)
    (hrest : ∀ c, rest.head? = some c → p c = false) :
    (cs ++ rest).takeWhile p = cs ∧ (cs ++ rest).dropWhile p = rest := by
  rw [List.takeWhile_append_of_pos hcs, List.dropWhile_append_of_pos hcs]
  cases rest with
  | nil => simp
  | cons c rest => simp [hrest c rfl]

namespace Piece

theorem split_blank {c : Char} {gap rest : List Char} (hgap : ∀ d ∈ c :: gap, Text.isBlank d = true)
    (hrest : ∀ d, rest.head? = some d → Text.isBlank d = false) :
    split c (gap ++ rest) = (.gap, gap, rest) := by
  rw [List.forall_mem_cons] at hgap
  obtain ⟨htake, hdrop⟩ := span_exact hgap.2 hrest
  rw [split, if_pos hgap.1, htake, hdrop]

section

variable {c : Char}

theorem isUpper_iff : c.isUpper = true ↔ 65 ≤ c.toNat ∧ c.toNat ≤ 90 := decide_eq_true_iff

theorem isLower_iff : c.isLower = true ↔ 97 ≤ c.toNat ∧ c.toNat ≤ 122 := by
  have hbounds : c.isLower = (decide (97 ≤ c.toNat) && decide (c.toNat ≤ 122)) := rfl
  rw [hbounds, Bool.and_eq_true, decide_eq_true_eq, decide_eq_true_eq]

theorem isNameChar_iff : isNameChar c = true ↔
    ((c.isUpper = true ∨ c.isLower = true) ∨ c.isDigit = true) ∨ c = '_' := by
  have hclasses : isNameChar c = (((c.isUpper || c.isLower) || c.isDigit) || c = '_') := rfl
  simp only [hclasses, Bool.or_eq_true, decide_eq_true_eq]

theorem isNameChar_of_isUpper (h : c.isUpper = true) : isNameChar c = true :=
  isNameChar_iff.mpr (.inl (.inl (.inl h)))

theorem isNameChar_of_isLower (h : c.isLower = true) : isNameChar c = true :=
  isNameChar_iff.mpr (.inl (.inl (.inr h)))

theorem isNameChar_of_isDigit (h : c.isDigit = true) : isNameChar c = true :=
  isNameChar_iff.mpr (.inl (.inr h))

theorem isNameChar_of_isVarChar (h : isVarChar c = true) : isNameChar c = true := by
  simp only [isVarChar, Bool.or_eq_true] at h
  exact h.elim isNameChar_of_isLower isNameChar_of_isDigit

theorem not_isDigit_of_isLower (h : c.isLower = true) : ¬c.isDigit = true := by
  rw [isLower_iff] at h
  simp only [Char.isDigit_iff_toNat, Char.reduceToNat]
  omega

theorem not_isDigit_of_isUpper (h : c.isUpper = true) : ¬c.isDigit = true := by
  rw [isUpper_iff] at h
  simp only [Char.isDigit_iff_toNat, Char.reduceToNat]
  omega

theorem not_isLower_of_isUpper (h : c.isUpper = true) : ¬c.isLower = true := by
  rw [isUpper_iff] at h
  rw [isLower_iff]
  omega

theorem isBlank_of_isNameChar (h : isNameChar c = true) : Text.isBlank c = false := by
  have hbounds : 48 ≤ c.toNat ∧ c.toNat ≤ 122 := by
    simp only [isNameChar_iff, isUpper_iff, isLower_iff, Char.isDigit_iff_toNat,
      Char.reduceToNat] at h
    rcases h with h | rfl
    · omega
    · decide
  simp only [Text.isBlank, Text.blankRanges, List.any_cons, List.any_nil, Bool.or_eq_false_iff,
    decide_eq_false_iff_not, and_true]
  omega

end

theorem span_blank {p : Char → Bool} (hp : ∀ c, p c = true → isNameChar c = true)
    {cs rest : List Char} (hcs : ∀ c ∈ cs, p c = true) (hrest : BlankAhead rest) :
    (cs ++ rest).takeWhile p = cs ∧ (cs ++ rest).dropWhile p = rest := by
  refine span_exact hcs fun c hc => ?_
  have hblank := hrest c hc
  cases hpc : p c with
  | false => rfl
  | true =>
    rw [isBlank_of_isNameChar (hp c hpc)] at hblank
    cases hblank

end Piece

namespace Word

theorem Whole.isBlank {w : Word} (h : w.Whole) (rest : List Char) (c : Char)
    (hc : (w.lexeme.toList ++ rest).head? = some c) : Text.isBlank c = false := by
  obtain ⟨d, ds, hd, hsplit⟩ := h
  obtain rfl : d = c := by simpa [hd] using hc
  by_contra hblank
  have hgap := hsplit [] (by simp [BlankAhead])
  rw [Piece.split, if_pos (by simpa using hblank)] at hgap
  cases congrArg Prod.fst hgap

theorem whole_mark {t : Terminal} {c : Char} (hc : Piece.mark? c = some t) :
    Whole ⟨t, String.ofList [c]⟩ := by
  refine ⟨c, [], by simp, fun rest _ => ?_⟩
  unfold Piece.mark? at hc
  split at hc <;> cases hc <;> rfl

theorem whole_assign : (fixed .assign).Whole :=
  ⟨':', ['='], rfl, fun _ _ => rfl⟩

theorem whole_of_span {w : Word} {c : Char} {cs : List Char} (hw : w.lexeme.toList = c :: cs)
    (p : Char → Bool) (hp : ∀ d, p d = true → Piece.isNameChar d = true)
    (hcs : ∀ d ∈ cs, p d = true) (kind : List Char → Piece.Kind)
    (hkind : kind cs = .lexeme w.terminal)
    (hsplit : ∀ ds, Piece.split c ds = (kind (ds.takeWhile p), ds.takeWhile p, ds.dropWhile p)) :
    w.Whole := by
  refine ⟨c, cs, hw, fun rest hrest => ?_⟩
  obtain ⟨htake, hdrop⟩ := Piece.span_blank hp hcs hrest
  rw [hsplit, htake, hdrop, hkind]

end Word

namespace Piece

variable {c : Char}

theorem split_of_isNameChar (hc : isNameChar c = true) (cs : List Char) :
    split c cs =
      if c.isDigit then
        (numberKind (c :: cs.takeWhile Char.isDigit), cs.takeWhile Char.isDigit,
          cs.dropWhile Char.isDigit)
      else if c.isLower then (.lexeme .varName, cs.takeWhile isVarChar, cs.dropWhile isVarChar)
      else if c.isUpper then
        (nameKind (c :: cs.takeWhile isNameChar), cs.takeWhile isNameChar, cs.dropWhile isNameChar)
      else (.stray, [], cs) := by
  have hblank := isBlank_of_isNameChar hc
  have hdollar : c ≠ '$' := by rintro rfl; cases hc
  have hcolon : c ≠ ':' := by rintro rfl; cases hc
  have hbang : c ≠ '!' := by rintro rfl; cases hc
  have hmark : mark? c = none := by
    unfold mark?
    split <;> first | rfl | cases hc
  simp [split, hblank, hdollar, hcolon, hbang, hmark]

end Piece

namespace Word

variable {w : Word} {c : Char} {cs : List Char}

theorem whole_number (hw : w.lexeme.toList = c :: cs) (hcs : ∀ d ∈ c :: cs, d.isDigit = true)
    (hkind : Piece.numberKind (c :: cs) = .lexeme w.terminal) : w.Whole := by
  rw [List.forall_mem_cons] at hcs
  refine whole_of_span hw Char.isDigit (fun _ => Piece.isNameChar_of_isDigit) hcs.2
    (fun ds => Piece.numberKind (c :: ds)) hkind fun ds => ?_
  rw [Piece.split_of_isNameChar (Piece.isNameChar_of_isDigit hcs.1), if_pos hcs.1]

theorem whole_variable (hw : w.lexeme.toList = c :: cs) (hc : c.isLower = true)
    (hcs : cs.all Piece.isVarChar = true) (ht : w.terminal = .varName) : w.Whole := by
  refine whole_of_span hw Piece.isVarChar (fun _ => Piece.isNameChar_of_isVarChar)
    (List.all_eq_true.mp hcs) (fun _ => .lexeme .varName) (by rw [ht]) fun ds => ?_
  rw [Piece.split_of_isNameChar (Piece.isNameChar_of_isLower hc),
    if_neg (Piece.not_isDigit_of_isLower hc), if_pos hc]

theorem whole_name (hw : w.lexeme.toList = c :: cs) (hc : c.isUpper = true)
    (hcs : cs.all Piece.isNameChar = true)
    (hkind : Piece.nameKind (c :: cs) = .lexeme w.terminal) : w.Whole := by
  refine whole_of_span hw Piece.isNameChar (fun _ h => h) (List.all_eq_true.mp hcs)
    (fun ds => Piece.nameKind (c :: ds)) hkind fun ds => ?_
  rw [Piece.split_of_isNameChar (Piece.isNameChar_of_isUpper hc),
    if_neg (Piece.not_isDigit_of_isUpper hc), if_neg (Piece.not_isLower_of_isUpper hc), if_pos hc]

theorem whole_fixed {t : Terminal} (ht : t.isFixed = true) : (fixed t).Whole := by
  cases t with
  | comma => exact whole_mark (c := ',') rfl
  | equal => exact whole_mark (c := '=') rfl
  | smaller => exact whole_mark (c := '<') rfl
  | greater => exact whole_mark (c := '>') rfl
  | plus => exact whole_mark (c := '+') rfl
  | minus => exact whole_mark (c := '-') rfl
  | times => exact whole_mark (c := '*') rfl
  | divide => exact whole_mark (c := '/') rfl
  | lparen => exact whole_mark (c := '(') rfl
  | rparen => exact whole_mark (c := ')') rfl
  | assign => exact whole_assign
  | progName | varName | number | epsilon | endOfStream => cases ht
  | _ => exact whole_name rfl rfl rfl (by decide)

end Word

def Piece.results (pos : Position) (cs : List Char) : List (Except Issue Token) :=
  (cut [] pos cs).filterMap result?

theorem Piece.results_cons (pos : Position) (c : Char) (cs : List Char) :
    results pos (c :: cs) = (result? ⟨(split c cs).1, c :: (split c cs).2.1, pos⟩).toList ++
      results (pos.advance (c :: (split c cs).2.1)) (split c cs).2.2 := by
  rw [results, cut_cons, List.filterMap_cons]
  cases result? ⟨(split c cs).1, c :: (split c cs).2.1, pos⟩ <;> rfl

theorem Piece.results_gap {gap rest : List Char} (hgap : ∀ c ∈ gap, Text.isBlank c = true)
    (hrest : ∀ c, rest.head? = some c → Text.isBlank c = false) (pos : Position) :
    results pos (gap ++ rest) = results (pos.advance gap) rest := by
  cases gap with
  | nil => rfl
  | cons c gap =>
    rw [List.cons_append, results_cons, split_blank hgap hrest]
    rfl

theorem Piece.results_word {w : Word} (hw : w.Whole) {rest : List Char} (hrest : BlankAhead rest)
    (pos : Position) :
    results pos (w.lexeme.toList ++ rest) = .ok ⟨w.terminal, w.lexeme, pos⟩ ::
      results (pos.advance w.lexeme.toList) rest := by
  obtain ⟨c, cs, hlexeme, hsplit⟩ := hw
  have hchars : String.ofList (c :: cs) = w.lexeme := by rw [← hlexeme, String.ofList_toList]
  rw [hlexeme, List.cons_append, results_cons, hsplit rest hrest]
  simp only [result?, hchars]
  rfl

theorem Layout.results {ws : List Word} {cs : List Char} (h : Layout ws cs)
    (hws : ∀ w ∈ ws, w.Whole) (pos : Position) :
    ∃ tokens : List Token, Piece.results pos cs = tokens.map .ok ∧ tokens.map Token.word = ws := by
  induction h generalizing pos with
  | @blanks gap hgap =>
    have hnone : Piece.results pos (gap ++ []) = Piece.results (pos.advance gap) [] :=
      Piece.results_gap hgap (by simp) pos
    rw [List.append_nil] at hnone
    refine ⟨[], ?_, rfl⟩
    rw [hnone, Piece.results, Piece.cut]
    rfl
  | @word gap rest ws w hgap hrest h ih =>
    rw [List.forall_mem_cons] at hws
    obtain ⟨tokens, htokens, hwords⟩ := ih hws.2 ((pos.advance gap).advance w.lexeme.toList)
    refine ⟨⟨w.terminal, w.lexeme, pos.advance gap⟩ :: tokens, ?_, ?_⟩
    · rw [Piece.results_gap hgap (hws.1.isBlank rest), Piece.results_word hws.1 hrest, htokens]
      rfl
    · rw [List.map_cons, hwords]
      rfl

theorem Layout.ofText {ws : List Word} {text : String} (h : Layout ws text.toList)
    (hws : ∀ w ∈ ws, w.Whole) : ∃ (tokens : List Token) (finish : Position),
      TokenStream.ofText text = ⟨tokens.map .ok, finish⟩ ∧ tokens.map Token.word = ws := by
  obtain ⟨tokens, htokens, hwords⟩ := h.results hws {}
  exact ⟨tokens, _, congrArg (TokenStream.mk · _) htokens, hwords⟩

theorem layout_spaced (ws : List Word) :
    Layout ws (ws.flatMap fun w => ' ' :: w.lexeme.toList) := by
  induction ws with
  | nil => exact .blanks (by simp)
  | cons w ws ih =>
    have hnext : BlankAhead (ws.flatMap fun w => ' ' :: w.lexeme.toList) := by
      cases ws with
      | nil => simp [BlankAhead]
      | cons w' ws =>
        intro c hc
        obtain rfl : ' ' = c := by simpa using hc
        decide
    have hgap : ∀ c ∈ [' '], Text.isBlank c = true := List.forall_mem_singleton.mpr rfl
    exact .word w hgap hnext ih

end FortressLang
