import FortressLang.Proofs.WrittenWords
import Mathlib.Algebra.Group.Nat.Defs

/-! What a piece of a text is, apart from how it is cut off: gaps, lexemes, each the longest of its
class, and what is neither. Every piece that is cut off is exact in front of what follows it. -/
namespace FortressLang

/-- Somewhere in the text stand two exclamation marks. -/
def Marked (cs : List Char) : Prop := ['!', '!'] <:+: cs

instance (cs : List Char) : Decidable (Marked cs) := inferInstanceAs (Decidable (_ <:+: cs))

def Run (first next : Char → Bool) (cs : List Char) : Prop :=
  ∃ c ds, cs = c :: ds ∧ first c = true ∧ ∀ d ∈ ds, next d = true

def IsWord : List Char → Prop := Run Char.isUpper Piece.isNameChar

def IsVariable : List Char → Prop := Run Char.isLower Piece.isVarChar

def IsNumeral : List Char → Prop := Run Char.isDigit Char.isDigit

def numeralValue (cs : List Char) : Nat := Nat.ofDigitChars 10 cs 0

/-- A text of a class, of which in front of this rest no longer one is in the class. -/
def Longest (P : List Char → Prop) (cs rest : List Char) : Prop :=
  P cs ∧ ∀ more, more ≠ [] → more <+: rest → ¬P (cs ++ more)

def Terminal.marks : List Terminal :=
  [.comma, .assign, .equal, .smaller, .greater, .plus, .minus, .times, .divide, .lparen, .rparen]

/-- Neither a gap nor a lexeme begins with the character in front of this rest. -/
structure Strange (c : Char) (rest : List Char) : Prop where
  blank : Text.isBlank c = false
  remark : c ≠ '$'
  comment : ¬['!', '!'] <+: c :: rest
  run : ∀ cs, cs <+: c :: rest → ¬IsWord cs ∧ ¬IsVariable cs ∧ ¬IsNumeral cs
  mark : ∀ t ∈ Terminal.marks, ¬t.spelling.toList <+: c :: rest

/-- A piece of this kind with these characters in front of this rest. A remark ends in front of a
line feed, and a comment is closed where it can be closed first. -/
inductive Piece.Exact : Piece.Kind → List Char → List Char → Prop
  | blanks {cs rest : List Char} : cs ≠ [] → (∀ c ∈ cs, Text.isBlank c = true) → Exact .gap cs rest
  | remark {body rest : List Char} : '\n' ∉ body → (∀ c, rest.head? = some c → c = '\n') →
    Exact .gap ('$' :: body) rest
  | comment {body rest : List Char} : ¬Marked (body ++ ['!']) →
    Exact .gap ('!' :: '!' :: (body ++ ['!', '!'])) rest
  | mark {t : Terminal} {rest : List Char} : t ∈ Terminal.marks →
    Exact (.lexeme t) t.spelling.toList rest
  | keyword {t : Terminal} {rest : List Char} : t ∈ Terminal.keywords →
    Longest IsWord t.spelling.toList rest → Exact (.lexeme t) t.spelling.toList rest
  | progName {cs rest : List Char} : Longest IsWord cs rest →
    (∀ t ∈ Terminal.keywords, cs ≠ t.spelling.toList) → Exact (.lexeme .progName) cs rest
  | varName {cs rest : List Char} : Longest IsVariable cs rest → Exact (.lexeme .varName) cs rest
  | number {cs rest : List Char} : Longest IsNumeral cs rest → numeralValue cs < 2 ^ 31 →
    Exact (.lexeme .number) cs rest
  | overflow {cs rest : List Char} : Longest IsNumeral cs rest → 2 ^ 31 ≤ numeralValue cs →
    Exact .overflow cs rest
  | unclosed {body : List Char} : ¬Marked body → Exact .unclosed ('!' :: '!' :: body) []
  | stray {c : Char} {rest : List Char} : Strange c rest → Exact .stray [c] rest

section

variable {first next : Char → Bool} {c : Char} {cs rest : List Char}

theorem run_cons : Run first next (c :: cs) ↔ first c = true ∧ ∀ d ∈ cs, next d = true := by
  constructor
  · rintro ⟨_, _, h, hc, hcs⟩
    obtain ⟨rfl, rfl⟩ := List.cons.inj h
    exact ⟨hc, hcs⟩
  · rintro ⟨hc, hcs⟩
    exact ⟨c, cs, rfl, hc, hcs⟩

theorem longest_run_iff : Longest (Run first next) (c :: cs) rest ↔
    first c = true ∧ (∀ d ∈ cs, next d = true) ∧ ∀ d, rest.head? = some d → next d = false := by
  rw [Longest, run_cons, and_assoc]
  refine and_congr_right fun hc => and_congr_right fun hcs => ⟨fun h d hd => ?_, fun h more => ?_⟩
  · obtain ⟨rest, rfl⟩ := List.head?_eq_some_iff.mp hd
    have hlonger := h [d] (by simp) ⟨rest, rfl⟩
    rw [List.cons_append, run_cons] at hlonger
    by_contra hnext
    refine hlonger ⟨hc, List.forall_mem_append.mpr ⟨hcs, ?_⟩⟩
    simpa using hnext
  · rintro hmore ⟨rest, rfl⟩ hrun
    cases more with
    | nil => exact hmore rfl
    | cons d more =>
      rw [List.cons_append, run_cons, List.forall_mem_append, List.forall_mem_cons] at hrun
      rw [h d rfl] at hrun
      exact absurd hrun.2.2.1 (by decide)

theorem longest_span (hc : first c = true) (cs : List Char) :
    Longest (Run first next) (c :: cs.takeWhile next) (cs.dropWhile next) := by
  refine longest_run_iff.mpr ⟨hc, fun d hd => List.mem_takeWhile_imp hd, fun d hd => ?_⟩
  have hstop := List.head?_dropWhile_not next cs
  rw [hd] at hstop
  simpa using hstop

theorem Longest.span (h : Longest (Run first next) (c :: cs) rest) :
    (cs ++ rest).takeWhile next = cs ∧ (cs ++ rest).dropWhile next = rest :=
  span_exact (longest_run_iff.mp h).2.1 (longest_run_iff.mp h).2.2

theorem Longest.run (h : Longest (Run first next) cs rest) :
    ∃ c ds, cs = c :: ds ∧ first c = true := by
  obtain ⟨c, ds, rfl, hc, -⟩ := h.1
  exact ⟨c, ds, rfl, hc⟩

end

theorem marked_cons {c : Char} {cs : List Char} :
    Marked (c :: cs) ↔ ['!', '!'] <+: c :: cs ∨ Marked cs := List.infix_cons_iff

/-- A text with a mark in it is a body up to the first mark, which the body has no part in. -/
theorem Marked.exists_body {cs : List Char} (h : Marked cs) :
    ∃ body rest, cs = body ++ '!' :: '!' :: rest ∧ ¬Marked (body ++ ['!']) := by
  induction cs with
  | nil => simp [Marked] at h
  | cons c cs ih =>
    by_cases hc : ['!', '!'] <+: c :: cs
    · obtain ⟨rest, hrest⟩ := hc
      exact ⟨[], rest, hrest.symm, by simp [Marked, List.infix_cons_iff]⟩
    · obtain ⟨body, rest, rfl, hbody⟩ := ih ((marked_cons.mp h).resolve_left hc)
      refine ⟨c :: body, rest, rfl, ?_⟩
      rw [List.cons_append, marked_cons, not_or]
      refine ⟨fun hp => hc ?_, hbody⟩
      exact hp.trans ⟨'!' :: rest, by simp⟩

namespace Piece

theorem closing?_cons {c : Char} {cs : List Char} (h : ¬['!', '!'] <+: c :: cs) (passed : Nat) :
    closing? passed (c :: cs) = closing? (passed + 1) cs := by
  rw [closing?]
  rintro cs rfl rfl
  exact h ⟨cs, rfl⟩

/-- A comment is closed by the first mark after its opening. -/
theorem closing?_append {body : List Char} (h : ¬Marked (body ++ ['!'])) (passed : Nat)
    (rest : List Char) :
    closing? passed (body ++ '!' :: '!' :: rest) = some (passed + body.length + 2) := by
  induction body generalizing passed with
  | nil => rfl
  | cons c body ih =>
    rw [List.cons_append, marked_cons, not_or] at h
    have hnext : ¬['!', '!'] <+: c :: (body ++ '!' :: '!' :: rest) := fun hp =>
      h.1 (List.prefix_of_prefix_length_le hp ⟨'!' :: rest, by simp⟩ (by simp))
    rw [List.cons_append, closing?_cons hnext, ih h.2, List.length_cons]
    congr 1
    omega

theorem closing?_eq_none_iff {passed : Nat} {cs : List Char} :
    closing? passed cs = none ↔ ¬Marked cs := by
  induction cs generalizing passed with
  | nil => simp [closing?, Marked]
  | cons c cs ih =>
    by_cases h : ['!', '!'] <+: c :: cs
    · obtain ⟨rest, hrest⟩ := h
      simp [← hrest, closing?, Marked, List.infix_cons_iff]
    · rw [closing?_cons h, ih, marked_cons, not_or, and_iff_right h]

section

variable {c : Char} {cs ds rest : List Char}

theorem int32?_isSome_iff (h : IsNumeral cs) :
    (Decimal.int32? cs).isSome ↔ numeralValue cs < 2 ^ 31 := by
  obtain ⟨c, ds, rfl, hc, hds⟩ := h
  have hdigits : (c :: ds).all Char.isDigit = true :=
    List.all_eq_true.mpr (List.forall_mem_cons.mpr ⟨hc, hds⟩)
  have hnatural : Decimal.natural? (c :: ds) = some (numeralValue (c :: ds)) := by
    rw [Decimal.natural?, if_pos ⟨List.cons_ne_nil _ _, hdigits⟩, numeralValue]
  have hfits : Decimal.fits (numeralValue (c :: ds) : Int) = true ↔
      numeralValue (c :: ds) < 2 ^ 31 := by
    have hmin : Int32.minValue.toInt = -2 ^ 31 := rfl
    have hmax : Int32.maxValue.toInt = 2 ^ 31 - 1 := rfl
    rw [Decimal.fits, decide_eq_true_iff, hmin, hmax]
    omega
  rw [Decimal.int32?, Decimal.integer?_of_natural? hnatural, Option.bind_some, ← hfits]
  split <;> simp_all

theorem exact_numeral (h : Longest IsNumeral cs rest) : Exact (numberKind cs) cs rest := by
  have hfits := int32?_isSome_iff h.1
  rw [numberKind]
  split
  · rename_i hsome
    exact .number h (hfits.mp hsome)
  · rename_i hnone
    exact .overflow h (Nat.le_of_not_lt fun hlt => hnone (hfits.mpr hlt))

theorem keyword?_eq_some {t : Terminal} {s : String} (h : Terminal.keyword? s = some t) :
    t ∈ Terminal.keywords ∧ t.spelling = s :=
  ⟨List.mem_of_find?_eq_some h, by simpa using List.find?_some h⟩

theorem exact_word (h : Longest IsWord cs rest) : Exact (nameKind cs) cs rest := by
  rw [nameKind]
  cases hk : Terminal.keyword? (String.ofList cs) with
  | none =>
    refine .progName h fun t ht hcs => ?_
    have hother := List.find?_eq_none.mp hk t ht
    simp [hcs] at hother
  | some t =>
    obtain ⟨ht, hspelling⟩ := keyword?_eq_some hk
    obtain rfl : t.spelling.toList = cs := by rw [hspelling, String.toList_ofList]
    exact .keyword ht h

theorem mark?_eq_some {t : Terminal} (h : mark? c = some t) :
    t ∈ Terminal.marks ∧ t.spelling.toList = [c] := by
  unfold mark? at h
  split at h <;> cases h <;> exact ⟨by decide, rfl⟩

theorem spelling_of_mem_marks : ∀ t ∈ Terminal.marks,
    t.spelling.toList.head?.bind mark? = some t ∨
      t.spelling.toList = [':', '='] := by
  decide

theorem mark?_of_spelling {t : Terminal} (ht : t ∈ Terminal.marks)
    (h : t.spelling.toList <+: c :: cs) : mark? c = some t ∨ c = ':' ∧ cs.head? = some '=' := by
  obtain ⟨more, hmore⟩ := h
  rcases spelling_of_mem_marks t ht with hmark | hassign
  · cases hs : t.spelling.toList with
    | nil => simp [hs] at hmark
    | cons d ds =>
      rw [hs] at hmore hmark
      obtain ⟨rfl, -⟩ := List.cons.inj hmore
      exact .inl hmark
  · rw [hassign] at hmore
    obtain ⟨rfl, rfl⟩ := List.cons.inj hmore
    exact .inr ⟨rfl, rfl⟩

/-- Whatever is cut off is exact in front of what follows it. -/
theorem exact_split (c : Char) (cs : List Char) :
    Exact (split c cs).1 (c :: (split c cs).2.1) (split c cs).2.2 := by
  unfold split
  split
  · rename_i hblank
    exact .blanks (List.cons_ne_nil _ _)
      (List.forall_mem_cons.mpr ⟨hblank, fun d hd => List.mem_takeWhile_imp hd⟩)
  split
  · rename_i hremark
    subst hremark
    refine .remark (fun hmem => ?_) fun d hd => ?_
    · simpa using List.mem_takeWhile_imp hmem
    · have hstop := List.head?_dropWhile_not (· ≠ '\n') cs
      rw [hd] at hstop
      simpa using hstop
  split
  · rename_i hdigit
    exact exact_numeral (longest_span hdigit cs)
  split
  · rename_i hlower
    exact .varName (longest_span hlower cs)
  split
  · rename_i hupper
    exact exact_word (longest_span hupper cs)
  split
  · rename_i hassign
    obtain ⟨rfl, hhead⟩ := hassign
    obtain ⟨rest, rfl⟩ := List.head?_eq_some_iff.mp hhead
    exact .mark (t := .assign) (by decide)
  split
  · rename_i hcomment
    obtain ⟨rfl, hhead⟩ := hcomment
    obtain ⟨rest, rfl⟩ := List.head?_eq_some_iff.mp hhead
    rw [List.drop_one, List.tail_cons]
    split
    · rename_i n hn
      have hmarked : Marked rest := by
        by_contra hnone
        rw [closing?_eq_none_iff.mpr hnone] at hn
        cases hn
      obtain ⟨body, rest, rfl, hbody⟩ := hmarked.exists_body
      rw [closing?_append hbody] at hn
      obtain rfl := Option.some.inj hn
      have hlength : 1 + body.length + 2 = ('!' :: (body ++ ['!', '!'])).length := by
        simp only [List.length_cons, List.length_append, List.length_nil]
        omega
      have hrest : '!' :: (body ++ '!' :: '!' :: rest) =
          ('!' :: (body ++ ['!', '!'])) ++ rest := by simp
      rw [hrest, hlength, List.take_left, List.drop_left]
      exact .comment hbody
    · rename_i hnone
      exact .unclosed (closing?_eq_none_iff.mp hnone)
  · rename_i hblank hremark hdigit hlower hupper hassign hcomment
    split
    · rename_i t ht
      obtain ⟨hmem, hspelling⟩ := mark?_eq_some ht
      rw [← hspelling]
      exact .mark hmem
    · rename_i hmark
      refine .stray ⟨by simpa using hblank, hremark, ?_, ?_, ?_⟩
      · rintro ⟨rest, hrest⟩
        obtain ⟨rfl, rfl⟩ := List.cons.inj hrest
        exact hcomment ⟨rfl, rfl⟩
      · rintro ds ⟨more, hmore⟩
        refine ⟨?_, ?_, ?_⟩ <;> rintro ⟨d, es, rfl, hd, -⟩ <;>
          obtain ⟨rfl, -⟩ := List.cons.inj hmore
        · exact hupper hd
        · exact hlower hd
        · exact hdigit hd
      · intro t ht hprefix
        rcases mark?_of_spelling ht hprefix with hsome | hsome
        · rw [hmark] at hsome
          cases hsome
        · exact hassign hsome

end

end Piece

end FortressLang
