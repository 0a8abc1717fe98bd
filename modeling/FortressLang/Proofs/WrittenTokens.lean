import FortressLang.Proofs.ExactResults
import FortressLang.Proofs.TiledText

/-! Tokens that are written out with blanks, remarks and comments between them are read back,
however they are laid out. -/
namespace FortressLang

/-- The texts of a terminal. -/
inductive Lexeme : Terminal → List Char → Prop
  | mark {t : Terminal} : t ∈ Terminal.marks → Lexeme t t.spelling.toList
  | keyword {t : Terminal} : t ∈ Terminal.keywords → Lexeme t t.spelling.toList
  | progName {cs : List Char} : IsWord cs → (∀ t ∈ Terminal.keywords, cs ≠ t.spelling.toList) →
    Lexeme .progName cs
  | varName {cs : List Char} : IsVariable cs → Lexeme .varName cs
  | number {cs : List Char} : IsNumeral cs → numeralValue cs < 2 ^ 31 → Lexeme .number cs

/-- What may stand between two tokens: a blank, a remark with the line feed that ends it, or a
comment that is not closed before its end. -/
inductive Separator : List Char → Prop
  | blank {c : Char} : Text.isBlank c = true → Separator [c]
  | remark {body : List Char} : '\n' ∉ body → Separator ('$' :: (body ++ ['\n']))
  | comment {body : List Char} :
    (∀ before after, body ++ ['!', '!'] = before ++ '!' :: '!' :: after → after = []) →
    Separator ('!' :: '!' :: (body ++ ['!', '!']))

/-- A text of words, each with the separators behind it, and separators in front of them all. -/
def writeOut (lead : List (List Char)) (ws : List (Word × List (List Char))) : List Char :=
  lead.flatten ++ ws.flatMap fun w => w.1.lexeme.toList ++ w.2.flatten

/-- No character ahead can go on with a name, a variable or a number. -/
def NameEnds (rest : List Char) : Prop := ∀ c, rest.head? = some c → Piece.isNameChar c = false

/-- Two exclamation marks stand only at the end if they stand nowhere before the last one. -/
theorem closed_iff {body : List Char} :
    (∀ before after, body ++ ['!', '!'] = before ++ '!' :: '!' :: after → after = []) ↔
      ¬Marked (body ++ ['!']) := by
  constructor
  · rintro h ⟨before, after, hbody⟩
    have hafter := h before (after ++ ['!']) (by simpa using congrArg (· ++ ['!']) hbody.symm)
    simp at hafter
  · intro h before after hbody
    by_contra hafter
    obtain ⟨after, c, rfl⟩ := (List.eq_nil_or_concat after).resolve_left hafter
    have hlast : (body ++ ['!']) ++ ['!'] = (before ++ '!' :: '!' :: after) ++ [c] := by
      simpa using hbody
    exact h ⟨before, after, by simp [(List.append_inj' hlast rfl).1]⟩

namespace Separator

theorem head {x : List Char} (h : Separator x) :
    ∃ c cs, x = c :: cs ∧ Piece.isNameChar c = false := by
  cases h with
  | @blank c hc =>
    refine ⟨c, [], rfl, ?_⟩
    cases hname : Piece.isNameChar c with
    | false => rfl
    | true =>
      rw [Piece.isBlank_of_isNameChar hname] at hc
      cases hc
  | remark => exact ⟨'$', _, rfl, rfl⟩
  | comment => exact ⟨'!', _, rfl, rfl⟩

theorem results {x : List Char} (h : Separator x) (pos : Position) (rest : List Char) :
    Piece.results pos (x ++ rest) = Piece.results (pos.advance x) rest := by
  cases h with
  | blank hc => exact Piece.results_blank hc pos rest
  | @remark body hbody =>
    have hremark : Piece.Exact .gap ('$' :: body) ('\n' :: rest) :=
      .remark hbody fun c hc => (Option.some.inj hc).symm
    have hx : '$' :: (body ++ ['\n']) ++ rest = '$' :: body ++ '\n' :: rest := by simp
    rw [hx, hremark.results, Piece.results_blank (by decide), ← Position.advance_append]
    rfl
  | comment hbody =>
    have hcomment : Piece.Exact .gap _ rest := .comment (closed_iff.mp hbody)
    rw [hcomment.results]
    rfl

theorem results_flatten {xs : List (List Char)} (h : ∀ x ∈ xs, Separator x) (pos : Position)
    (rest : List Char) :
    Piece.results pos (xs.flatten ++ rest) = Piece.results (pos.advance xs.flatten) rest := by
  induction xs generalizing pos with
  | nil => rfl
  | cons x xs ih =>
    rw [List.forall_mem_cons] at h
    rw [List.flatten_cons, List.append_assoc, h.1.results, ih h.2, Position.advance_append]

end Separator

/-- A run ends where names end. -/
theorem longest_of_nameEnds {first next : Char → Bool} {cs rest : List Char}
    (hnext : ∀ c, next c = true → Piece.isNameChar c = true) (h : Run first next cs)
    (hrest : NameEnds rest) : Longest (Run first next) cs rest := by
  obtain ⟨c, ds, rfl, hc, hds⟩ := h
  refine longest_run_iff.mpr ⟨hc, hds, fun d hd => ?_⟩
  by_contra hcontra
  have hname := hnext d (by simpa using hcontra)
  rw [hrest d hd] at hname
  cases hname

theorem isWord_of_keyword : ∀ t ∈ Terminal.keywords, IsWord t.spelling.toList := by
  intro t ht
  simp only [Terminal.keywords, List.mem_cons, List.not_mem_nil, or_false] at ht
  rcases ht with rfl | rfl | rfl | rfl | rfl | rfl | rfl | rfl | rfl <;>
    exact ⟨_, _, rfl, rfl, List.all_eq_true.mp (by decide)⟩

theorem Lexeme.exact {t : Terminal} {cs rest : List Char} (h : Lexeme t cs)
    (hrest : NameEnds rest) : Piece.Exact (.lexeme t) cs rest := by
  cases h with
  | mark ht => exact .mark ht
  | keyword ht =>
    exact .keyword ht (longest_of_nameEnds (fun _ h => h) (isWord_of_keyword t ht) hrest)
  | progName hword hother =>
    exact .progName (longest_of_nameEnds (fun _ h => h) hword hrest) hother
  | varName hvariable =>
    exact .varName (longest_of_nameEnds (fun _ => Piece.isNameChar_of_isVarChar) hvariable hrest)
  | number hnumeral hvalue =>
    exact .number (longest_of_nameEnds (fun _ => Piece.isNameChar_of_isDigit) hnumeral hrest) hvalue

theorem nameEnds_flatten {xs : List (List Char)} (h : ∀ x ∈ xs, Separator x) (hne : xs ≠ [])
    (rest : List Char) : NameEnds (xs.flatten ++ rest) := by
  cases xs with
  | nil => exact absurd rfl hne
  | cons x xs =>
    obtain ⟨c, cs, rfl, hc⟩ := (h x List.mem_cons_self).head
    rintro d ⟨⟩
    exact hc

theorem results_words {ws : List (Word × List (List Char))}
    (hws : ∀ w ∈ ws, Lexeme w.1.terminal w.1.lexeme.toList ∧ ∀ x ∈ w.2, Separator x)
    (hsep : ∀ w ∈ ws.dropLast, w.2 ≠ []) (pos : Position) :
    ∃ tokens : List Token,
      Piece.results pos (ws.flatMap fun w => w.1.lexeme.toList ++ w.2.flatten) = tokens.map .ok ∧
        tokens.map Token.word = ws.map Prod.fst := by
  induction ws generalizing pos with
  | nil => exact ⟨[], by simp [Piece.results, Piece.cut], rfl⟩
  | cons w ws ih =>
    rw [List.forall_mem_cons] at hws
    obtain ⟨⟨hlexeme, hseparators⟩, hws⟩ := hws
    have hends :
        NameEnds (w.2.flatten ++ ws.flatMap fun w => w.1.lexeme.toList ++ w.2.flatten) := by
      by_cases hw : w.2 = []
      · cases ws with
        | nil => simp [hw, NameEnds]
        | cons w' ws => exact absurd hw (hsep w (by simp))
      · exact nameEnds_flatten hseparators hw _
    have hrest : ∀ v ∈ ws.dropLast, v.2 ≠ [] := by
      cases ws with
      | nil => simp
      | cons w' ws => exact fun v hv => hsep v (List.mem_cons_of_mem _ hv)
    obtain ⟨tokens, htokens, hwords⟩ :=
      ih hws hrest ((pos.advance w.1.lexeme.toList).advance w.2.flatten)
    refine ⟨⟨w.1.terminal, w.1.lexeme, pos⟩ :: tokens, ?_, ?_⟩
    · rw [List.flatMap_cons, List.append_assoc, (hlexeme.exact hends).results,
        Separator.results_flatten hseparators, htokens]
      simp [Piece.result?]
    · rw [List.map_cons, hwords]
      rfl

/-- For all words that are lexemes of their terminals, and all separators in front of them, between
any two of them and behind them: the text that they make up is read as these words in order, without
an error, and then comes the end of the stream. -/
theorem written_tokens_are_read_back {lead : List (List Char)}
    {ws : List (Word × List (List Char))} (hlead : ∀ x ∈ lead, Separator x)
    (hws : ∀ w ∈ ws, Lexeme w.1.terminal w.1.lexeme.toList ∧ ∀ x ∈ w.2, Separator x)
    (hsep : ∀ w ∈ ws.dropLast, w.2 ≠ []) :
    ∃ tokens : List Token,
      TokenStream.ofText (String.ofList (writeOut lead ws)) =
        ⟨tokens.map .ok, .behind (writeOut lead ws)⟩ ∧
      tokens.map Token.word = ws.map Prod.fst := by
  obtain ⟨tokens, htokens, hwords⟩ :=
    results_words hws hsep (({} : Position).advance lead.flatten)
  refine ⟨tokens, ?_, hwords⟩
  rw [← htokens, ← Separator.results_flatten hlead, ← Position.advance_eq_behind,
    TokenStream.ofText, String.toList_ofList]
  rfl

def remarkedAssignment : List (Word × List (List Char)) :=
  [(⟨.varName, "x1"⟩, ["!!$ a ! b\n!!".toList]), (⟨.assign, ":="⟩, [" ".toList, "!!!!".toList]),
    (⟨.number, "007"⟩, [])]

theorem remarked_assignment_is_read_back :
    (∀ x ∈ ["$ !! BEGIN\n".toList], Separator x) ∧
    (∀ w ∈ remarkedAssignment,
      Lexeme w.1.terminal w.1.lexeme.toList ∧ ∀ x ∈ w.2, Separator x) ∧
    (∀ w ∈ remarkedAssignment.dropLast, w.2 ≠ []) ∧
    ∃ tokens : List Token,
      TokenStream.ofText "$ !! BEGIN\nx1!!$ a ! b\n!!:= !!!!007" = ⟨tokens.map .ok, ⟨3, 13⟩⟩ ∧
      tokens.map Token.word = [⟨.varName, "x1"⟩, ⟨.assign, ":="⟩, ⟨.number, "007"⟩] := by
  have hlead : ∀ x ∈ ["$ !! BEGIN\n".toList], Separator x :=
    List.forall_mem_singleton.mpr (@Separator.remark " !! BEGIN".toList (by decide +kernel))
  have hfirst : Separator "!!$ a ! b\n!!".toList :=
    @Separator.comment "$ a ! b\n".toList (closed_iff.mpr (by decide +kernel))
  have hspace : Separator " ".toList := .blank (by decide +kernel)
  have hempty : Separator "!!!!".toList :=
    @Separator.comment [] (closed_iff.mpr (by decide +kernel))
  have hassign : Lexeme .assign ":=".toList := .mark (t := .assign) (by decide +kernel)
  have hname : IsVariable "x1".toList := ⟨'x', ['1'], rfl, rfl, List.all_eq_true.mp rfl⟩
  have hnumeral : IsNumeral "007".toList :=
    ⟨'0', ['0', '7'], rfl, rfl, List.all_eq_true.mp rfl⟩
  have hwords : ∀ w ∈ remarkedAssignment,
      Lexeme w.1.terminal w.1.lexeme.toList ∧ ∀ x ∈ w.2, Separator x := by
    simp only [remarkedAssignment, List.forall_mem_cons]
    refine ⟨⟨.varName hname, hfirst, ?_⟩, ⟨hassign, hspace, hempty, ?_⟩,
      ⟨.number hnumeral (by decide +kernel), ?_⟩, ?_⟩ <;> exact List.forall_mem_nil _
  have hsep : ∀ w ∈ remarkedAssignment.dropLast, w.2 ≠ [] := by decide +kernel
  have htext : String.ofList (writeOut ["$ !! BEGIN\n".toList] remarkedAssignment) =
      "$ !! BEGIN\nx1!!$ a ! b\n!!:= !!!!007" := by decide +kernel
  have hfinish :
      Position.behind (writeOut ["$ !! BEGIN\n".toList] remarkedAssignment) = ⟨3, 13⟩ := by
    decide +kernel
  have hread := written_tokens_are_read_back hlead hwords hsep
  rw [htext, hfinish] at hread
  exact ⟨hlead, hwords, hsep, hread⟩

end FortressLang
