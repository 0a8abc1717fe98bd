import FortressLang.Proofs.ExactPieces

/-! An exact piece in front of the rest of a text has its own result there, and is cut off whole
unless it is made of blanks, which are passed over together with those behind them. -/
namespace FortressLang
namespace Piece

section

variable {c : Char} {cs ds rest : List Char}

theorem split_numeral (h : Longest IsNumeral (c :: ds) rest) :
    split c (ds ++ rest) = (numberKind (c :: ds), ds, rest) := by
  obtain ⟨htake, hdrop⟩ := h.span
  have hdigit : c.isDigit = true := (longest_run_iff.mp h).1
  rw [split_of_isNameChar (isNameChar_of_isDigit hdigit), if_pos hdigit, htake, hdrop]

theorem split_variable (h : Longest IsVariable (c :: ds) rest) :
    split c (ds ++ rest) = (.lexeme .varName, ds, rest) := by
  obtain ⟨htake, hdrop⟩ := h.span
  have hlower : c.isLower = true := (longest_run_iff.mp h).1
  rw [split_of_isNameChar (isNameChar_of_isLower hlower), if_neg (not_isDigit_of_isLower hlower),
    if_pos hlower, htake, hdrop]

theorem split_word (h : Longest IsWord (c :: ds) rest) :
    split c (ds ++ rest) = (nameKind (c :: ds), ds, rest) := by
  obtain ⟨htake, hdrop⟩ := h.span
  have hupper : c.isUpper = true := (longest_run_iff.mp h).1
  rw [split_of_isNameChar (isNameChar_of_isUpper hupper), if_neg (not_isDigit_of_isUpper hupper),
    if_neg (not_isLower_of_isUpper hupper), if_pos hupper, htake, hdrop]

theorem split_opening (cs : List Char) : split '!' ('!' :: cs) =
    match closing? 1 cs with
    | some n => (.gap, ('!' :: cs).take n, ('!' :: cs).drop n)
    | none => (.unclosed, '!' :: cs, []) := rfl

theorem nameKind_keyword : ∀ t ∈ Terminal.keywords,
    nameKind t.spelling.toList = .lexeme t := by decide

theorem nameKind_name (h : ∀ t ∈ Terminal.keywords, cs ≠ t.spelling.toList) :
    nameKind cs = .lexeme .progName := by
  have hnone : Terminal.keyword? (String.ofList cs) = none := by
    refine List.find?_eq_none.mpr fun t ht => ?_
    rw [decide_eq_true_iff]
    rintro hspelling
    exact h t ht (by rw [hspelling, String.toList_ofList])
  rw [nameKind, hnone]
  rfl

theorem split_mark {t : Terminal} (ht : t ∈ Terminal.marks) (h : t.spelling.toList = c :: ds) :
    split c (ds ++ rest) = (.lexeme t, ds, rest) := by
  simp only [Terminal.marks, List.mem_cons, List.not_mem_nil, or_false] at ht
  rcases ht with rfl | rfl | rfl | rfl | rfl | rfl | rfl | rfl | rfl | rfl | rfl <;>
    obtain ⟨rfl, rfl⟩ := List.cons.inj h <;> rfl

theorem split_strange (h : Strange c rest) : split c rest = (.stray, [], rest) := by
  have hrun := h.run [c] ⟨rest, rfl⟩
  simp only [IsWord, IsVariable, IsNumeral, run_cons, List.not_mem_nil, false_imp_iff,
    implies_true, and_true] at hrun
  have hassign : ¬(c = ':' ∧ rest.head? = some '=') := by
    rintro ⟨rfl, hhead⟩
    obtain ⟨rest, rfl⟩ := List.head?_eq_some_iff.mp hhead
    exact h.mark .assign (by decide) ⟨rest, rfl⟩
  have hcomment : ¬(c = '!' ∧ rest.head? = some '!') := by
    rintro ⟨rfl, hhead⟩
    obtain ⟨rest, rfl⟩ := List.head?_eq_some_iff.mp hhead
    exact h.comment ⟨rest, rfl⟩
  have hmark : mark? c = none := by
    cases hm : mark? c with
    | none => rfl
    | some t =>
      obtain ⟨ht, hspelling⟩ := mark?_eq_some hm
      exact absurd ⟨rest, by rw [hspelling]; rfl⟩ (h.mark t ht)
  simp [split, h.blank, h.remark, hrun, hassign, hcomment, hmark]

/-- An exact piece is cut off whole, unless it is a gap of blanks. -/
theorem Exact.split_eq {k : Kind} (h : Exact k (c :: ds) rest) (hc : Text.isBlank c = false) :
    split c (ds ++ rest) = (k, ds, rest) := by
  generalize hcs : c :: ds = cs at h
  cases h with
  | blanks hne hblank =>
    subst hcs
    rw [hblank c List.mem_cons_self] at hc
    cases hc
  | remark hbody hend =>
    obtain ⟨rfl, rfl⟩ := List.cons.inj hcs
    have hother : ∀ d ∈ ds, decide (d ≠ '\n') = true :=
      fun d hd => decide_eq_true fun (h : d = '\n') => hbody (h ▸ hd)
    have hspan := span_exact hother fun d hd => by simpa using hend d hd
    rw [split, if_neg (by decide), if_pos rfl, hspan.1, hspan.2]
  | @comment body rest hbody =>
    obtain ⟨rfl, rfl⟩ := List.cons.inj hcs
    have hlength : 1 + body.length + 2 = ('!' :: (body ++ ['!', '!'])).length := by
      simp only [List.length_cons, List.length_append, List.length_nil]
      omega
    have hrest : body ++ ['!', '!'] ++ rest = body ++ '!' :: '!' :: rest := by simp
    rw [List.cons_append, split_opening, hrest, closing?_append hbody, ← hrest, ← List.cons_append,
      hlength]
    simp only [List.take_left, List.drop_left]
  | mark ht => exact split_mark ht hcs.symm
  | @keyword t rest ht hlongest =>
    have hkind := nameKind_keyword t ht
    rw [← hcs] at hlongest hkind
    rw [split_word hlongest, hkind]
  | progName hlongest hother =>
    subst hcs
    rw [split_word hlongest, nameKind_name hother]
  | varName hlongest =>
    subst hcs
    exact split_variable hlongest
  | number hlongest hvalue =>
    subst hcs
    rw [split_numeral hlongest, numberKind, if_pos ((int32?_isSome_iff hlongest.1).mpr hvalue)]
  | overflow hlongest hvalue =>
    subst hcs
    rw [split_numeral hlongest, numberKind,
      if_neg fun hsome => Nat.not_lt.mpr hvalue ((int32?_isSome_iff hlongest.1).mp hsome)]
  | unclosed hbody =>
    obtain ⟨rfl, rfl⟩ := List.cons.inj hcs
    rw [List.append_nil, split_opening, closing?_eq_none_iff.mpr hbody]
  | stray hstrange =>
    obtain ⟨rfl, rfl⟩ := List.cons.inj hcs
    exact split_strange hstrange

theorem results_blank (hc : Text.isBlank c = true) (pos : Position) (cs : List Char) :
    results pos (c :: cs) = results (pos.advance [c]) cs := by
  have hsplit (d : Char) (ds : List Char) (hd : Text.isBlank d = true) :
      split d ds = (.gap, ds.takeWhile Text.isBlank, ds.dropWhile Text.isBlank) := if_pos hd
  have hgap (cs : List Char) (pos : Position) : result? ⟨.gap, cs, pos⟩ = none := rfl
  rw [results_cons, hsplit c cs hc, hgap]
  cases cs with
  | nil => rfl
  | cons d ds =>
    by_cases hd : Text.isBlank d = true
    · rw [results_cons, hsplit d ds hd, hgap]
      simp [List.takeWhile_cons_of_pos hd, List.dropWhile_cons_of_pos hd, Position.advance]
    · simp [hd]

theorem results_blanks {cs : List Char} (h : ∀ c ∈ cs, Text.isBlank c = true) (pos : Position)
    (rest : List Char) : results pos (cs ++ rest) = results (pos.advance cs) rest := by
  induction cs generalizing pos with
  | nil => rfl
  | cons c cs ih =>
    rw [List.forall_mem_cons] at h
    rw [List.cons_append, results_blank h.1, ih h.2]
    rfl

theorem isBlank_of_run {first next : Char → Bool}
    (hfirst : ∀ c, first c = true → isNameChar c = true) (h : Longest (Run first next) cs rest) :
    ∃ c ds, cs = c :: ds ∧ Text.isBlank c = false := by
  obtain ⟨c, ds, rfl, hc⟩ := h.run
  exact ⟨c, ds, rfl, isBlank_of_isNameChar (hfirst c hc)⟩

theorem isBlank_of_marks : ∀ t ∈ Terminal.marks,
    t.spelling.toList.head?.any (!Text.isBlank ·) = true := by decide

theorem Exact.blanks_or {k : Kind} (h : Exact k cs rest) :
    (k = .gap ∧ ∀ c ∈ cs, Text.isBlank c = true) ∨
      ∃ c ds, cs = c :: ds ∧ Text.isBlank c = false := by
  cases h with
  | blanks hne hblank => exact .inl ⟨rfl, hblank⟩
  | remark => exact .inr ⟨'$', _, rfl, rfl⟩
  | comment => exact .inr ⟨'!', _, rfl, rfl⟩
  | @mark t rest ht =>
    have hhead := isBlank_of_marks t ht
    cases hs : t.spelling.toList with
    | nil => simp [hs] at hhead
    | cons c ds => exact .inr ⟨c, ds, rfl, by simpa [hs] using hhead⟩
  | keyword ht hlongest | progName hlongest hother =>
    exact .inr (isBlank_of_run (fun _ => isNameChar_of_isUpper) hlongest)
  | varName hlongest => exact .inr (isBlank_of_run (fun _ => isNameChar_of_isLower) hlongest)
  | number hlongest hvalue | overflow hlongest hvalue =>
    exact .inr (isBlank_of_run (fun _ => isNameChar_of_isDigit) hlongest)
  | unclosed => exact .inr ⟨'!', _, rfl, rfl⟩
  | stray hstrange => exact .inr ⟨_, [], rfl, hstrange.blank⟩

/-- An exact piece has its own result, and then come the results of what follows it. -/
theorem Exact.results {k : Kind} (h : Exact k cs rest) (pos : Position) :
    results pos (cs ++ rest) =
      (result? ⟨k, cs, pos⟩).toList ++ results (pos.advance cs) rest := by
  rcases h.blanks_or with ⟨rfl, hblank⟩ | ⟨c, ds, rfl, hc⟩
  · exact results_blanks hblank pos rest
  · rw [List.cons_append, results_cons, h.split_eq hc]

end

end Piece

end FortressLang
