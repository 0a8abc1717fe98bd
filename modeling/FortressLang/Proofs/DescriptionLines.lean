import FortressLang.Proofs.DescribedGrammar
import Mathlib.Data.List.TakeWhile

/-! The lines of a grammar description, apart from how they are read: what a symbol may be spelled
as, which fields make up a production, and what is at fault where they do not. Every line is read as
what it is. -/
namespace FortressLang

def Blank (cs : List Char) : Prop := ∀ c ∈ cs, Text.isBlank c = true

instance (cs : List Char) : Decidable (Blank cs) :=
  List.decidableBAll (Text.isBlank · = true) cs

def Padded (cs core : List Char) : Prop :=
  ∃ lead trail, Blank lead ∧ Blank trail ∧ cs = lead ++ core ++ trail

namespace Padded

variable {cs core : List Char}

theorem trimChars_eq (h : Padded cs core) : Text.trimChars cs = Text.trimChars core := by
  obtain ⟨lead, trail, hlead, htrail, rfl⟩ := h
  unfold Text.trimChars
  rw [List.append_assoc, List.dropWhile_append_of_pos hlead, List.dropWhile_append]
  split
  · rename_i hcore
    have htrail : trail.dropWhile Text.isBlank = [] := List.dropWhile_eq_nil_iff.mpr htrail
    rw [htrail, List.isEmpty_iff.mp hcore]
  · have hreversed : Blank trail.reverse := fun c hc => htrail c (List.mem_reverse.mp hc)
    rw [List.reverse_append, List.dropWhile_append_of_pos hreversed]

theorem trim (cs : List Char) : Padded cs (Text.trimChars cs) := by
  let rest := cs.dropWhile Text.isBlank
  refine ⟨cs.takeWhile Text.isBlank, (rest.reverse.takeWhile Text.isBlank).reverse,
    fun c hc => List.mem_takeWhile_imp hc,
    fun c hc => List.mem_takeWhile_imp (List.mem_reverse.mp hc), ?_⟩
  have hrest : Text.trimChars cs ++ (rest.reverse.takeWhile Text.isBlank).reverse = rest := by
    rw [Text.trimChars, ← List.reverse_append, List.takeWhile_append_dropWhile,
      List.reverse_reverse]
  rw [List.append_assoc, hrest, List.takeWhile_append_dropWhile]

end Padded

namespace Text

variable {separator : Char}

theorem splitOn_cons_of_ne {c : Char} (hc : c ≠ separator) (cs : List Char) :
    (c :: cs).splitOn separator = (cs.splitOn separator).modifyHead (List.cons c) := by
  rw [List.splitOn_eq_splitOnP, List.splitOn_eq_splitOnP, List.splitOnP_cons_eq_if_modifyHead,
    if_neg (by simpa using hc)]

theorem splitOn_cons_self (cs : List Char) :
    (separator :: cs).splitOn separator = [] :: cs.splitOn separator := by
  rw [List.splitOn_eq_splitOnP, List.splitOn_eq_splitOnP, List.splitOnP_cons_eq_if_modifyHead,
    if_pos (by simp)]

theorem forall₂_trail (hseparator : isBlank separator = false) (cs : List Char)
    {trail : List Char} (htrail : Blank trail) :
    List.Forall₂ (fun f g => ∃ ds, Blank ds ∧ f = g ++ ds) ((cs ++ trail).splitOn separator)
      (cs.splitOn separator) := by
  have hrefl (fs : List (List Char)) :
      List.Forall₂ (fun f g => ∃ ds, Blank ds ∧ f = g ++ ds) fs fs :=
    List.forall₂_same.mpr fun f _ => ⟨[], List.forall_mem_nil _, (List.append_nil f).symm⟩
  induction cs with
  | nil =>
    have hone : trail.splitOn separator = [trail] := by
      refine List.splitOnP_eq_singleton fun c hc => ?_
      rw [beq_eq_false_iff_ne]
      rintro rfl
      rw [htrail _ hc] at hseparator
      cases hseparator
    rw [List.nil_append, hone]
    exact .cons ⟨trail, htrail, rfl⟩ .nil
  | cons c cs ih =>
    by_cases hc : c = separator
    · subst hc
      rw [List.cons_append, splitOn_cons_self, splitOn_cons_self]
      exact .cons ⟨[], List.forall_mem_nil _, rfl⟩ ih
    · rw [List.cons_append, splitOn_cons_of_ne hc, splitOn_cons_of_ne hc]
      generalize (cs ++ trail).splitOn separator = fs, cs.splitOn separator = gs at ih
      cases ih with
      | nil => exact .nil
      | cons hfirst hrest =>
        obtain ⟨ds, hds, rfl⟩ := hfirst
        exact .cons ⟨ds, hds, rfl⟩ hrest

theorem fields_append (hseparator : isBlank separator = false) (cs : List Char) {trail : List Char}
    (htrail : Blank trail) : fields separator (cs ++ trail) = fields separator cs := by
  have h := forall₂_trail hseparator cs htrail
  unfold fields
  generalize (cs ++ trail).splitOn separator = fs, cs.splitOn separator = gs at h
  induction h with
  | nil => rfl
  | @cons f g _ _ hfield _ ih =>
    obtain ⟨ds, hds, rfl⟩ := hfield
    have hpadded : Padded (g ++ ds) g := ⟨[], ds, List.forall_mem_nil _, hds, rfl⟩
    rw [List.map_cons, List.map_cons, hpadded.trimChars_eq, ih]

theorem fields_cons (hseparator : isBlank separator = false) {c : Char} (hc : isBlank c = true)
    (cs : List Char) : fields separator (c :: cs) = fields separator cs := by
  have hne : c ≠ separator := by
    rintro rfl
    rw [hc] at hseparator
    cases hseparator
  unfold fields
  rw [splitOn_cons_of_ne hne]
  cases cs.splitOn separator with
  | nil => rfl
  | cons f fs =>
    have hpadded : Padded (c :: f) f :=
      ⟨[c], [], List.forall_mem_singleton.mpr hc, List.forall_mem_nil _, by simp⟩
    rw [List.modifyHead_cons, List.map_cons, List.map_cons, hpadded.trimChars_eq]

theorem fields_padded (hseparator : isBlank separator = false) {cs core : List Char}
    (h : Padded cs core) : fields separator cs = fields separator core := by
  obtain ⟨lead, trail, hlead, htrail, rfl⟩ := h
  rw [fields_append hseparator _ htrail]
  induction lead with
  | nil => rfl
  | cons c lead ih =>
    obtain ⟨hc, hlead⟩ := List.forall_mem_cons.mp hlead
    rw [List.cons_append, fields_cons hseparator hc, ih hlead]

end Text

/-- The text spells the nonterminal; one of them has a second spelling. -/
def Nonterminal.SpelledAs (a : Nonterminal) (s : String) : Prop :=
  s = a.spelling ∨ a = conditional ∧ s = "<IF>"

/-- The text spells the terminal; two of them have a second spelling, and the end of the stream has
none. -/
def Terminal.SpelledAs (t : Terminal) (s : String) : Prop :=
  t ≠ endOfStream ∧
    (s = t.spelling ∨ t = progName ∧ s = "ProgName" ∨ t = number ∧ s = "[number]")

def Symbol.SpelledAs (s : String) : Symbol → Prop
  | terminal t => t.SpelledAs s
  | nonterminal a => a.SpelledAs s

theorem Nonterminal.ofSpelling?_eq_some {s : String} {a : Nonterminal} :
    ofSpelling? s = some a ↔ a.SpelledAs s := by
  constructor
  · intro h
    unfold ofSpelling? at h
    split at h
    · cases h
      exact .inr ⟨rfl, rfl⟩
    · exact .inl (by simpa [eq_comm] using List.find?_some h)
  · rintro (rfl | ⟨rfl, rfl⟩)
    · exact a.ofSpelling?_spelling
    · rfl

theorem Terminal.ofSpelling?_eq_some {s : String} {t : Terminal} :
    ofSpelling? s = some t ↔ t.SpelledAs s := by
  constructor
  · intro h
    unfold ofSpelling? at h
    split at h
    · cases h
      exact ⟨by decide, .inr (.inl ⟨rfl, rfl⟩)⟩
    · cases h
      exact ⟨by decide, .inr (.inr ⟨rfl, rfl⟩)⟩
    · have hend : endOfStream ∉ all.erase endOfStream := by decide
      refine ⟨?_, .inl (by simpa [eq_comm] using List.find?_some h)⟩
      rintro rfl
      exact hend (List.mem_of_find?_eq_some h)
  · rintro ⟨hend, rfl | ⟨rfl, rfl⟩ | ⟨rfl, rfl⟩⟩
    · exact t.ofSpelling?_spelling hend
    · rfl
    · rfl

theorem Terminal.SpelledAs.not_nonterminal {t : Terminal} {s : String} (h : t.SpelledAs s) :
    Nonterminal.ofSpelling? s = none := by
  obtain ⟨hend, rfl | ⟨rfl, rfl⟩ | ⟨rfl, rfl⟩⟩ := h
  · cases t <;> rfl
  · rfl
  · rfl

theorem Symbol.ofSpelling?_eq_some {s : String} {x : Symbol} :
    ofSpelling? s = some x ↔ x.SpelledAs s := by
  unfold ofSpelling?
  cases x with
  | nonterminal a => simp [SpelledAs, Nonterminal.ofSpelling?_eq_some, Option.or_eq_some_iff]
  | terminal t =>
    have hnot : t.SpelledAs s → Nonterminal.ofSpelling? s = none := fun h => h.not_nonterminal
    simpa [SpelledAs, Terminal.ofSpelling?_eq_some, Option.or_eq_some_iff] using hnot

/-- The production is written with these fields: the first spells its left-hand side, and the
others, of which there are some, spell its right-hand side. -/
inductive Production.WrittenAs : Production → List (List Char) → Prop
  | fields {a : Nonterminal} {xs : List Symbol} {first : List Char} {rest : List (List Char)} :
    a.SpelledAs (String.ofList first) →
      List.Forall₂ (fun f x => Symbol.SpelledAs (String.ofList f) x) rest xs → rest ≠ [] →
      WrittenAs ⟨a, xs⟩ (first :: rest)

namespace Grammar

/-- What is wrong with the fields of a line: the first spells no nonterminal, or else one of the
others, the first of these, spells no symbol, or else there are no others. -/
inductive Fault (line : Nat) : List (List Char) → Issue → Prop
  | leftHandSide {first : List Char} {rest : List (List Char)} :
    (∀ a : Nonterminal, ¬a.SpelledAs (String.ofList first)) →
      Fault line (first :: rest) (.missingLeftHandSide line)
  | symbol {a : Nonterminal} {first wrong : List Char} {before after : List (List Char)} :
    a.SpelledAs (String.ofList first) →
      (∀ f ∈ before, ∃ x : Symbol, x.SpelledAs (String.ofList f)) →
      (∀ x : Symbol, ¬x.SpelledAs (String.ofList wrong)) →
      Fault line (first :: (before ++ wrong :: after))
        (.unknownGrammarSymbol line (String.ofList wrong))
  | rightHandSide {a : Nonterminal} {first : List Char} : a.SpelledAs (String.ofList first) →
    Fault line [first] (.emptyRightHandSide line)

variable {line : Nat}

theorem readSymbol_eq_ok {field : List Char} {x : Symbol} :
    readSymbol line field = .ok x ↔ x.SpelledAs (String.ofList field) := by
  rw [← Symbol.ofSpelling?_eq_some, readSymbol]
  cases Symbol.ofSpelling? (String.ofList field) <;> simp

theorem readSymbol_eq_error {field : List Char} {issue : Issue} :
    readSymbol line field = .error issue ↔ (∀ x : Symbol, ¬x.SpelledAs (String.ofList field)) ∧
      .unknownGrammarSymbol line (String.ofList field) = issue := by
  simp only [← Symbol.ofSpelling?_eq_some, readSymbol]
  cases Symbol.ofSpelling? (String.ofList field) <;> simp

section

variable {a : Nonterminal} {first : List Char} {rest : List (List Char)}

theorem readProduction_of_spelled (ha : a.SpelledAs (String.ofList first)) :
    readProduction line (first :: rest) = (do
      let rhs ← rest.mapM (readSymbol line)
      if rhs.isEmpty then .error (.emptyRightHandSide line) else .ok ⟨a, rhs⟩) := by
  rw [readProduction, Nonterminal.ofSpelling?_eq_some.mpr ha]

theorem readProduction_of_not_spelled (h : ∀ a : Nonterminal, ¬a.SpelledAs (String.ofList first)) :
    readProduction line (first :: rest) = .error (.missingLeftHandSide line) := by
  have hnone : Nonterminal.ofSpelling? (String.ofList first) = none := by
    rw [Option.eq_none_iff_forall_ne_some]
    exact fun a ha => h a (Nonterminal.ofSpelling?_eq_some.mp ha)
  rw [readProduction, hnone]

end

theorem readProduction_spec (line : Nat) {fields : List (List Char)} (hfields : fields ≠ []) :
    (∃ p : Production, p.WrittenAs fields ∧ readProduction line fields = .ok p) ∨
      ∃ issue, Fault line fields issue ∧ readProduction line fields = .error issue := by
  cases fields with
  | nil => exact absurd rfl hfields
  | cons first rest =>
    by_cases hfirst : ∃ a : Nonterminal, a.SpelledAs (String.ofList first)
    · obtain ⟨a, ha⟩ := hfirst
      rw [readProduction_of_spelled ha]
      cases hrest : rest.mapM (readSymbol line) with
      | error issue =>
        obtain ⟨before, wrong, after, rfl, hbefore, hwrong⟩ := mapM_eq_error_iff.mp hrest
        obtain ⟨hunknown, rfl⟩ := readSymbol_eq_error.mp hwrong
        refine .inr ⟨_, .symbol ha (fun f hf => ?_) hunknown, rfl⟩
        obtain ⟨x, hx⟩ := hbefore f hf
        exact ⟨x, readSymbol_eq_ok.mp hx⟩
      | ok xs =>
        have hspelled := (mapM_eq_ok_iff.mp hrest).imp fun f x => readSymbol_eq_ok.mp
        cases hspelled with
        | nil => exact .inr ⟨_, .rightHandSide ha, rfl⟩
        | cons hx hxs => exact .inl ⟨_, .fields ha (.cons hx hxs) (List.cons_ne_nil _ _), rfl⟩
    · rw [not_exists] at hfirst
      exact .inr ⟨_, .leftHandSide hfirst, readProduction_of_not_spelled hfirst⟩

theorem readProduction_of_writtenAs {fields : List (List Char)} {p : Production}
    (h : p.WrittenAs fields) : readProduction line fields = .ok p := by
  cases h with
  | @fields a xs first rest ha hxs hrest =>
    have hmap : rest.mapM (readSymbol line) = .ok xs :=
      mapM_eq_ok_iff.mpr (hxs.imp fun f x => readSymbol_eq_ok.mpr)
    rw [readProduction_of_spelled ha, hmap]
    cases hxs with
    | nil => exact absurd rfl hrest
    | cons => rfl

theorem readProduction_of_fault {fields : List (List Char)} {issue : Issue}
    (h : Fault line fields issue) : readProduction line fields = .error issue := by
  cases h with
  | leftHandSide hfirst => exact readProduction_of_not_spelled hfirst
  | @symbol a first wrong before after ha hbefore hwrong =>
    have hmap : (before ++ wrong :: after).mapM (readSymbol line) =
        .error (.unknownGrammarSymbol line (String.ofList wrong)) := by
      refine mapM_eq_error_iff.mpr ⟨before, wrong, after, rfl, fun f hf => ?_,
        readSymbol_eq_error.mpr ⟨hwrong, rfl⟩⟩
      obtain ⟨x, hx⟩ := hbefore f hf
      exact ⟨x, readSymbol_eq_ok.mpr hx⟩
    rw [readProduction_of_spelled ha, hmap]
    rfl
  | rightHandSide ha =>
    rw [readProduction_of_spelled ha]
    rfl

theorem readProduction_eq_ok (line : Nat) {fields : List (List Char)} (hfields : fields ≠ [])
    {p : Production} : readProduction line fields = .ok p ↔ p.WrittenAs fields := by
  refine ⟨fun h => ?_, readProduction_of_writtenAs⟩
  obtain ⟨q, hq, hread⟩ | ⟨issue, -, hread⟩ := readProduction_spec line hfields
  · obtain rfl := Except.ok.inj (hread.symm.trans h)
    exact hq
  · cases hread.symm.trans h

theorem readProduction_eq_error {fields : List (List Char)} (hfields : fields ≠ [])
    {issue : Issue} : readProduction line fields = .error issue ↔ Fault line fields issue := by
  refine ⟨fun h => ?_, readProduction_of_fault⟩
  obtain ⟨q, -, hread⟩ | ⟨other, hother, hread⟩ := readProduction_spec line hfields
  · cases hread.symm.trans h
  · obtain rfl := Except.error.inj (hread.symm.trans h)
    exact hother

def LineFor (cs : List Char) : Option Production → Prop
  | none => Blank cs
  | some p => ¬Blank cs ∧ p.WrittenAs (Text.fields ';' cs)

section

variable {cs : List Char}

theorem readLine_of_blank (h : Blank cs) : readLine line cs = .ok none := by
  rw [readLine, if_pos (List.all_eq_true.mpr h)]

theorem readLine_of_not_blank (h : ¬Blank cs) :
    readLine line cs = some <$> readProduction line (Text.fields ';' cs) := by
  have hall : ¬cs.all Text.isBlank = true := fun hall => h (List.all_eq_true.mp hall)
  rw [readLine, if_neg hall, Text.fields_padded (by decide) (.trim cs)]

theorem readLine_eq_ok {o : Option Production} : readLine line cs = .ok o ↔ LineFor cs o := by
  by_cases h : Blank cs
  · rw [readLine_of_blank h]
    cases o <;> simp [LineFor, h]
  · rw [readLine_of_not_blank h]
    cases o with
    | none => cases readProduction line (Text.fields ';' cs) <;> simp [LineFor, h]
    | some p =>
      rw [LineFor, ← readProduction_eq_ok line (Text.fields_ne_nil _ _)]
      cases readProduction line (Text.fields ';' cs) <;> simp [h]

theorem readLine_eq_error {issue : Issue} :
    readLine line cs = .error issue ↔ ¬Blank cs ∧ Fault line (Text.fields ';' cs) issue := by
  by_cases h : Blank cs
  · simp [readLine_of_blank h, h]
  · rw [readLine_of_not_blank h, ← readProduction_eq_error (Text.fields_ne_nil _ _)]
    cases readProduction line (Text.fields ';' cs) <;> simp [h, Functor.map, Except.map]

end

end Grammar
end FortressLang
