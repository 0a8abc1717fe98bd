import FortressLang.Proofs.DescriptionLines

/-! Whole descriptions of grammars: which are read and as which rules, which are not and why, and
how rules are found again. -/
namespace FortressLang
namespace Grammar

def linesOf (description : String) : List (List Char) := description.toList.splitOn '\n'

def writtenLines (description : String) : List (List Char) :=
  (linesOf description).filter fun cs => ¬Blank cs

def Writes (cs : List Char) (p : Production) : Prop := p.WrittenAs (Text.fields ';' cs)

section

variable {lines : List (List Char)}

theorem exists_lineFor_iff {ps : List Production} :
    (∃ os, List.Forall₂ LineFor lines os ∧ os.filterMap id = ps) ↔
      List.Forall₂ Writes (lines.filter fun cs => ¬Blank cs) ps := by
  induction lines generalizing ps with
  | nil => simp [eq_comm]
  | cons cs lines ih =>
    by_cases hcs : Blank cs
    · rw [List.filter_cons_of_neg (by simpa using hcs), ← ih]
      constructor
      · rintro ⟨os, hos, rfl⟩
        cases hos with
        | @cons _ o _ os ho hos =>
          cases o with
          | none => exact ⟨os, hos, rfl⟩
          | some p => exact absurd hcs ho.1
      · rintro ⟨os, hos, rfl⟩
        exact ⟨none :: os, .cons hcs hos, rfl⟩
    · rw [List.filter_cons_of_pos (by simpa using hcs), List.forall₂_cons_left_iff]
      constructor
      · rintro ⟨os, hos, rfl⟩
        cases hos with
        | @cons _ o _ os ho hos =>
          cases o with
          | none => exact absurd ho hcs
          | some p => exact ⟨p, os.filterMap id, ho.2, ih.mp ⟨os, hos, rfl⟩, rfl⟩
      · rintro ⟨p, rest, hp, hrest, rfl⟩
        obtain ⟨os, hos, rfl⟩ := ih.mpr hrest
        exact ⟨some p :: os, .cons ⟨hcs, hp⟩ hos, rfl⟩

theorem readLines_eq_ok {ps : List Production} :
    readLines lines = .ok ps ↔ List.Forall₂ Writes (lines.filter fun cs => ¬Blank cs) ps := by
  have hlines (os : List (Option Production)) :
      (lines.zipIdx 1).mapM (fun l => readLine l.2 l.1) = .ok os ↔
        List.Forall₂ LineFor lines os := by
    rw [mapM_eq_ok_iff]
    simp only [readLine_eq_ok]
    rw [← List.forall₂_map_left_iff, List.zipIdx_map_fst]
  rw [← exists_lineFor_iff, readLines]
  simp only [← hlines]
  cases (lines.zipIdx 1).mapM (fun l => readLine l.2 l.1) <;> simp [bind, Except.bind]

theorem exists_lineFor {cs : List Char} :
    (∃ o, LineFor cs o) ↔ (¬Blank cs → ∃ p, Writes cs p) := by
  by_cases hcs : Blank cs
  · exact ⟨fun _ h => absurd hcs h, fun _ => ⟨none, hcs⟩⟩
  · constructor
    · rintro ⟨o | p, ho⟩ -
      · exact absurd ho hcs
      · exact ⟨p, ho.2⟩
    · intro h
      obtain ⟨p, hp⟩ := h hcs
      exact ⟨some p, hcs, hp⟩

theorem readLines_eq_error {issue : Issue} :
    readLines lines = .error issue ↔ ∃ before cs after, lines = before ++ cs :: after ∧
      (∀ ds ∈ before, ¬Blank ds → ∃ p, Writes ds p) ∧ ¬Blank cs ∧
        Fault (before.length + 1) (Text.fields ';' cs) issue := by
  have hread : readLines lines = .error issue ↔
      (lines.zipIdx 1).mapM (fun l => readLine l.2 l.1) = .error issue := by
    rw [readLines]
    cases (lines.zipIdx 1).mapM (fun l => readLine l.2 l.1) <;> simp [bind, Except.bind]
  have hall (before : List (List Char)) :
      (∀ l ∈ before.zipIdx 1, ¬Blank l.1 → ∃ p, Writes l.1 p) ↔
        ∀ ds ∈ before, ¬Blank ds → ∃ p, Writes ds p := by
    have h := List.forall_mem_map (f := Prod.fst) (l := before.zipIdx 1)
      (P := fun ds => ¬Blank ds → ∃ p, Writes ds p)
    rwa [List.zipIdx_map_fst, iff_comm] at h
  rw [hread, mapM_eq_error_iff]
  simp only [readLine_eq_ok, readLine_eq_error, exists_lineFor]
  constructor
  · rintro ⟨numbered, l, after, hsplit, hbefore, hl⟩
    obtain ⟨before, rest, rfl, rfl, hrest⟩ := List.zipIdx_eq_append_iff.mp hsplit
    cases rest with
    | nil => cases hrest
    | cons cs rest =>
      obtain ⟨rfl, -⟩ := List.cons.inj hrest
      rw [Nat.add_comm 1] at hl
      exact ⟨before, cs, rest, rfl, (hall before).mp hbefore, hl⟩
  · rintro ⟨before, cs, after, rfl, hbefore, hcs⟩
    rw [Nat.add_comm] at hcs
    refine ⟨before.zipIdx 1, (cs, 1 + before.length), after.zipIdx (1 + before.length + 1), ?_,
      (hall before).mpr hbefore, hcs⟩
    rw [List.zipIdx_append, List.zipIdx_cons]

end

section

variable {description : String} {g : Grammar}

theorem ofDescription_eq_ok : ofDescription description = .ok g ↔
    ∃ ps, ∃ h : ps ≠ [], List.Forall₂ Writes (writtenLines description) ps ∧
      ofProductions ps h = g := by
  simp only [writtenLines, ← readLines_eq_ok, linesOf]
  rw [ofDescription]
  cases readLines (description.toList.splitOn '\n') with
  | error issue => simp [bind, Except.bind]
  | ok ps =>
    by_cases h : ps = []
    · simp [h, bind, Except.bind]
    · simp [h, bind, Except.bind]

theorem ofDescription_eq_error {issue : Issue} : ofDescription description = .error issue ↔
    (∀ cs ∈ linesOf description, Blank cs) ∧ issue = .emptyGrammar ∨
    ∃ before cs after, linesOf description = before ++ cs :: after ∧
      (∀ ds ∈ before, ¬Blank ds → ∃ p, Writes ds p) ∧ ¬Blank cs ∧
        Fault (before.length + 1) (Text.fields ';' cs) issue := by
  have hblank : readLines (linesOf description) = .ok [] ↔
      ∀ cs ∈ linesOf description, Blank cs := by
    rw [readLines_eq_ok, List.forall₂_nil_right_iff, List.filter_eq_nil_iff]
    simp
  rw [← readLines_eq_error, ← hblank, ofDescription]
  change (readLines (linesOf description) >>= _) = _ ↔ _
  cases readLines (linesOf description) with
  | error other => simp [bind, Except.bind]
  | ok ps => by_cases h : ps = [] <;> simp [h, bind, Except.bind, eq_comm]

end

theorem map_rules_ofProductions {ps : List Production} (h : ps ≠ []) :
    (ofProductions ps h).rules.map Rule.toProduction = ps := by
  rw [ofProductions, List.map_map]
  exact List.zipIdx_map_fst 0 ps

def enter (numbers : Nonterminal → List Nat) (r : Rule) : Nonterminal → List Nat :=
  Function.update numbers r.lhs (numbers r.lhs ++ [r.index])

def ruleNumbers (g : Grammar) : Nonterminal → List Nat := g.rules.foldl enter fun _ => []

section

variable (g : Grammar)

theorem ruleNumbers_eq (a : Nonterminal) : g.ruleNumbers a = (g.rulesFor a).map Rule.index := by
  have hfold (rules : List Rule) (numbers : Nonterminal → List Nat) :
      rules.foldl enter numbers a = numbers a ++ (rules.filter (·.lhs = a)).map Rule.index := by
    induction rules generalizing numbers with
    | nil => simp
    | cons r rules ih =>
      rw [List.foldl_cons, ih]
      by_cases hr : r.lhs = a
      · subst hr
        simp [enter]
      · have hne : a ≠ r.lhs := fun h => hr h.symm
        simp [enter, hr, hne]
  exact hfold g.rules _

theorem filterMap_ruleNumbers (a : Nonterminal) :
    (g.ruleNumbers a).filterMap g.rule? = g.rulesFor a := by
  rw [ruleNumbers_eq, List.filterMap_map]
  have hrules : ∀ r ∈ g.rulesFor a, (g.rule? ∘ Rule.index) r = some r := fun r hr =>
    rule?_index (mem_rulesFor.mp hr).1
  rw [List.filterMap_congr hrules, List.filterMap_some]

end

theorem pairwise_eraseDups {rules : List Rule} (h : rules.Pairwise (·.index < ·.index)) :
    (rules.map (·.lhs)).eraseDups.Pairwise fun a b =>
      ∃ r ∈ rules, r.lhs = a ∧ ∀ s ∈ rules, s.lhs = b → r.index < s.index := by
  induction hn : rules.length using Nat.strongRecOn generalizing rules with
  | _ n ih =>
    cases rules with
    | nil => exact .nil
    | cons r rules =>
      obtain ⟨hr, hrules⟩ := List.pairwise_cons.mp h
      let others := rules.filter fun s => !s.lhs == r.lhs
      have hothers : (rules.map (·.lhs)).filter (fun b => !b == r.lhs) = others.map (·.lhs) :=
        List.filter_map
      have hlt : others.length < n := by
        have hle := List.length_filter_le (fun s : Rule => !s.lhs == r.lhs) rules
        simp only [← hn, List.length_cons, others]
        omega
      have hrest := ih _ hlt (hrules.sublist List.filter_sublist) rfl
      have hne : ∀ b ∈ (others.map (·.lhs)).eraseDups, b ≠ r.lhs := by
        intro b hb
        obtain ⟨s, hs, rfl⟩ := List.mem_map.mp (List.mem_eraseDups.mp hb)
        simpa using (List.mem_filter.mp hs).2
      rw [List.map_cons, List.eraseDups_cons, hothers, List.pairwise_cons]
      refine ⟨fun b hb => ⟨r, List.mem_cons_self, rfl, fun s hs hsb => ?_⟩, ?_⟩
      · rcases List.mem_cons.mp hs with rfl | hs
        · exact absurd hsb.symm (hne b hb)
        · exact hr s hs
      · refine hrest.imp_of_mem fun ha hb hab => ?_
        obtain ⟨q, hq, hqa, hfirst⟩ := hab
        refine ⟨q, List.mem_cons_of_mem _ (List.mem_filter.mp hq).1, hqa, fun s hs hsb => ?_⟩
        have hsr : s.lhs ≠ r.lhs := hsb ▸ hne _ hb
        rcases List.mem_cons.mp hs with rfl | hs
        · exact absurd rfl hsr
        · exact hfirst s (List.mem_filter.mpr ⟨hs, by simpa using hsr⟩) hsb

end Grammar

/-- A field: the spelling of a symbol, with white space around it that does not end the line. -/
def Symbol.Field (x : Symbol) (cs : List Char) : Prop := Padded cs x.spelling.toList ∧ '\n' ∉ cs

/-- The text of a production: a field for each symbol, and semicolons between them. -/
def Production.Line (p : Production) (cs : List Char) : Prop :=
  ∃ fields, List.Forall₂ Symbol.Field (.nonterminal p.lhs :: p.rhs) fields ∧
    cs = [';'].intercalate fields

/-- Lines of productions, and blank lines between them. -/
inductive Production.Lines : List Production → List (List Char) → Prop
  | nil : Lines [] []
  | blank {ps : List Production} {lines : List (List Char)} {cs : List Char} :
    Blank cs → '\n' ∉ cs → Lines ps lines → Lines ps (cs :: lines)
  | cons {p : Production} {ps : List Production} {lines : List (List Char)} {cs : List Char} :
    p.Line cs → Lines ps lines → Lines (p :: ps) (cs :: lines)

theorem Symbol.spelling_plain (x : Symbol) : ';' ∉ x.spelling.toList ∧
    Text.trimChars x.spelling.toList = x.spelling.toList ∧ ¬Blank x.spelling.toList := by
  cases x with
  | terminal t => cases t <;> decide +kernel
  | nonterminal a => cases a <;> decide +kernel

theorem Symbol.Field.trimChars_eq {x : Symbol} {cs : List Char} (h : x.Field cs) :
    Text.trimChars cs = x.spelling.toList :=
  h.1.trimChars_eq.trans x.spelling_plain.2.1

theorem Symbol.Field.semicolon_not_mem {x : Symbol} {cs : List Char} (h : x.Field cs) :
    ';' ∉ cs := by
  obtain ⟨⟨lead, trail, hlead, htrail, rfl⟩, -⟩ := h
  have hblank {ds : List Char} (hds : Blank ds) : ';' ∉ ds := fun hmem =>
    absurd (hds _ hmem) (by decide)
  simp only [List.mem_append, not_or]
  exact ⟨⟨hblank hlead, x.spelling_plain.1⟩, hblank htrail⟩

theorem Symbol.trimChars_fields {xs : List Symbol} {fields : List (List Char)}
    (h : List.Forall₂ Field xs fields) :
    (∀ cs ∈ fields, ';' ∉ cs) ∧ fields.map Text.trimChars = xs.map (·.spelling.toList) := by
  induction h with
  | nil => exact ⟨List.forall_mem_nil _, rfl⟩
  | cons hfield _ ih =>
    exact ⟨List.forall_mem_cons.mpr ⟨hfield.semicolon_not_mem, ih.1⟩,
      congrArg₂ List.cons hfield.trimChars_eq ih.2⟩

namespace Production

variable {p : Production} {cs : List Char}

theorem Line.fields_eq (h : p.Line cs) :
    Text.fields ';' cs = (Symbol.nonterminal p.lhs :: p.rhs).map (·.spelling.toList) := by
  obtain ⟨fields, hfields, rfl⟩ := h
  obtain ⟨hsemicolon, htrim⟩ := Symbol.trimChars_fields hfields
  have hne : fields ≠ [] := by
    rintro rfl
    cases hfields
  rw [Text.fields, List.splitOn_intercalate ';' hsemicolon hne, htrim]

theorem Line.newline_not_mem (h : p.Line cs) : '\n' ∉ cs := by
  obtain ⟨fields, hfields, rfl⟩ := h
  generalize Symbol.nonterminal p.lhs :: p.rhs = xs at hfields
  induction hfields with
  | nil => exact List.not_mem_nil
  | @cons x field xs fields hfield hfields ih =>
    cases fields with
    | nil => simpa using hfield.2
    | cons next fields =>
      rw [List.intercalate_cons_cons, List.append_assoc, List.mem_append, not_or]
      exact ⟨hfield.2, by simpa using ih⟩

theorem Line.not_blank (h : p.Line cs) : ¬Blank cs := by
  intro hblank
  have hpadded : Padded cs [] := ⟨cs, [], hblank, List.forall_mem_nil _, by simp⟩
  have hfields := h.fields_eq
  rw [Text.fields_padded (by decide) hpadded, List.map_cons] at hfields
  have hempty : [] = (Symbol.nonterminal p.lhs).spelling.toList := (List.cons.inj hfields).1
  exact (Symbol.nonterminal p.lhs).spelling_plain.2.2 (hempty ▸ List.forall_mem_nil _)

theorem Line.writes (h : p.Line cs) (hp : p.rhs ≠ [] ∧ .terminal .endOfStream ∉ p.rhs) :
    Grammar.Writes cs p := by
  rw [Grammar.Writes, h.fields_eq, List.map_cons]
  refine .fields (.inl String.ofList_toList) ?_ (by simpa using hp.1)
  rw [List.forall₂_map_left_iff, List.forall₂_same]
  intro x hx
  have hend : x ≠ .terminal .endOfStream := fun heq => hp.2 (heq ▸ hx)
  rw [← Symbol.ofSpelling?_eq_some, String.ofList_toList]
  exact x.ofSpelling?_spelling hend

end Production

namespace Grammar

/-- What is written is what is read, if each production has a right-hand side that is spelled. -/
theorem forall₂_writes {ps : List Production} {lines : List (List Char)}
    (h : Production.Lines ps lines)
    (hps : ∀ p ∈ ps, p.rhs ≠ [] ∧ .terminal .endOfStream ∉ p.rhs) :
    List.Forall₂ Writes (lines.filter fun cs => ¬Blank cs) ps := by
  induction h with
  | nil => exact .nil
  | blank hcs _ _ ih =>
    rw [List.filter_cons_of_neg (by simpa using hcs)]
    exact ih hps
  | cons hline _ ih =>
    rw [List.forall_mem_cons] at hps
    rw [List.filter_cons_of_pos (by simpa using hline.not_blank)]
    exact .cons (hline.writes hps.1) (ih hps.2)

theorem newline_not_mem_lines {ps : List Production} {lines : List (List Char)}
    (h : Production.Lines ps lines) : ∀ cs ∈ lines, '\n' ∉ cs := by
  induction h with
  | nil => exact List.forall_mem_nil _
  | blank _ hcs _ ih => exact List.forall_mem_cons.mpr ⟨hcs, ih⟩
  | cons hline _ ih => exact List.forall_mem_cons.mpr ⟨hline.newline_not_mem, ih⟩

section

variable {description : String}

/-- No line is written for a production and at fault, too. -/
theorem Writes.not_fault {cs : List Char} {p : Production} (h : Writes cs p) {line : Nat}
    {issue : Issue} : ¬Fault line (Text.fields ';' cs) issue := by
  intro hfault
  cases (readProduction_of_writtenAs h).symm.trans (readProduction_of_fault hfault)

theorem exists_ofDescription : (∃ g, ofDescription description = .ok g) ↔
    (∃ cs ∈ linesOf description, ¬Blank cs) ∧
      ∀ cs ∈ linesOf description, ¬Blank cs → ∃ p, Writes cs p := by
  constructor
  · rintro ⟨g, hg⟩
    obtain ⟨ps, hps, hwrites, -⟩ := ofDescription_eq_ok.mp hg
    constructor
    · obtain ⟨cs, hcs⟩ : ∃ cs, cs ∈ writtenLines description := by
        refine List.exists_mem_of_ne_nil _ fun hnone => hps ?_
        rwa [hnone, List.forall₂_nil_left_iff] at hwrites
      obtain ⟨hcs, hwritten⟩ := List.mem_filter.mp hcs
      exact ⟨cs, hcs, of_decide_eq_true hwritten⟩
    · intro cs hcs hwritten
      obtain ⟨p, -, hp⟩ := (exists_mem_of_forall₂ hwrites).1 cs
        (List.mem_filter.mpr ⟨hcs, decide_eq_true hwritten⟩)
      exact ⟨p, hp⟩
  · rintro ⟨⟨cs, hcs, hwritten⟩, hall⟩
    cases hread : ofDescription description with
    | ok g => exact ⟨g, rfl⟩
    | error issue =>
      obtain ⟨hblank, -⟩ | ⟨before, ds, after, hlines, -, hds, hfault⟩ :=
        ofDescription_eq_error.mp hread
      · exact absurd (hblank cs hcs) hwritten
      · obtain ⟨p, hp⟩ := hall ds (by simp [hlines]) hds
        exact absurd hfault hp.not_fault

end

/-- For every description: it is read if some line is not blank and each such line is written for a
production, and then these are its rules in order, which are found again by their left-hand sides.
Otherwise the first line at fault is reported, with its number among all lines, or that all lines
are blank. And from whatever lines productions are written on, with white space around symbols and
blank lines between them, these productions are read. -/
theorem descriptions_are_read_exactly (description : String) :
    ((∃ g, ofDescription description = .ok g) ↔ (∃ cs ∈ linesOf description, ¬Blank cs) ∧
      ∀ cs ∈ linesOf description, ¬Blank cs → ∃ p, Writes cs p) ∧
    (∀ g, ofDescription description = .ok g →
      List.Forall₂ (fun cs r => Writes cs r.toProduction) (writtenLines description) g.rules ∧
      g.rules.map Rule.index = List.range g.rules.length ∧
      (∀ a, (g.ruleNumbers a).filterMap g.rule? = g.rulesFor a ∧
        (∀ r, r ∈ g.rulesFor a ↔ r ∈ g.rules ∧ r.lhs = a) ∧
        (g.rulesFor a).Pairwise (·.index < ·.index)) ∧
      (∀ a, a ∈ g.nonterminals ↔ ∃ r ∈ g.rules, r.lhs = a) ∧
      g.nonterminals.Pairwise fun a b =>
        ∃ r ∈ g.rules, r.lhs = a ∧ ∀ s ∈ g.rules, s.lhs = b → r.index < s.index) ∧
    (∀ issue, ofDescription description = .error issue ↔
      (∀ cs ∈ linesOf description, Blank cs) ∧ issue = .emptyGrammar ∨
      ∃ before cs after, linesOf description = before ++ cs :: after ∧
        (∀ ds ∈ before, ¬Blank ds → ∃ p, Writes ds p) ∧ ¬Blank cs ∧
          Fault (before.length + 1) (Text.fields ';' cs) issue) ∧
    ∀ ps lines, Production.Lines ps lines → ps ≠ [] →
      (∀ p ∈ ps, p.rhs ≠ [] ∧ .terminal .endOfStream ∉ p.rhs) →
      description = String.ofList (['\n'].intercalate lines) →
      ∃ g, ofDescription description = .ok g ∧ g.rules.map Rule.toProduction = ps := by
  refine ⟨exists_ofDescription, fun g hg => ?_, fun issue => ofDescription_eq_error,
    fun ps lines hlines hne hps htext => ?_⟩
  · obtain ⟨ps, h, hwrites, hg⟩ := ofDescription_eq_ok.mp hg
    have hps : g.rules.map Rule.toProduction = ps := by rw [← hg, map_rules_ofProductions]
    refine ⟨?_, g.index_rules, fun a => ⟨g.filterMap_ruleNumbers a, fun r => mem_rulesFor, ?_⟩,
      fun a => mem_nonterminals, pairwise_eraseDups g.pairwise_index⟩
    · rwa [← hps, List.forall₂_map_right_iff] at hwrites
    · exact g.pairwise_index_rulesFor a
  · have hlinesOf : linesOf description = lines := by
      rw [linesOf, htext, String.toList_ofList]
      refine List.splitOn_intercalate '\n' (newline_not_mem_lines hlines) ?_
      rintro rfl
      cases hlines
      exact hne rfl
    have hwrites := forall₂_writes hlines hps
    rw [← hlinesOf] at hwrites
    exact ⟨_, ofDescription_eq_ok.mpr ⟨ps, hne, hwrites, rfl⟩, map_rules_ofProductions hne⟩

/-- A field behind the last semicolon is one more symbol, which nothing spells. -/
example : ofDescription "\n <Code> ; E;\n;" = .error (.unknownGrammarSymbol 2 "") := rfl

def spacedProductions : List Production :=
  [⟨.code, [.terminal .comma, .nonterminal .code]⟩, ⟨.code, [.terminal .epsilon]⟩]

def spacedLines : List (List Char) :=
  [[], " <Code> ; ,;\t<Code>".toList, [' ', '\r'], "<Code>;E ".toList]

theorem lines_spaced : Production.Lines spacedProductions spacedLines := by
  have hfield (x : Symbol) (lead trail : List Char) (hlead : Blank lead ∧ '\n' ∉ lead)
      (htrail : Blank trail ∧ '\n' ∉ trail) (hx : '\n' ∉ x.spelling.toList) :
      x.Field (lead ++ x.spelling.toList ++ trail) :=
    ⟨⟨lead, trail, hlead.1, htrail.1, rfl⟩, by simp [hlead.2, htrail.2, hx]⟩
  have hrest : Production.Line ⟨.code, [.terminal .comma, .nonterminal .code]⟩
      " <Code> ; ,;\t<Code>".toList :=
    ⟨_, .cons (hfield _ [' '] [' '] (by decide) (by decide) (by decide))
      (.cons (hfield _ [' '] [] (by decide) (by decide) (by decide))
        (.cons (hfield _ ['\t'] [] (by decide) (by decide) (by decide)) .nil)), by decide +kernel⟩
  have hstop : Production.Line ⟨.code, [.terminal .epsilon]⟩ "<Code>;E ".toList :=
    ⟨_, .cons (hfield _ [] [] (by decide) (by decide) (by decide))
      (.cons (hfield _ [] [' '] (by decide) (by decide) (by decide)) .nil), by decide +kernel⟩
  exact .blank (by decide) (by decide) (.cons hrest (.blank (by decide) (by decide)
    (.cons hstop .nil)))

theorem spaced_productions_are_read_back :
    ∃ g, ofDescription "\n <Code> ; ,;\t<Code>\n \r\n<Code>;E " = .ok g ∧
      g.rules.map Rule.toProduction = spacedProductions :=
  (descriptions_are_read_exactly _).2.2.2 _ _ lines_spaced (by decide) (by decide)
    (by decide +kernel)

end Grammar
end FortressLang
