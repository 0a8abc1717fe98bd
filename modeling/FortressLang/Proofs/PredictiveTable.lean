import FortressLang.Proofs.SententialForms
import FortressLang.Proofs.TableEntries

/-! The table of a grammar is its predictive table: each pair has the one rule that claims it, and
there is no table if and only if two rules claim the same pair. -/
namespace FortressLang

namespace Grammar

/-- Two rules of a nonterminal that both claim a terminal, in the order of their numbers. -/
structure Contest (g : Grammar) (a : Nonterminal) (t : Terminal) (r s : Rule) : Prop where
  mem_first : r ∈ g.rulesFor a
  mem_second : s ∈ g.rulesFor a
  lt : r.index < s.index
  first_claims : g.Claims r t
  second_claims : g.Claims s t

theorem exists_contest {g : Grammar} {a : Nonterminal} {t : Terminal} {r s : Rule}
    (hr : r ∈ g.rulesFor a) (hs : s ∈ g.rulesFor a) (hne : r ≠ s) (hrt : g.Claims r t)
    (hst : g.Claims s t) : ∃ r s, g.Contest a t r s := by
  have hindex : r.index ≠ s.index := fun h =>
    hne (index_inj (mem_rulesFor.mp hr).1 (mem_rulesFor.mp hs).1 h)
  rcases Nat.lt_or_gt_of_ne hindex with hlt | hlt
  · exact ⟨r, s, hr, hs, hlt, hrt, hst⟩
  · exact ⟨s, r, hs, hr, hlt, hst, hrt⟩

end Grammar

namespace Table

variable {g : Grammar} {t : Table}

theorem index_lt_of_find? {g : Grammar} {a : Nonterminal} {p : Rule → Bool} {r s : Rule}
    (hr : (g.rulesFor a).find? p = some r) (hs : s ∈ g.rulesFor a) (hp : p s = true)
    (hne : r.index ≠ s.index) : r.index < s.index := by
  obtain ⟨-, before, behind, hsplit, hbefore⟩ := List.find?_eq_some_iff_append.mp hr
  have horder := g.pairwise_index_rulesFor a
  rw [hsplit] at hs horder
  rcases List.mem_append.mp hs with hs | hs
  · have hnot := hbefore s hs
    simp [hp] at hnot
  · rcases List.mem_cons.mp hs with rfl | hs
    · exact absurd rfl hne
    · have hbehind := (List.pairwise_append.mp horder).2.1
      exact (List.pairwise_cons.mp hbehind).1 s hs

/-- A table is refused only for two rules that claim the same pair, and with their numbers. -/
theorem contest_of_build {issue : Issue} (h : build g = .error issue) :
    ∃ a x r s, issue = .grammarConflict a x r.index s.index ∧ g.Contest a x r s := by
  rw [build] at h
  split at h
  · rename_i issue' hc
    cases h
    rw [conflict?] at hc
    obtain ⟨a, -, hrow⟩ := List.exists_of_findSome?_eq_some hc
    obtain ⟨s, hs, hcol⟩ := List.exists_of_findSome?_eq_some hrow
    obtain ⟨x, hx, hentry⟩ := List.exists_of_findSome?_eq_some hcol
    rw [TerminalSet.mem_toList] at hx
    rw [rule?_ofLookahead] at hentry
    cases hr : (g.rulesFor a).find? fun r => ((Lookahead.ofGrammar g).ofRule r).mem x with
    | none => simp [hr] at hentry
    | some r =>
      have hne : r.index ≠ s.index := by
        intro he
        simp [hr, he] at hentry
      have hlt := index_lt_of_find? hr hs hx hne
      have hrx := List.find?_some hr
      rw [hr] at hentry
      refine ⟨a, x, r, s, by simpa [hne] using hentry.symm, ?_⟩
      exact ⟨List.mem_of_find?_eq_some hr, hs, hlt,
        (Lookahead.mem_ofRule_ofGrammar_iff g r x).mp hrx,
        (Lookahead.mem_ofRule_ofGrammar_iff g s x).mp hx⟩
  · cases h

theorem not_contest (h : build g = .ok t) {a : Nonterminal} {x : Terminal} {r s : Rule} :
    ¬ g.Contest a x r s := by
  intro hc
  have hrx := (Lookahead.mem_ofRule_ofGrammar_iff g r x).mpr hc.first_claims
  have hsx := (Lookahead.mem_ofRule_ofGrammar_iff g s x).mpr hc.second_claims
  have heq : r = s := rule_unique h hc.mem_first hc.mem_second hrx hsx
  have hlt := hc.lt
  rw [heq] at hlt
  exact Nat.lt_irrefl _ hlt

theorem rule?_eq_some_iff (h : build g = .ok t) (a : Nonterminal) (x : Terminal) (r : Rule) :
    t.rule? a x = some r ↔ r ∈ g.rulesFor a ∧ g.Claims r x := by
  constructor
  · intro hr
    obtain ⟨hmem, hx⟩ := applies_of_rule? h hr
    exact ⟨hmem, (Lookahead.mem_ofRule_ofGrammar_iff g r x).mp hx⟩
  · rintro ⟨hmem, hx⟩
    exact rule?_of_applies h hmem ((Lookahead.mem_ofRule_ofGrammar_iff g r x).mpr hx)

end Table

/-- For every grammar: there is no table if and only if two different rules of one nonterminal claim
the same terminal; what is reported then is such a pair with two such rules, the smaller number
first; and the table that there is otherwise has for each pair the rule that claims it. -/
theorem table_is_predictive (g : Grammar) :
    ((∃ issue, Table.build g = .error issue) ↔
      ∃ a x, ∃ r ∈ g.rulesFor a, ∃ s ∈ g.rulesFor a, r ≠ s ∧ g.Claims r x ∧ g.Claims s x) ∧
    (∀ issue, Table.build g = .error issue → ∃ a x r s,
      issue = .grammarConflict a x r.index s.index ∧ g.Contest a x r s) ∧
    ∀ table, Table.build g = .ok table → ∀ a x r,
      table.rule? a x = some r ↔ r ∈ g.rulesFor a ∧ g.Claims r x := by
  refine ⟨⟨?_, ?_⟩, fun issue h => Table.contest_of_build h,
    fun table h => Table.rule?_eq_some_iff h⟩
  · rintro ⟨issue, h⟩
    obtain ⟨a, x, r, s, -, hc⟩ := Table.contest_of_build h
    have hne : r ≠ s := by
      rintro rfl
      exact Nat.lt_irrefl _ hc.lt
    exact ⟨a, x, r, hc.mem_first, s, hc.mem_second, hne, hc.first_claims, hc.second_claims⟩
  · rintro ⟨a, x, r, hr, s, hs, hne, hrx, hsx⟩
    obtain ⟨r', s', hc⟩ := Grammar.exists_contest hr hs hne hrx hsx
    cases hb : Table.build g with
    | error issue => exact ⟨issue, rfl⟩
    | ok table => exact absurd hc (Table.not_contest hb)

end FortressLang
