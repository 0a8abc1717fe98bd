import FortressLang.Proofs.DescribedGrammar
import FortressLang.Proofs.LookaheadSets
import FortressLang.Table

/-! The entries of a table that was built. Since no two rules apply to the same pair, the entry of a
pair is the one rule that applies to it. A nonterminal that begins with the terminal is expanded
towards it, any other so that it vanishes. -/
namespace FortressLang

theorem Grammar.index_inj {g : Grammar} {r s : Rule} (hr : r ∈ g.rules) (hs : s ∈ g.rules)
    (h : r.index = s.index) : r = s := by
  have hfound := rule?_index hr
  rw [h, rule?_index hs] at hfound
  exact (Option.some.inj hfound).symm

namespace Table

variable {g : Grammar} {t : Table}

theorem build_eq (h : build g = .ok t) :
    t = ofLookahead g (Lookahead.ofGrammar g) ∧ t.conflict? (Lookahead.ofGrammar g) = none := by
  rw [build] at h
  split at h
  · cases h
  · rename_i hc
    cases h
    exact ⟨rfl, hc⟩

theorem grammar_build (h : build g = .ok t) : t.grammar = g := by
  rw [(build_eq h).1]
  rfl

theorem rule?_build (h : build g = .ok t) (a : Nonterminal) (x : Terminal) :
    t.rule? a x = (g.rulesFor a).find? fun r => ((Lookahead.ofGrammar g).ofRule r).mem x := by
  rw [(build_eq h).1, rule?_ofLookahead]

theorem applies_of_rule? (h : build g = .ok t) {a : Nonterminal} {x : Terminal} {r : Rule}
    (hr : t.rule? a x = some r) :
    r ∈ g.rulesFor a ∧ ((Lookahead.ofGrammar g).ofRule r).mem x = true := by
  rw [rule?_build h] at hr
  have hx := List.find?_some hr
  exact ⟨List.mem_of_find?_eq_some hr, hx⟩

theorem rule?_of_applies (h : build g = .ok t) {a : Nonterminal} {x : Terminal} {r : Rule}
    (hr : r ∈ g.rulesFor a) (hx : ((Lookahead.ofGrammar g).ofRule r).mem x = true) :
    t.rule? a x = some r := by
  have hc := (build_eq h).2
  have hmem := Grammar.mem_rulesFor.mp hr
  have hsome : (t.rule? a x).isSome := by
    rw [rule?_build h, List.find?_isSome]
    exact ⟨r, hr, hx⟩
  obtain ⟨first, hf⟩ := Option.isSome_iff_exists.mp hsome
  rw [conflict?, grammar_build h, List.findSome?_eq_none_iff] at hc
  have hrow := hc a (Grammar.mem_nonterminals.mpr ⟨r, hmem⟩)
  rw [List.findSome?_eq_none_iff] at hrow
  have hcol := hrow r hr
  rw [List.findSome?_eq_none_iff] at hcol
  have hentry := hcol x ((TerminalSet.mem_toList _ x).mpr hx)
  rw [hf] at hentry ⊢
  have hindex : first.index = r.index := by
    by_contra hne
    simp [hne] at hentry
  have hfirst := Grammar.mem_rulesFor.mp (applies_of_rule? h hf).1
  rw [Grammar.index_inj hfirst.1 hmem.1 hindex]

theorem rule_unique (h : build g = .ok t) {a : Nonterminal} {x : Terminal} {r s : Rule}
    (hr : r ∈ g.rulesFor a) (hs : s ∈ g.rulesFor a)
    (hrx : ((Lookahead.ofGrammar g).ofRule r).mem x = true)
    (hsx : ((Lookahead.ofGrammar g).ofRule s).mem x = true) : r = s := by
  have hh := (rule?_of_applies h hr hrx).symm.trans (rule?_of_applies h hs hsx)
  exact Option.some.inj hh

end Table

theorem Lookahead.applies_of_begins {g : Grammar} {r : Rule} {x : Terminal}
    (h : ((Openings.ofGrammar g).ofString r.rhs).1.mem x = true) :
    ((ofGrammar g).ofRule r).mem x = true := by
  rw [ofRule, Openings.mem_before, openings_ofGrammar]
  exact .inl h

theorem Lookahead.applies_of_vanishes {g : Grammar} {r : Rule} {x : Terminal}
    (h : ∀ y ∈ r.rhs, (Openings.ofGrammar g).Vanishes y)
    (hx : ((ofGrammar g).follow.get r.lhs).mem x = true) :
    ((ofGrammar g).ofRule r).mem x = true := by
  rw [ofRule, Openings.mem_before, openings_ofGrammar]
  exact .inr ⟨h, hx⟩

namespace Openings

variable {g : Grammar}

theorem endOfStream_not_mem_first (hg : g.EndFree) (a : Nonterminal) :
    ((ofGrammar g).first.get a).mem .endOfStream = false := by
  by_contra ha
  rw [Bool.not_eq_false] at ha
  induction hn : (rounds g).round (a, some .endOfStream) using Nat.strongRecOn generalizing a with
  | _ n ih =>
    obtain ⟨r, hr, ys, y, zs, hrhs, -, hy, hround⟩ := exists_beginning_rule ha
    cases y with
    | terminal t =>
      obtain ⟨rfl, -⟩ := hy
      exact hg r (Grammar.mem_rulesFor.mp hr).1 (by simp [hrhs])
    | nonterminal b => exact ih _ (hn ▸ hround b rfl) b hy rfl

/-- A nonterminal that vanishes does not begin with a terminal that follows it, since else two rules
would apply. -/
theorem not_mem_first_of_mem_follow {t : Table} (hb : Table.build g = .ok t) {a : Nonterminal}
    {x : Terminal} (hn : (ofGrammar g).nullable.get a = true)
    (hx : ((Lookahead.ofGrammar g).follow.get a).mem x = true) :
    ((ofGrammar g).first.get a).mem x = false := by
  by_contra ha
  rw [Bool.not_eq_false] at ha
  induction hk : (rounds g).round (a, some x) using Nat.strongRecOn generalizing a with
  | _ n ih =>
    obtain ⟨r, hr, ys, y, zs, hrhs, hys, hy, hround⟩ := exists_beginning_rule ha
    obtain ⟨r', hr', hv, -⟩ := exists_vanishing_rule hn
    obtain ⟨hmem, rfl⟩ := Grammar.mem_rulesFor.mp hr
    have happ := Lookahead.applies_of_begins ((mem_ofString _ x _).mpr ⟨ys, y, zs, hrhs, hys, hy⟩)
    have hx' := hx
    rw [← (Grammar.mem_rulesFor.mp hr').2] at hx'
    obtain rfl := Table.rule_unique hb hr hr' happ (Lookahead.applies_of_vanishes hv hx')
    rw [hrhs] at hv
    cases y with
    | terminal t =>
      obtain ⟨rfl, ht⟩ := hy
      exact ht (hv (.terminal t) (by simp))
    | nonterminal b =>
      refine ih _ (hk ▸ hround b rfl) (hv (.nonterminal b) (by simp)) ?_ hy rfl
      refine Lookahead.before_subset_follow hmem hrhs ?_
      rw [mem_before, Lookahead.openings_ofGrammar]
      exact .inr ⟨fun s hs => hv s (by simp [hs]), hx⟩

end Openings

namespace Table

variable {g : Grammar} {t : Table} {a : Nonterminal} {x : Terminal} {r : Rule}

/-- In front of a terminal that it does not begin with, a nonterminal is expanded to symbols that
vanish, to nonterminals that do not begin with it either and that were found earlier to vanish. -/
theorem rule?_vanishing (h : build g = .ok t) (hr : t.rule? a x = some r)
    (hx : ((Openings.ofGrammar g).first.get a).mem x = false) {y : Symbol} (hy : y ∈ r.rhs) :
    (Openings.ofGrammar g).Vanishes y ∧ ∀ b, y = .nonterminal b →
      ((Openings.ofGrammar g).first.get b).mem x = false ∧
        (Openings.rounds g).round (b, none) < (Openings.rounds g).round (a, none) := by
  obtain ⟨hrule, happ⟩ := applies_of_rule? h hr
  obtain ⟨hmem, rfl⟩ := Grammar.mem_rulesFor.mp hrule
  have hstring : ((Openings.ofGrammar g).ofString r.rhs).1.mem x = false := by
    by_contra hs
    rw [Bool.not_eq_false] at hs
    rw [(Openings.mem_first_ofGrammar g r.lhs x).mpr ⟨r, hrule, hs⟩] at hx
    cases hx
  have happ' := happ
  rw [Lookahead.ofRule, Openings.mem_before, Lookahead.openings_ofGrammar, hstring] at happ'
  obtain ⟨hv, hfollow⟩ := happ'.resolve_left Bool.false_ne_true
  obtain ⟨r', hr', hv', hround⟩ := Openings.exists_vanishing_rule
    ((Openings.nullable_ofGrammar g r.lhs).mpr ⟨r, hrule, hv⟩)
  rw [← (Grammar.mem_rulesFor.mp hr').2] at hfollow
  obtain rfl := rule_unique h hrule hr' happ (Lookahead.applies_of_vanishes hv' hfollow)
  refine ⟨hv y hy, ?_⟩
  rintro b rfl
  refine ⟨?_, hround b hy⟩
  by_contra hb
  rw [Bool.not_eq_false] at hb
  obtain ⟨us, vs, huv⟩ := List.append_of_mem hy
  rw [(Openings.mem_ofString _ x r.rhs).mpr
    ⟨us, .nonterminal b, vs, huv, fun u hu => hv u (by simp [huv, hu]), hb⟩] at hstring
  cases hstring

/-- In front of a terminal that it begins with, a nonterminal is expanded to that terminal, or to a
nonterminal that was found earlier to begin with it, after symbols that vanish and do not begin
with it. -/
theorem rule?_beginning (h : build g = .ok t)
    (hx : ((Openings.ofGrammar g).first.get a).mem x = true) :
    ∃ r ys y zs, t.rule? a x = some r ∧ r.rhs = ys ++ y :: zs ∧
      (∀ z ∈ ys, (Openings.ofGrammar g).Vanishes z ∧ ∀ b, z = .nonterminal b →
        ((Openings.ofGrammar g).first.get b).mem x = false) ∧
      (Openings.ofGrammar g).Begins x y ∧ ∀ b, y = .nonterminal b →
        (Openings.rounds g).round (b, some x) < (Openings.rounds g).round (a, some x) := by
  obtain ⟨r, hr, ys, y, zs, hrhs, hys, hy, hround⟩ := Openings.exists_beginning_rule hx
  have happ := Lookahead.applies_of_begins
    ((Openings.mem_ofString _ x _).mpr ⟨ys, y, zs, hrhs, hys, hy⟩)
  obtain ⟨hmem, rfl⟩ := Grammar.mem_rulesFor.mp hr
  refine ⟨r, ys, y, zs, rule?_of_applies h hr happ, hrhs, fun z hz => ⟨hys z hz, ?_⟩, hy, hround⟩
  rintro b rfl
  obtain ⟨us, vs, rfl⟩ := List.append_of_mem hz
  have hsplit : r.rhs = us ++ .nonterminal b :: (vs ++ y :: zs) := by simp [hrhs]
  refine Openings.not_mem_first_of_mem_follow h (hys _ hz)
    (Lookahead.before_subset_follow hmem hsplit ?_)
  rw [Openings.mem_before, Lookahead.openings_ofGrammar, Openings.mem_ofString]
  exact .inl ⟨vs, y, zs, rfl, fun v hv => hys v (by simp [hv]), hy⟩

end Table
end FortressLang
