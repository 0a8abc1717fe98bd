import FortressLang.Proofs.LookaheadSets
import Mathlib.Logic.Relation

/-! Strings of symbols and what they can become: a nonterminal becomes the right-hand side of one of
its rules, and `epsilon` becomes nothing. The lookahead sets hold exactly the terminals that this
brings to the front of a string, and those that it lets come behind a nonterminal. -/
namespace FortressLang
namespace Grammar

inductive Rewrites (g : Grammar) : List Symbol → List Symbol → Prop
  | expand {xs ys : List Symbol} {r : Rule} :
    r ∈ g.rules → Rewrites g (xs ++ .nonterminal r.lhs :: ys) (xs ++ (r.rhs ++ ys))
  | vanish {xs ys : List Symbol} : Rewrites g (xs ++ .terminal .epsilon :: ys) (xs ++ ys)

def Becomes (g : Grammar) : List Symbol → List Symbol → Prop := Relation.ReflTransGen g.Rewrites

/-- Nothing needs to be left of the string. -/
def CanVanish (g : Grammar) (xs : List Symbol) : Prop := g.Becomes xs []

/-- The terminal can come to the front of the string. -/
def CanBegin (g : Grammar) (xs : List Symbol) (t : Terminal) : Prop :=
  t ≠ .epsilon ∧ ∃ ys, g.Becomes xs (.terminal t :: ys)

/-- The least relation in which the end of the stream follows the start symbol, and what can come
behind a nonterminal in a rule follows that nonterminal. -/
inductive Follows (g : Grammar) : Nonterminal → Terminal → Prop
  | stop : Follows g g.startSymbol .endOfStream
  | beginning {r : Rule} {ys zs : List Symbol} {a : Nonterminal} {t : Terminal} :
    r ∈ g.rules → r.rhs = ys ++ .nonterminal a :: zs → g.CanBegin zs t → Follows g a t
  | vanishing {r : Rule} {ys zs : List Symbol} {a : Nonterminal} {t : Terminal} :
    r ∈ g.rules → r.rhs = ys ++ .nonterminal a :: zs → g.CanVanish zs → Follows g r.lhs t →
      Follows g a t

/-- A rule claims the terminals that it can begin with, and if it can vanish, those that follow. -/
def Claims (g : Grammar) (r : Rule) (t : Terminal) : Prop :=
  g.CanBegin r.rhs t ∨ g.CanVanish r.rhs ∧ g.Follows r.lhs t

variable {g : Grammar} {xs ys zs : List Symbol} {r : Rule} {t : Terminal}

theorem Rewrites.surround (h : g.Rewrites xs ys) (us vs : List Symbol) :
    g.Rewrites (us ++ xs ++ vs) (us ++ ys ++ vs) := by
  cases h with
  | @expand as bs r hr =>
    have hwide : g.Rewrites (us ++ as ++ .nonterminal r.lhs :: (bs ++ vs))
        (us ++ as ++ (r.rhs ++ (bs ++ vs))) := .expand hr
    simpa only [List.append_assoc, List.cons_append] using hwide
  | @vanish as bs =>
    have hwide : g.Rewrites (us ++ as ++ .terminal .epsilon :: (bs ++ vs))
        (us ++ as ++ (bs ++ vs)) := .vanish
    simpa only [List.append_assoc, List.cons_append] using hwide

theorem Becomes.surround (h : g.Becomes xs ys) (us vs : List Symbol) :
    g.Becomes (us ++ xs ++ vs) (us ++ ys ++ vs) := by
  induction h with
  | refl => exact .refl
  | tail _ hstep ih => exact ih.tail (hstep.surround us vs)

theorem Becomes.append_right (h : g.Becomes xs ys) (zs : List Symbol) :
    g.Becomes (xs ++ zs) (ys ++ zs) := by
  simpa using h.surround [] zs

theorem Becomes.of_rule (hr : r ∈ g.rules) (h : g.Becomes r.rhs xs) :
    g.Becomes [.nonterminal r.lhs] xs := by
  have hstep : g.Rewrites ([] ++ [.nonterminal r.lhs]) ([] ++ (r.rhs ++ [])) := .expand hr
  rw [List.append_nil] at hstep
  exact .head hstep h

theorem CanVanish.nil : g.CanVanish [] := .refl

theorem CanVanish.append (hx : g.CanVanish xs) (hy : g.CanVanish ys) : g.CanVanish (xs ++ ys) :=
  (hx.append_right ys).trans hy

theorem CanBegin.append_right (h : g.CanBegin xs t) (zs : List Symbol) :
    g.CanBegin (xs ++ zs) t := by
  obtain ⟨ht, ys, hy⟩ := h
  exact ⟨ht, ys ++ zs, hy.append_right zs⟩

theorem CanBegin.behind (hx : g.CanVanish xs) (h : g.CanBegin ys t) : g.CanBegin (xs ++ ys) t := by
  obtain ⟨ht, zs, hz⟩ := h
  have hskip : g.Becomes (xs ++ ys) ys := hx.append_right ys
  exact ⟨ht, zs, hskip.trans hz⟩

end Grammar

namespace Openings

open Grammar

variable {g : Grammar} {o : Openings} {xs ys : List Symbol} {t : Terminal}

/-- What the openings hold comes about by rewriting. -/
structure Sound (g : Grammar) (o : Openings) : Prop where
  vanish : ∀ a, o.nullable.get a = true → g.CanVanish [.nonterminal a]
  begin : ∀ a t, (o.first.get a).mem t = true → g.CanBegin [.nonterminal a] t

theorem Sound.canVanish (h : o.Sound g) (hx : ∀ s ∈ xs, o.Vanishes s) : g.CanVanish xs := by
  induction xs with
  | nil => exact .nil
  | cons s xs ih =>
    rw [List.forall_mem_cons] at hx
    have hs : g.CanVanish [s] := by
      cases s with
      | terminal t =>
        obtain rfl : t = .epsilon := hx.1
        have hstep : g.Rewrites ([] ++ [.terminal .epsilon]) ([] ++ []) := .vanish
        exact .single hstep
      | nonterminal a => exact h.vanish a hx.1
    exact hs.append (ih hx.2)

theorem Sound.canBegin (h : o.Sound g) (hx : (o.ofString xs).1.mem t = true) :
    g.CanBegin xs t := by
  obtain ⟨ys, s, zs, rfl, hys, hs⟩ := (mem_ofString o t xs).mp hx
  have hbegin : g.CanBegin [s] t := by
    cases s with
    | terminal u =>
      obtain ⟨rfl, hu⟩ := hs
      exact ⟨hu, [], .refl⟩
    | nonterminal a => exact h.begin a t hs
  exact .behind (h.canVanish hys) (hbegin.append_right zs)

theorem sound_empty : empty.Sound g where
  vanish a ha := by simp [empty] at ha
  begin a t ht := by simp [empty] at ht

/-- One more application of every rule keeps to what comes about by rewriting. -/
theorem Sound.grow (h : o.Sound g) : (o.grow g).Sound g where
  vanish a ha := by
    obtain ⟨r, hr, hv⟩ := (has_grow_none g o a).mp ha
    obtain ⟨hmem, rfl⟩ := mem_rulesFor.mp hr
    exact .of_rule hmem (h.canVanish hv)
  begin a t ht := by
    obtain ⟨r, hr, hx⟩ := (has_grow_some g o a t).mp ht
    obtain ⟨hmem, rfl⟩ := mem_rulesFor.mp hr
    obtain ⟨hne, ys, hy⟩ := h.canBegin hx
    exact ⟨hne, ys, .of_rule hmem hy⟩

theorem sound_ofGrammar (g : Grammar) : (ofGrammar g).Sound g :=
  settle_of_forall sound_empty (fun _ h => h.grow) _

theorem vanishes_of_rewrites (h : g.Rewrites xs ys) (hy : ∀ s ∈ ys, (ofGrammar g).Vanishes s) :
    ∀ s ∈ xs, (ofGrammar g).Vanishes s := by
  cases h with
  | @expand as bs r hr =>
    rw [List.forall_mem_append, List.forall_mem_append] at hy
    have hrule : (ofGrammar g).Vanishes (.nonterminal r.lhs) :=
      (nullable_ofGrammar g r.lhs).mpr ⟨r, mem_rulesFor.mpr ⟨hr, rfl⟩, hy.2.1⟩
    rw [List.forall_mem_append, List.forall_mem_cons]
    exact ⟨hy.1, hrule, hy.2.2⟩
  | @vanish as bs =>
    rw [List.forall_mem_append] at hy
    rw [List.forall_mem_append, List.forall_mem_cons]
    exact ⟨hy.1, rfl, hy.2⟩

theorem mem_before_cons (o : Openings) (after : TerminalSet) (s : Symbol) (xs : List Symbol) :
    (o.before after (s :: xs)).mem t = true ↔
      o.Begins t s ∨ o.Vanishes s ∧ (o.before after xs).mem t = true := by
  rw [mem_before, mem_before, mem_ofString_cons, List.forall_mem_cons]
  tauto

theorem before_append_mono (o : Openings) {after after' : TerminalSet}
    (h : after.mem t = true → after'.mem t = true) (xs : List Symbol) :
    (o.before after xs).mem t = true → (o.before after' xs).mem t = true := by
  rw [mem_before, mem_before]
  exact Or.imp_right fun hx => ⟨hx.1, h hx.2⟩

theorem mem_before_of_rewrites (h : g.Rewrites xs ys) (after : TerminalSet)
    (hy : ((ofGrammar g).before after ys).mem t = true) :
    ((ofGrammar g).before after xs).mem t = true := by
  cases h with
  | @expand as bs r hr =>
    rw [before_append] at hy ⊢
    refine before_append_mono _ (fun hx => ?_) as hy
    rw [before_append, mem_before] at hx
    have hrule := mem_rulesFor.mpr ⟨hr, rfl⟩
    rw [mem_before_cons]
    rcases hx with hx | ⟨hv, hx⟩
    · exact .inl ((mem_first_ofGrammar g r.lhs t).mpr ⟨r, hrule, hx⟩)
    · exact .inr ⟨(nullable_ofGrammar g r.lhs).mpr ⟨r, hrule, hv⟩, hx⟩
  | @vanish as bs =>
    rw [before_append] at hy ⊢
    refine before_append_mono _ (fun hx => ?_) as hy
    rw [mem_before_cons]
    exact .inr ⟨rfl, hx⟩

/-- The symbols of a string are found to vanish if and only if the string can vanish. -/
theorem vanishes_ofGrammar_iff (g : Grammar) (xs : List Symbol) :
    (∀ s ∈ xs, (ofGrammar g).Vanishes s) ↔ g.CanVanish xs := by
  refine ⟨(sound_ofGrammar g).canVanish, fun h => ?_⟩
  refine Relation.ReflTransGen.head_induction_on h (by simp) ?_
  intro _ _ hstep _ ih
  exact vanishes_of_rewrites hstep ih

theorem mem_ofString_ofGrammar_iff (g : Grammar) (xs : List Symbol) (t : Terminal) :
    ((ofGrammar g).ofString xs).1.mem t = true ↔ g.CanBegin xs t := by
  refine ⟨(sound_ofGrammar g).canBegin, fun h => ?_⟩
  obtain ⟨ht, ys, hy⟩ := h
  have hbefore : ((ofGrammar g).before .empty xs).mem t = true := by
    refine Relation.ReflTransGen.head_induction_on hy ?_ ?_
    · rw [mem_before_cons]
      exact .inl ⟨rfl, ht⟩
    · intro _ _ hstep _ ih
      exact mem_before_of_rewrites hstep .empty ih
  simpa [mem_before] using hbefore

end Openings

namespace Lookahead

open Grammar

/-- A terminal is found to follow a nonterminal if and only if it does. -/
theorem mem_follow_ofGrammar_iff (g : Grammar) (a : Nonterminal) (t : Terminal) :
    ((ofGrammar g).follow.get a).mem t = true ↔ g.Follows a t := by
  rw [follow_ofGrammar]
  constructor
  · let p (f : Family TerminalSet) : Prop := ∀ a t, (f.get a).mem t = true → g.Follows a t
    have hempty : p (.tabulate fun _ => .empty) := fun a t h => by simp at h
    have hgrow : ∀ f, p f → p (Follow.grow g (Openings.ofGrammar g) f) := by
      intro f hf a t h
      rcases (Follow.has_grow g _ f a t).mp h with ⟨rfl, rfl⟩ | ⟨r, hr, ys, zs, hrhs, hx⟩
      · exact .stop
      · rw [Openings.mem_before, Openings.vanishes_ofGrammar_iff,
          Openings.mem_ofString_ofGrammar_iff] at hx
        rcases hx with hx | ⟨hv, hx⟩
        · exact .beginning hr hrhs hx
        · exact .vanishing hr hrhs hv (hf r.lhs t hx)
    exact settle_of_forall hempty hgrow _ a t
  · intro h
    induction h with
    | stop => exact (Follow.mem_ofGrammar g _ _ _).mpr (.inl ⟨rfl, rfl⟩)
    | beginning hr hrhs hx =>
      refine (Follow.mem_ofGrammar g _ _ _).mpr (.inr ⟨_, hr, _, _, hrhs, ?_⟩)
      rw [Openings.mem_before, Openings.mem_ofString_ofGrammar_iff]
      exact .inl hx
    | vanishing hr hrhs hv _ ih =>
      refine (Follow.mem_ofGrammar g _ _ _).mpr (.inr ⟨_, hr, _, _, hrhs, ?_⟩)
      rw [Openings.mem_before, Openings.vanishes_ofGrammar_iff]
      exact .inr ⟨hv, ih⟩

theorem mem_ofRule_ofGrammar_iff (g : Grammar) (r : Rule) (t : Terminal) :
    ((ofGrammar g).ofRule r).mem t = true ↔ g.Claims r t := by
  rw [ofRule, Openings.mem_before, mem_follow_ofGrammar_iff, openings_ofGrammar,
    Openings.vanishes_ofGrammar_iff, Openings.mem_ofString_ofGrammar_iff]
  rfl

end Lookahead
end FortressLang
