import FortressLang.Proofs.Rounds
import Mathlib.Data.Fintype.Option
import Mathlib.Data.Fintype.Prod

/-! The lookahead sets of a grammar solve their equations, and each member of an opening has a round
in which it was gained. -/
namespace FortressLang

instance : Fintype Nonterminal := ⟨Nonterminal.all.toFinset, by simp [Nonterminal.mem_all]⟩

instance : Fintype Terminal := ⟨Terminal.all.toFinset, by simp [Terminal.mem_all]⟩

theorem card_nonterminal : Fintype.card Nonterminal = 16 := rfl

theorem card_terminal : Fintype.card Terminal = 25 := rfl

theorem TerminalSet.mem_foldl_union {β : Type} (f : β → TerminalSet) (x : Terminal) (bs : List β)
    (s : TerminalSet) :
    (bs.foldl (fun s b => s.union (f b)) s).mem x = true ↔
      s.mem x = true ∨ ∃ b ∈ bs, (f b).mem x = true := by
  induction bs generalizing s with
  | nil => simp
  | cons b bs ih => simp [ih, or_assoc]

namespace Openings

def Vanishes (o : Openings) : Symbol → Prop
  | .terminal t => t = .epsilon
  | .nonterminal a => o.nullable.get a = true

def Begins (o : Openings) (x : Terminal) : Symbol → Prop
  | .terminal t => t = x ∧ t ≠ .epsilon
  | .nonterminal a => (o.first.get a).mem x = true

theorem ofString_snd (o : Openings) (xs : List Symbol) :
    (o.ofString xs).2 = true ↔ ∀ s ∈ xs, o.Vanishes s := by
  induction xs with
  | nil => simp [ofString]
  | cons s xs ih =>
    cases s with
    | terminal t =>
      by_cases ht : t = .epsilon
      · subst ht
        simp [ofString, ih, Vanishes]
      · simp [ofString, Vanishes, ht]
    | nonterminal a =>
      by_cases ha : o.nullable.get a = true
      · simp [ofString, ha, ih, Vanishes]
      · simp [ofString, ha, Vanishes]

theorem mem_ofString_cons (o : Openings) (x : Terminal) (s : Symbol) (xs : List Symbol) :
    (o.ofString (s :: xs)).1.mem x = true ↔
      o.Begins x s ∨ o.Vanishes s ∧ (o.ofString xs).1.mem x = true := by
  cases s with
  | terminal t =>
    by_cases ht : t = .epsilon
    · subst ht
      simp [ofString, Begins, Vanishes]
    · simp [ofString, Begins, Vanishes, ht]
  | nonterminal a =>
    by_cases ha : o.nullable.get a = true
    · simp [ofString, ha, Begins, Vanishes]
    · simp [ofString, ha, Begins, Vanishes]

/-- What begins a string begins one of its symbols, and all symbols before that one vanish. -/
theorem mem_ofString (o : Openings) (x : Terminal) (xs : List Symbol) :
    (o.ofString xs).1.mem x = true ↔
      ∃ ys s zs, xs = ys ++ s :: zs ∧ (∀ y ∈ ys, o.Vanishes y) ∧ o.Begins x s := by
  induction xs with
  | nil => simp [ofString]
  | cons s xs ih =>
    rw [mem_ofString_cons, ih]
    constructor
    · rintro (hs | ⟨hs, ys, s', zs, rfl, hys, hs'⟩)
      · exact ⟨[], s, xs, rfl, by simp, hs⟩
      · exact ⟨s :: ys, s', zs, rfl, by simpa using ⟨hs, hys⟩, hs'⟩
    · rintro ⟨_ | ⟨y, ys⟩, s', zs, h, hys, hs'⟩
      · obtain ⟨rfl, rfl⟩ := List.cons.inj h
        exact .inl hs'
      · obtain ⟨rfl, rfl⟩ := List.cons.inj h
        rw [List.forall_mem_cons] at hys
        exact .inr ⟨hys.1, ys, s', zs, rfl, hys.2, hs'⟩

theorem mem_before (o : Openings) (after : TerminalSet) (xs : List Symbol) (x : Terminal) :
    (o.before after xs).mem x = true ↔
      (o.ofString xs).1.mem x = true ∨ (∀ s ∈ xs, o.Vanishes s) ∧ after.mem x = true := by
  rw [← ofString_snd]
  by_cases h : (o.ofString xs).2 = true <;> simp [before, h]

theorem before_append (o : Openings) (after : TerminalSet) (xs ys : List Symbol) :
    o.before after (xs ++ ys) = o.before (o.before after ys) xs := by
  induction xs with
  | nil =>
    ext x
    rw [Bool.eq_iff_iff, mem_before o _ []]
    simp [ofString]
  | cons s xs ih =>
    ext x
    have hx := congrArg (TerminalSet.mem · x = true) ih
    simp only [mem_before, eq_iff_iff] at hx
    rw [Bool.eq_iff_iff, mem_before, mem_before, mem_before, List.cons_append,
      mem_ofString_cons, mem_ofString_cons, List.forall_mem_cons, List.forall_mem_cons]
    tauto

def has (o : Openings) (i : Nonterminal × Option Terminal) : Bool :=
  match i.2 with
  | some x => (o.first.get i.1).mem x
  | none => o.nullable.get i.1

theorem has_ext (o p : Openings) (h : ∀ i, o.has i = p.has i) : o = p := by
  have hf : o.first = p.first := Family.ext fun a => TerminalSet.ext fun x => h (a, some x)
  have hn : o.nullable = p.nullable := Family.ext fun a => h (a, none)
  obtain ⟨_, _⟩ := o
  obtain ⟨_, _⟩ := p
  simp only at hf hn
  rw [hf, hn]

theorem has_grow_some (g : Grammar) (o : Openings) (a : Nonterminal) (x : Terminal) :
    (grow g o).has (a, some x) = true ↔
      ∃ r ∈ g.rulesFor a, (o.ofString r.rhs).1.mem x = true := by
  simp only [has, grow, Family.get_tabulate]
  rw [TerminalSet.mem_foldl_union (fun r : Rule => (o.ofString r.rhs).1)]
  simp

theorem has_grow_none (g : Grammar) (o : Openings) (a : Nonterminal) :
    (grow g o).has (a, none) = true ↔ ∃ r ∈ g.rulesFor a, ∀ s ∈ r.rhs, o.Vanishes s := by
  simp only [has, grow, Family.get_tabulate, List.any_eq_true, ofString_snd]

theorem Vanishes.mono {o p : Openings} (h : ∀ i, o.has i → p.has i) {s : Symbol}
    (hs : o.Vanishes s) : p.Vanishes s := by
  cases s with
  | terminal t => exact hs
  | nonterminal a => exact h (a, none) hs

theorem Begins.mono {o p : Openings} (h : ∀ i, o.has i → p.has i) {x : Terminal} {s : Symbol}
    (hs : o.Begins x s) : p.Begins x s := by
  cases s with
  | terminal t => exact hs
  | nonterminal a => exact h (a, some x) hs

theorem mem_ofString_mono {o p : Openings} (h : ∀ i, o.has i → p.has i) {x : Terminal}
    {xs : List Symbol} (hx : (o.ofString xs).1.mem x = true) : (p.ofString xs).1.mem x = true := by
  rw [mem_ofString] at hx ⊢
  obtain ⟨ys, s, zs, hxs, hys, hs⟩ := hx
  exact ⟨ys, s, zs, hxs, fun y hy => (hys y hy).mono h, hs.mono h⟩

def rounds (g : Grammar) : Rounds Openings (Nonterminal × Option Terminal) where
  mem := has
  ext := has_ext
  empty := empty
  mem_empty i := by obtain ⟨a, _ | x⟩ := i <;> simp [has, empty]
  next := grow g
  mono o p h i hi := by
    obtain ⟨a, _ | x⟩ := i
    · rw [has_grow_none] at hi ⊢
      obtain ⟨r, hr, hs⟩ := hi
      exact ⟨r, hr, fun s hm => (hs s hm).mono h⟩
    · rw [has_grow_some] at hi ⊢
      obtain ⟨r, hr, hx⟩ := hi
      exact ⟨r, hr, mem_ofString_mono h hx⟩

theorem grow_ofGrammar (g : Grammar) : grow g (ofGrammar g) = ofGrammar g :=
  (rounds g).next_settle (by
    rw [Fintype.card_prod, Fintype.card_option, card_nonterminal, card_terminal]
    omega)

theorem nullable_ofGrammar (g : Grammar) (a : Nonterminal) :
    (ofGrammar g).nullable.get a = true ↔
      ∃ r ∈ g.rulesFor a, ∀ s ∈ r.rhs, (ofGrammar g).Vanishes s := by
  rw [← has_grow_none, grow_ofGrammar]
  rfl

theorem mem_first_ofGrammar (g : Grammar) (a : Nonterminal) (x : Terminal) :
    ((ofGrammar g).first.get a).mem x = true ↔
      ∃ r ∈ g.rulesFor a, ((ofGrammar g).ofString r.rhs).1.mem x = true := by
  rw [← has_grow_some, grow_ofGrammar]
  rfl

theorem has_ofGrammar_of_value {g : Grammar} {k : Nat} {i : Nonterminal × Option Terminal}
    (h : ((rounds g).value k).has i) : (ofGrammar g).has i :=
  (rounds g).mem_of_mem_value (grow_ofGrammar g) h

/-- The openings of a grammar whose rounds are known one by one. -/
theorem ofGrammar_eq {g : Grammar} (v : Nat → Openings) {k : Nat} (hk : k ≤ 16 * 26 + 1)
    (h₀ : v 0 = empty) (hs : ∀ i < k, grow g (v i) = v (i + 1)) (hf : grow g (v k) = v k) :
    ofGrammar g = v k := by
  rw [ofGrammar, ← h₀]
  exact settle_eq_of_rounds v hk hs hf

theorem exists_gained {g : Grammar} {i : Nonterminal × Option Terminal} (h : (ofGrammar g).has i) :
    ∃ k, k < (rounds g).round i ∧ (grow g ((rounds g).value k)).has i :=
  (rounds g).exists_gained_settle (n := 16 * 26 + 1) h

/-- Where a nonterminal vanishes, it does so by a rule whose nonterminals were found to vanish
earlier. -/
theorem exists_vanishing_rule {g : Grammar} {a : Nonterminal}
    (h : (ofGrammar g).nullable.get a = true) :
    ∃ r ∈ g.rulesFor a, (∀ s ∈ r.rhs, (ofGrammar g).Vanishes s) ∧
      ∀ b, .nonterminal b ∈ r.rhs →
        (rounds g).round (b, none) < (rounds g).round (a, none) := by
  obtain ⟨k, hk, hm⟩ := exists_gained (i := (a, none)) h
  obtain ⟨r, hr, hs⟩ := (has_grow_none g _ a).mp hm
  refine ⟨r, hr, fun s hm => (hs s hm).mono fun _ => has_ofGrammar_of_value, fun b hb => ?_⟩
  have hle := (rounds g).round_le (i := (b, none)) (hs _ hb)
  omega

/-- Where a nonterminal begins with a terminal, one of its rules has that terminal after vanishing
symbols, or a nonterminal that was found earlier to begin with it. -/
theorem exists_beginning_rule {g : Grammar} {a : Nonterminal} {x : Terminal}
    (h : ((ofGrammar g).first.get a).mem x = true) :
    ∃ r ∈ g.rulesFor a, ∃ ys s zs, r.rhs = ys ++ s :: zs ∧ (∀ y ∈ ys, (ofGrammar g).Vanishes y) ∧
      (ofGrammar g).Begins x s ∧
        ∀ b, s = .nonterminal b →
          (rounds g).round (b, some x) < (rounds g).round (a, some x) := by
  obtain ⟨k, hk, hm⟩ := exists_gained (i := (a, some x)) h
  obtain ⟨r, hr, hx⟩ := (has_grow_some g _ a x).mp hm
  obtain ⟨ys, s, zs, hxs, hys, hs⟩ := (mem_ofString _ x r.rhs).mp hx
  refine ⟨r, hr, ys, s, zs, hxs, fun y hy => (hys y hy).mono fun _ => has_ofGrammar_of_value,
    hs.mono fun _ => has_ofGrammar_of_value, ?_⟩
  rintro b rfl
  have hle := (rounds g).round_le (i := (b, some x)) hs
  omega

end Openings

namespace Follow

theorem mem_inString (o : Openings) (after : TerminalSet) (a : Nonterminal) (x : Terminal)
    (xs : List Symbol) :
    (inString o after a xs).mem x = true ↔
      ∃ ys zs, xs = ys ++ .nonterminal a :: zs ∧ (o.before after zs).mem x = true := by
  induction xs with
  | nil => simp [inString]
  | cons s xs ih =>
    have hcons : (∃ ys zs, s :: xs = ys ++ .nonterminal a :: zs ∧
        (o.before after zs).mem x = true) ↔
        (s = .nonterminal a ∧ (o.before after xs).mem x = true) ∨
          ∃ ys zs, xs = ys ++ .nonterminal a :: zs ∧ (o.before after zs).mem x = true := by
      constructor
      · rintro ⟨_ | ⟨y, ys⟩, zs, h, hx⟩
        · obtain ⟨rfl, rfl⟩ := List.cons.inj h
          exact .inl ⟨rfl, hx⟩
        · obtain ⟨rfl, rfl⟩ := List.cons.inj h
          exact .inr ⟨ys, zs, rfl, hx⟩
      · rintro (⟨rfl, hx⟩ | ⟨ys, zs, rfl, hx⟩)
        · exact ⟨[], xs, rfl, hx⟩
        · exact ⟨s :: ys, zs, rfl, hx⟩
    rw [hcons, ← ih]
    by_cases hs : s = .nonterminal a <;> simp [inString, hs]

def has (f : Family TerminalSet) (i : Nonterminal × Terminal) : Bool := (f.get i.1).mem i.2

theorem has_grow (g : Grammar) (o : Openings) (f : Family TerminalSet) (a : Nonterminal)
    (x : Terminal) :
    has (grow g o f) (a, x) = true ↔
      (a = g.startSymbol ∧ x = .endOfStream) ∨ ∃ r ∈ g.rules, ∃ ys zs,
        r.rhs = ys ++ .nonterminal a :: zs ∧ (o.before (f.get r.lhs) zs).mem x = true := by
  simp only [has, grow, Family.get_tabulate]
  rw [TerminalSet.mem_foldl_union (fun r : Rule => inString o (f.get r.lhs) a r.rhs)]
  simp only [mem_inString]
  refine or_congr_left ?_
  by_cases ha : a = g.startSymbol <;> simp [ha, eq_comm]

def rounds (g : Grammar) (o : Openings) : Rounds (Family TerminalSet) (Nonterminal × Terminal) where
  mem := has
  ext f f' h := Family.ext fun a => TerminalSet.ext fun x => h (a, x)
  empty := .tabulate fun _ => .empty
  mem_empty i := by simp [has]
  next := grow g o
  mono f f' h i hi := by
    obtain ⟨a, x⟩ := i
    rw [has_grow] at hi ⊢
    refine hi.imp_right ?_
    rintro ⟨r, hr, ys, zs, hs, hx⟩
    refine ⟨r, hr, ys, zs, hs, ?_⟩
    rw [Openings.mem_before] at hx ⊢
    exact hx.imp_right fun hv => ⟨hv.1, h (r.lhs, x) hv.2⟩

theorem grow_ofGrammar (g : Grammar) (o : Openings) : grow g o (ofGrammar g o) = ofGrammar g o :=
  (rounds g o).next_settle (by
    rw [Fintype.card_prod, card_nonterminal, card_terminal]
    omega)

theorem ofGrammar_eq {g : Grammar} {o : Openings} (v : Nat → Family TerminalSet) {k : Nat}
    (hk : k ≤ 16 * 25 + 1) (h₀ : v 0 = .tabulate fun _ => .empty)
    (hs : ∀ i < k, grow g o (v i) = v (i + 1)) (hf : grow g o (v k) = v k) :
    ofGrammar g o = v k := by
  rw [ofGrammar, ← h₀]
  exact settle_eq_of_rounds v hk hs hf

theorem mem_ofGrammar (g : Grammar) (o : Openings) (a : Nonterminal) (x : Terminal) :
    ((ofGrammar g o).get a).mem x = true ↔
      (a = g.startSymbol ∧ x = .endOfStream) ∨ ∃ r ∈ g.rules, ∃ ys zs,
        r.rhs = ys ++ .nonterminal a :: zs ∧
          (o.before ((ofGrammar g o).get r.lhs) zs).mem x = true := by
  rw [← has_grow, grow_ofGrammar]
  rfl

end Follow

namespace Lookahead

theorem openings_ofGrammar (g : Grammar) :
    (ofGrammar g).openings = Openings.ofGrammar g := by
  rw [ofGrammar]

theorem follow_ofGrammar (g : Grammar) :
    (ofGrammar g).follow = Follow.ofGrammar g (Openings.ofGrammar g) := by
  rw [ofGrammar]

theorem ofGrammar_eq {g : Grammar} {l : Lookahead} (ho : Openings.ofGrammar g = l.openings)
    (hf : Follow.ofGrammar g l.openings = l.follow) : ofGrammar g = l := by
  rw [ofGrammar, ho, hf]

/-- What may stand before the rest of a rule follows the nonterminal in front of that rest. -/
theorem before_subset_follow {g : Grammar} {r : Rule} (hr : r ∈ g.rules)
    {ys zs : List Symbol} {a : Nonterminal} (h : r.rhs = ys ++ .nonterminal a :: zs) {x : Terminal}
    (hx : ((ofGrammar g).openings.before ((ofGrammar g).follow.get r.lhs) zs).mem x = true) :
    ((ofGrammar g).follow.get a).mem x = true := by
  rw [openings_ofGrammar, follow_ofGrammar] at hx
  rw [follow_ofGrammar]
  exact (Follow.mem_ofGrammar g _ a x).mpr (.inr ⟨r, hr, ys, zs, h, hx⟩)

end Lookahead
end FortressLang
