import FortressLang.Proofs.ParserSteps
import FortressLang.Proofs.TableEntries
import Mathlib.Tactic.Linarith
import Mathlib.Tactic.Ring

/-! A parse with a table that was built ends within its bound. In front of one token a nonterminal
either vanishes or has the token as its first. A vanishing one is expanded to nonterminals that were
found earlier to vanish, and one that has the token first leads to it through nonterminals that were
found earlier to have it. -/
namespace FortressLang

def place (number : Nonterminal → Nat) (a : Nonterminal) : Nat :=
  (Finset.univ.filter fun b => number b < number a).card

theorem place_lt_place {number : Nonterminal → Nat} {a b : Nonterminal}
    (h : number b < number a) : place number b < place number a := by
  refine Finset.card_lt_card ⟨fun c hc => ?_, fun hs => ?_⟩
  · simp only [Finset.mem_filter, Finset.mem_univ, true_and] at hc ⊢
    omega
  · have hb := hs (Finset.mem_filter.mpr ⟨Finset.mem_univ b, h⟩)
    simp at hb

theorem place_lt (number : Nonterminal → Nat) (a : Nonterminal) : place number a < 16 := by
  have hsub : (Finset.univ.filter fun b => number b < number a) ⊂ Finset.univ := by
    refine ⟨Finset.subset_univ _, fun hs => ?_⟩
    have ha := hs (Finset.mem_univ a)
    simp at ha
  exact Finset.card_lt_card hsub

theorem TokenStream.length_tail (s : TokenStream) :
    s.tail.results.length = s.results.length - 1 := by
  obtain ⟨_ | ⟨x, xs⟩, finish⟩ := s <;> rfl

theorem TokenStream.length_pos {s : TokenStream} {found : Token} (hf : s.head = .ok found)
    (he : found.terminal ≠ .endOfStream) : 0 < s.results.length := by
  obtain ⟨_ | ⟨x, xs⟩, finish⟩ := s
  · cases hf
    exact absurd rfl he
  · exact Nat.succ_pos _

namespace Machine

variable {g : Grammar} {t : Table} {price budget c : Nat} {s : TokenStream}
  {xs ys : List Symbol} {P Q : TokenStream → Prop}

/-- Whatever a machine has built and whatever comes behind: with these symbols next it stops within
the budget, or gets them behind itself with a stream of the given kind, and what is left of the
budget pays for everything left in the stream. -/
def Spends (t : Table) (price budget : Nat) (s : TokenStream) (xs : List Symbol)
    (P : TokenStream → Prop) : Prop :=
  ∀ a ys built ancestors nesting log,
    (∃ n ≤ budget, (runFor t n ⟨⟨a, xs ++ ys, built⟩, ancestors, nesting, s, log⟩).isSome) ∨
    ∃ n s' built' log', Goes t ⟨⟨a, xs ++ ys, built⟩, ancestors, nesting, s, log⟩ n
      ⟨⟨a, ys, built'⟩, ancestors, nesting, s', log'⟩ ∧
        n + price * s'.results.length ≤ budget ∧ P s'

namespace Spends

theorem mono (h : Spends t price budget s xs P) (hle : budget ≤ c) (hP : ∀ s', P s' → Q s') :
    Spends t price c s xs Q := by
  intro a ys built ancestors nesting log
  rcases h a ys built ancestors nesting log with ⟨n, hn, hrun⟩ | ⟨n, s', b, l, hgo, hn, hp⟩
  · exact .inl ⟨n, hn.trans hle, hrun⟩
  · exact .inr ⟨n, s', b, l, hgo, hn.trans hle, hP s' hp⟩

theorem le (h : Spends t price budget s xs P) (hle : budget ≤ c) : Spends t price c s xs P :=
  h.mono hle fun _ hp => hp

theorem nil (h : P s) : Spends t price (price * s.results.length) s [] P := fun _ _ _ _ _ _ =>
  .inr ⟨0, s, _, _, .refl, by omega, h⟩

theorem append (h : Spends t price budget s xs P)
    (h' : ∀ s', P s' → Spends t price (c + price * s'.results.length) s' ys Q) :
    Spends t price (budget + c) s (xs ++ ys) Q := by
  intro a zs built ancestors nesting log
  rw [List.append_assoc]
  rcases h a (ys ++ zs) built ancestors nesting log with
    ⟨n, hn, hrun⟩ | ⟨n, s', b, l, hgo, hn, hp⟩
  · exact .inl ⟨n, by omega, hrun⟩
  · rcases h' s' hp a zs b ancestors nesting l with ⟨k, hk, hrun⟩ | ⟨k, s'', b', l', hgo', hk, hq⟩
    · refine .inl ⟨n + k, by omega, ?_⟩
      rw [hgo.runFor]
      exact hrun
    · exact .inr ⟨n + k, s'', b', l', hgo.trans hgo', by omega, hq⟩

theorem append_same (h : Spends t 0 budget s xs (· = s)) (h' : Spends t price c s ys Q) :
    Spends t price (budget + c) s (xs ++ ys) Q := by
  intro a zs built ancestors nesting log
  rw [List.append_assoc]
  rcases h a (ys ++ zs) built ancestors nesting log with
    ⟨n, hn, hrun⟩ | ⟨n, _, b, l, hgo, hn, rfl⟩
  · exact .inl ⟨n, by omega, hrun⟩
  · rcases h' a zs b ancestors nesting l with ⟨k, hk, hrun⟩ | ⟨k, s'', b', l', hgo', hk, hq⟩
    · refine .inl ⟨n + k, by omega, ?_⟩
      rw [hgo.runFor]
      exact hrun
    · exact .inr ⟨n + k, s'', b', l', hgo.trans hgo', by omega, hq⟩

theorem list (h : ∀ s, P s → ∀ y ∈ xs, Spends t price (c + price * s.results.length) s [y] P)
    (hs : P s) : Spends t price (xs.length * c + price * s.results.length) s xs P := by
  induction xs generalizing s with
  | nil =>
    rw [List.length_nil, Nat.zero_mul, Nat.zero_add]
    exact nil hs
  | cons y xs ih =>
    have hy := (h s hs y List.mem_cons_self).append fun s' hs' =>
      ih (fun s hs z hz => h s hs z (List.mem_cons_of_mem _ hz)) hs'
    refine hy.le ?_
    rw [List.length_cons, Nat.add_mul]
    omega

theorem list_same (h : ∀ y ∈ xs, Spends t 0 c s [y] (· = s)) :
    Spends t 0 (xs.length * c) s xs (· = s) := by
  have hall : ∀ s', s' = s → ∀ y ∈ xs, Spends t 0 (c + 0 * s'.results.length) s' [y] (· = s) := by
    rintro _ rfl y hy
    exact (h y hy).le (by omega)
  exact (list hall rfl).le (by omega)

theorem of_step {y : Symbol} {s' : TokenStream}
    (h : ∀ a ys built ancestors nesting log, ∃ built' log',
      step t ⟨⟨a, y :: ys, built⟩, ancestors, nesting, s, log⟩ =
        .going ⟨⟨a, ys, built'⟩, ancestors, nesting, s', log'⟩) (hs : P s') :
    Spends t price (1 + price * s'.results.length) s [y] P := by
  intro a ys built ancestors nesting log
  obtain ⟨b, l, hstep⟩ := h a ys built ancestors nesting log
  exact .inr ⟨1, s', b, l, .one hstep, le_rfl, hs⟩

theorem of_done {y : Symbol} (h : ∀ a ys built ancestors nesting log, ∃ result p,
    step t ⟨⟨a, y :: ys, built⟩, ancestors, nesting, s, log⟩ = .done result p) :
    Spends t price 1 s [y] P := by
  intro a ys built ancestors nesting log
  obtain ⟨result, p, hstep⟩ := h a ys built ancestors nesting log
  refine .inl ⟨1, le_rfl, ?_⟩
  rw [List.singleton_append, runFor_done hstep]
  rfl

theorem epsilon (hs : P s) :
    Spends t price (1 + price * s.results.length) s [.terminal .epsilon] P :=
  of_step (fun _ _ built _ _ log => ⟨built, log, step_epsilon⟩) hs

theorem token {x : Terminal} {found : Token} (hf : s.head = .ok found) (hx : found.terminal = x)
    (he : x ≠ .epsilon) (hs : P s.tail) :
    Spends t price (1 + price * s.tail.results.length) s [.terminal x] P :=
  of_step (fun _ _ _ _ _ log => ⟨_, log, step_token hf hx he⟩) hs

theorem node {b : Nonterminal} {r : Rule} {found : Token} (hf : s.head = .ok found)
    (hr : t.rule? b found.terminal = some r) (he : ¬ r.isEpsilon)
    (h : Spends t price budget s r.rhs P) :
    Spends t price (budget + 2) s [.nonterminal b] P := by
  intro a ys built ancestors nesting log
  by_cases hn : r.lhs ≠ .code ∧ nesting = nestingLimit
  · refine .inl ⟨1, by omega, ?_⟩
    rw [List.singleton_append, runFor_done (step_deep hf hr he hn)]
    rfl
  have hopen : step t ⟨⟨a, .nonterminal b :: ys, built⟩, ancestors, nesting, s, log⟩ = _ :=
    step_open hf hr he hn
  rcases h r.lhs [] [] (⟨a, ys, built⟩ :: ancestors) (nesting + nestingOf r.lhs)
    (r.index :: log) with ⟨n, hle, hrun⟩ | ⟨n, s', b', l, hgo, hle, hp⟩
  · rw [List.append_nil] at hrun
    refine .inl ⟨1 + n, by omega, ?_⟩
    rw [List.singleton_append, (Goes.one hopen).runFor]
    exact hrun
  · rw [List.append_nil] at hgo
    have hclose : step t ⟨⟨r.lhs, [], b'⟩, ⟨a, ys, built⟩ :: ancestors,
        nesting + nestingOf r.lhs, s', l⟩ = _ := step_close
    rw [Nat.add_sub_cancel] at hclose
    exact .inr ⟨_, s', _, l, .step hopen (hgo.trans (.one hclose)), by omega, hp⟩

theorem terminal {x : Terminal} (he : x ≠ .epsilon) (hs : P s.tail) :
    Spends t price (1 + price * s.tail.results.length) s [.terminal x] P := by
  cases hf : s.head with
  | error issue =>
    refine (of_done fun a ys built _ _ log => ⟨.error issue, ⟨s.tail, log⟩, ?_⟩).le (by omega)
    rw [step_terminal he]
    simp [consume, hf, fail]
  | ok found =>
    by_cases hx : found.terminal = x
    · exact token hf hx he hs
    · refine (of_done fun a ys built _ _ log =>
        ⟨.error (.tokenMismatch x found), ⟨s.tail, log⟩, ?_⟩).le (by omega)
      rw [step_terminal he]
      simp [consume, hf, hx, fail]

theorem bare {b : Nonterminal} {r : Rule} {found : Token} (hf : s.head = .ok found)
    (hr : t.rule? b found.terminal = some r) (he : r.isEpsilon) (hs : P s) :
    Spends t price (1 + price * s.results.length) s [.nonterminal b] P :=
  of_step (fun _ _ _ _ _ _ => ⟨_, _, step_bare hf hr he⟩) hs

theorem mismatch {b : Nonterminal} {found : Token} (hf : s.head = .ok found)
    (hr : t.rule? b found.terminal = none) : Spends t price 1 s [.nonterminal b] P :=
  of_done fun _ _ _ _ _ _ => ⟨.error (.grammarMismatch b found), _, by
    simp only [step, expand, hf, hr]
    rfl⟩

theorem lexical {b : Nonterminal} {issue : Issue} (hf : s.head = .error issue) :
    Spends t price 1 s [.nonterminal b] P :=
  of_done fun _ _ _ _ _ _ => ⟨.error issue, _, by
    simp only [step, expand, hf]
    rfl⟩

theorem of_vanishes {y : Symbol} (hy : (Openings.ofGrammar g).Vanishes y) (hc : 0 < c)
    (h : ∀ b, y = .nonterminal b → Spends t 0 c s [.nonterminal b] (· = s)) :
    Spends t 0 c s [y] (· = s) := by
  cases y with
  | terminal x =>
    obtain rfl : x = .epsilon := hy
    exact (epsilon (P := (· = s)) rfl).le (by omega)
  | nonterminal b => exact h b rfl

end Spends

variable {found : Token} {b : Nonterminal} {width : Nat}

/-- The place of a nonterminal among those that vanish, and among those that begin with a
terminal. -/
noncomputable def vanishingPlace (g : Grammar) : Nonterminal → Nat :=
  place fun a => (Openings.rounds g).round (a, none)

noncomputable def beginningPlace (g : Grammar) (x : Terminal) : Nonterminal → Nat :=
  place fun a => (Openings.rounds g).round (a, some x)

/-- A nonterminal that does not begin with the next token reads nothing. -/
theorem spends_vanishing (hb : Table.build g = .ok t)
    (hwidth : ∀ r ∈ g.rules, r.rhs.length ≤ width) (hf : s.head = .ok found)
    (hx : ((Openings.ofGrammar g).first.get b).mem found.terminal = false) :
    Spends t 0 ((width + 2) ^ (vanishingPlace g b + 1)) s [.nonterminal b] (· = s) := by
  induction hk : vanishingPlace g b using Nat.strongRecOn generalizing b with
  | _ k ih =>
    have hpos : 0 < (width + 2) ^ k := Nat.pow_pos (by omega)
    have hpow : (width + 2) ^ (k + 1) = width * (width + 2) ^ k + 2 * (width + 2) ^ k := by
      rw [Nat.pow_succ, Nat.mul_comm, Nat.add_mul]
    cases hr : t.rule? b found.terminal with
    | none => exact (Spends.mismatch (P := (· = s)) hf hr).le (by omega)
    | some r =>
      by_cases he : r.isEpsilon
      · exact (Spends.bare (P := (· = s)) hf hr he rfl).le (by omega)
      have hmem := (Grammar.mem_rulesFor.mp (Table.applies_of_rule? hb hr).1).1
      have hsymbols : ∀ y ∈ r.rhs, Spends t 0 ((width + 2) ^ k) s [y] (· = s) := by
        intro y hy
        obtain ⟨hv, hbelow⟩ := Table.rule?_vanishing hb hr hx hy
        refine .of_vanishes hv hpos fun c hc => ?_
        obtain ⟨hc, hround⟩ := hbelow c hc
        have hlt : vanishingPlace g c < k := hk ▸ place_lt_place hround
        exact (ih _ hlt hc rfl).le (Nat.pow_le_pow_right (by omega) (by omega))
      have hlen := Nat.mul_le_mul_right ((width + 2) ^ k) (hwidth r hmem)
      exact (Spends.node hf hr he (.list_same hsymbols)).le (by omega)

/-- What every nonterminal that reads nothing can be paid with. -/
theorem pow_vanishingPlace_le (g : Grammar) (b : Nonterminal) (width : Nat) :
    (width + 2) ^ (vanishingPlace g b + 1) ≤ (width + 2) ^ 16 :=
  Nat.pow_le_pow_right (by omega) (place_lt _ b)

/-- A nonterminal that begins with the next token reads it, if symbols behind that token keep to
their price. -/
theorem spends_beginning (price : Nat) (hb : Table.build g = .ok t)
    (hwidth : ∀ r ∈ g.rules, r.rhs.length ≤ width) (hf : s.head = .ok found)
    (hx : ((Openings.ofGrammar g).first.get b).mem found.terminal = true)
    (hbehind : ∀ s', s'.results.length ≤ s.tail.results.length → ∀ y,
      Spends t price ((width + 2) ^ 16 + price * s'.results.length) s' [y]
        fun s'' => s''.results.length ≤ s.tail.results.length) :
    Spends t price ((beginningPlace g found.terminal b + 1) * (2 + width * (width + 2) ^ 16) +
      price * s.tail.results.length) s [.nonterminal b]
        fun s' => s'.results.length ≤ s.tail.results.length := by
  induction hk : beginningPlace g found.terminal b using Nat.strongRecOn generalizing b with
  | _ k ih =>
    have hpos : 0 < (width + 2) ^ 16 := Nat.pow_pos (by omega)
    obtain ⟨r, ys, y, zs, hr, hrhs, hys, hy, hround⟩ := Table.rule?_beginning hb hx
    have hmem := (Grammar.mem_rulesFor.mp (Table.applies_of_rule? hb hr).1).1
    have hbefore : ∀ z ∈ ys, Spends t 0 ((width + 2) ^ 16) s [z] (· = s) := by
      intro z hz
      obtain ⟨hv, hbelow⟩ := hys z hz
      refine .of_vanishes hv hpos fun c hc => ?_
      exact (spends_vanishing hb hwidth hf (hbelow c hc)).le (pow_vanishingPlace_le g c width)
    have hreads : Spends t price ((width + 2) ^ 16 + k * (2 + width * (width + 2) ^ 16) +
        price * s.tail.results.length) s [y]
          fun s' => s'.results.length ≤ s.tail.results.length := by
      cases y with
      | terminal x =>
        obtain ⟨rfl, he⟩ := hy
        exact (Spends.token (P := fun s' => s'.results.length ≤ s.tail.results.length) hf rfl he
          le_rfl).le (by omega)
      | nonterminal c =>
        have hlt : beginningPlace g found.terminal c < k := hk ▸ place_lt_place (hround c rfl)
        have hle := Nat.mul_le_mul_right (2 + width * (width + 2) ^ 16)
          (show beginningPlace g found.terminal c + 1 ≤ k by omega)
        exact (ih _ hlt hy rfl).le (by omega)
    have hrest (s' : TokenStream) (hs' : s'.results.length ≤ s.tail.results.length) :=
      Spends.list (fun s' hs' z (_ : z ∈ zs) => hbehind s' hs' z) hs'
    have hall := ((Spends.list_same hbefore).append_same (hreads.append hrest)).le
      (c := (k + 1) * (2 + width * (width + 2) ^ 16) - 2 + price * s.tail.results.length) ?_
    · have he : ¬ r.isEpsilon := by
        intro he
        have hbare : r.rhs = [.terminal .epsilon] := of_decide_eq_true he
        have hy' : y ∈ r.rhs := by simp [hrhs]
        rw [hbare, List.mem_singleton] at hy'
        subst hy'
        exact hy.2 rfl
      refine (Spends.node hf hr he (hrhs ▸ hall)).le ?_
      rw [Nat.add_mul]
      omega
    · have hlen := hwidth r hmem
      rw [hrhs, List.length_append, List.length_cons] at hlen
      have hmul := Nat.mul_le_mul_right ((width + 2) ^ 16) hlen
      rw [Nat.add_mul, Nat.add_mul, Nat.one_mul] at hmul
      rw [Nat.add_mul k 1, Nat.one_mul]
      omega

def tokenPrice (width : Nat) : Nat := 16 * (2 + width * (width + 2) ^ 16)

/-- A symbol costs no more than a symbol that reads nothing, apart from what it reads. -/
theorem spends_symbol (hb : Table.build g = .ok t) (hg : g.EndFree)
    (hwidth : ∀ r ∈ g.rules, r.rhs.length ≤ width) (y : Symbol) {n : Nat}
    (hs : s.results.length ≤ n) :
    Spends t (tokenPrice width) ((width + 2) ^ 16 + tokenPrice width * s.results.length) s [y]
      fun s' => s'.results.length ≤ n := by
  induction hk : s.results.length using Nat.strongRecOn generalizing s y n with
  | _ k ih =>
    subst hk
    have hpos : 0 < (width + 2) ^ 16 := Nat.pow_pos (by omega)
    cases y with
    | terminal x =>
      by_cases he : x = .epsilon
      · subst he
        exact (Spends.epsilon (P := fun s' => s'.results.length ≤ n) hs).le (by omega)
      · have htail := s.length_tail
        have hle := Nat.mul_le_mul_left (tokenPrice width)
          (show s.tail.results.length ≤ s.results.length by omega)
        exact (Spends.terminal (P := fun s' => s'.results.length ≤ n) he (by omega)).le (by omega)
    | nonterminal b =>
      cases hf : s.head with
      | error issue => exact (Spends.lexical hf).le (by omega)
      | ok found =>
        cases hx : ((Openings.ofGrammar g).first.get b).mem found.terminal with
        | false =>
          have hle := pow_vanishingPlace_le g b width
          exact ((spends_vanishing hb hwidth hf hx).append_same (.nil hs)).le (by omega)
        | true =>
          have he : found.terminal ≠ .endOfStream := by
            intro he
            rw [he, Openings.endOfStream_not_mem_first hg] at hx
            cases hx
          have hpos := TokenStream.length_pos hf he
          have htail := s.length_tail
          have hplace : beginningPlace g found.terminal b < 16 := place_lt _ b
          have hreads := spends_beginning (tokenPrice width) hb hwidth hf hx
            fun s' hs' y => ih _ (by omega) y hs' rfl
          refine hreads.mono ?_ fun s' hs' => hs'.trans (by omega)
          have hmul := Nat.mul_le_mul_right (2 + width * (width + 2) ^ 16)
            (show beginningPlace g found.terminal b + 1 ≤ 16 by omega)
          have hsplit : tokenPrice width * s.results.length =
              tokenPrice width * s.tail.results.length + tokenPrice width := by
            rw [← Nat.mul_succ]
            congr 1
            omega
          rw [hsplit]
          rw [tokenPrice] at *
          omega

theorem length_le_width (rs : List Rule) (n : Nat) :
    n ≤ rs.foldl (fun n r => max n r.rhs.length) n ∧
      ∀ r ∈ rs, r.rhs.length ≤ rs.foldl (fun n r => max n r.rhs.length) n := by
  induction rs generalizing n with
  | nil => exact ⟨le_rfl, fun r hr => absurd hr List.not_mem_nil⟩
  | cons r rs ih =>
    obtain ⟨hn, hrs⟩ := ih (max n r.rhs.length)
    refine ⟨(le_max_left _ _).trans hn, ?_⟩
    rw [List.forall_mem_cons]
    exact ⟨(le_max_right _ _).trans hn, hrs⟩

theorem le_stepBound (width n : Nat) :
    width * (width + 2) ^ 16 + tokenPrice width * n + 1 ≤
      17 * Nat.pow (n + 2) 2 * Nat.pow (width + 2) 18 := by
  have hpos : 0 < (width + 2) ^ 16 := Nat.pow_pos (by omega)
  have hprice : tokenPrice width ≤ 16 * ((width + 2) * (width + 2) ^ 16) := by
    rw [tokenPrice, Nat.add_mul]
    omega
  have hwidth : 1 + width * (width + 2) ^ 16 ≤ (width + 2) * (width + 2) ^ 16 := by
    rw [Nat.add_mul]
    omega
  calc width * (width + 2) ^ 16 + tokenPrice width * n + 1
      ≤ (width + 2) * (width + 2) ^ 16 + 16 * ((width + 2) * (width + 2) ^ 16) * n := by
        have hn := Nat.mul_le_mul_right n hprice
        omega
    _ = (1 + 16 * n) * ((width + 2) * (width + 2) ^ 16) := by ring
    _ ≤ 17 * (n + 2) ^ 2 * ((width + 2) * (width + 2) ^ 16) := by
        refine Nat.mul_le_mul_right _ ?_
        nlinarith
    _ ≤ 17 * (n + 2) ^ 2 * ((width + 2) * ((width + 2) * (width + 2) ^ 16)) :=
        Nat.mul_le_mul_left _ (Nat.le_mul_of_pos_left _ (by omega))
    _ = 17 * Nat.pow (n + 2) 2 * Nat.pow (width + 2) 18 := by
        rw [show Nat.pow (n + 2) 2 = (n + 2) ^ 2 from rfl,
          show Nat.pow (width + 2) 18 = (width + 2) ^ 18 from rfl]
        ring

/-- A parse with a table that was built ends within its bound. -/
theorem runFor_stepBound (hb : Table.build g = .ok t) (hg : g.EndFree) (p : Parser) :
    (runFor t (stepBound t p.input) (start t p)).isSome := by
  have hwidth := (length_le_width g.rules 0).2
  have hstart : g.start ∈ g.rules := List.head_mem g.rules_ne_nil
  have hspends := Spends.list (P := fun s => s.results.length ≤ p.input.results.length)
    (fun s hs y (_ : y ∈ g.start.rhs) => spends_symbol hb hg hwidth y hs) le_rfl
  have hbound := le_stepBound (g.rules.foldl (fun n r => max n r.rhs.length) 0)
    p.input.results.length
  have hlen := Nat.mul_le_mul_right
    ((g.rules.foldl (fun n r => max n r.rhs.length) 0 + 2) ^ 16) (hwidth _ hstart)
  obtain ⟨k, hk, out, hout⟩ : ∃ k, k ≤ stepBound t p.input ∧
      ∃ out, runFor t k (start t p) = some out := by
    rw [stepBound, start, Table.grammar_build hb]
    rcases hspends g.start.lhs [] [] [] (nestingOf g.start.lhs) (g.start.index :: p.applied) with
      ⟨n, hn, hrun⟩ | ⟨n, s', built, log, hgo, hn, -⟩
    · rw [List.append_nil] at hrun
      exact ⟨n, by omega, Option.isSome_iff_exists.mp hrun⟩
    · rw [List.append_nil] at hgo
      refine ⟨n + 1, by omega, ?_⟩
      rcases step_finish_cases t g.start.lhs built (nestingOf g.start.lhs) s' log with
        ⟨found, hf, he⟩ | ⟨issue, q, hstep⟩
      · exact ⟨_, (hgo.runFor 1).trans (runFor_done (step_finish_ok hf he))⟩
      · exact ⟨_, (hgo.runFor 1).trans (runFor_done hstep)⟩
  rw [← Nat.add_sub_cancel' hk, runFor_add hout]
  rfl

theorem run_eq_of_runFor (hb : Table.build g = .ok t) (hg : g.EndFree) {p : Parser} {n : Nat}
    {out : Except Issue Tree × Parser} (h : runFor t n (start t p) = some out) :
    Parser.run t p = out := by
  obtain ⟨out', hout⟩ := Option.isSome_iff_exists.mp (runFor_stepBound hb hg p)
  rw [Parser.run, hout, runFor_unique h hout]
  rfl

end Machine
end FortressLang
