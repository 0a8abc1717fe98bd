import FortressLang.Proofs.DescribedGrammar
import FortressLang.Proofs.Derivation
import FortressLang.Proofs.ParserSteps
import FortressLang.Proofs.TableEntries

/-! What a successful parse returns is a derivation tree of the tokens it has read. -/
namespace FortressLang

theorem TokenStream.eq_put_tail {s : TokenStream} {found : Token} (hs : s.head = .ok found)
    (hf : found.terminal ≠ .endOfStream) : s = s.tail.put [found] := by
  obtain ⟨_ | ⟨x, xs⟩, finish⟩ := s
  · cases hs
    exact absurd rfl hf
  · cases hs
    rfl

theorem Rule.weight_of_isEpsilon {r : Rule} (h : r.isEpsilon) : r.weight = 0 := if_pos h

theorem Rule.weight_of_not_isEpsilon {r : Rule} (h : ¬ r.isEpsilon) :
    r.weight = nestingOf r.lhs := if_neg h

theorem Derives.bare {g : Grammar} {r : Rule} (h : r.isEpsilon) : Derives g r.rhs [] [] 0 := by
  have hrhs : r.rhs = [.terminal .epsilon] := of_decide_eq_true h
  rw [hrhs]
  exact .epsilon .nil

theorem nestingOf_of_ne {a : Nonterminal} (h : a ≠ .code) : nestingOf a = 1 := if_neg h

namespace Machine

variable {g : Grammar} {t : Table}

theorem add_nestingOf_le {a : Nonterminal} {nesting : Nat} (hn : nesting ≤ nestingLimit)
    (h : ¬ (a ≠ .code ∧ nesting = nestingLimit)) : nesting + nestingOf a ≤ nestingLimit := by
  by_cases ha : a = .code
  · subst ha
    exact hn
  · rw [nestingOf_of_ne ha]
    have hne : nesting ≠ nestingLimit := fun he => h ⟨ha, he⟩
    omega

/-- In front of the rest of the stream stand tokens that the symbols derive, within the nesting
limit. -/
def Consumes (g : Grammar) (nesting : Nat) (s : TokenStream) (xs : List Symbol) (ts : List Tree)
    (rest : TokenStream) : Prop :=
  ∃ w d, Derives g xs ts w d ∧ nesting + d ≤ nestingLimit ∧ s = rest.put w

namespace Consumes

variable {nesting : Nat} {s s' s'' : TokenStream} {xs : List Symbol} {cs ts : List Tree}

theorem nil (hn : nesting ≤ nestingLimit) : Consumes g nesting s [] [] s :=
  ⟨[], 0, .nil, hn, rfl⟩

theorem epsilon : Consumes g nesting s xs ts s' →
    Consumes g nesting s (.terminal .epsilon :: xs) ts s'
  | ⟨w, d, hd, hl, hs⟩ => ⟨w, d, .epsilon hd, hl, hs⟩

theorem token {x : Terminal} {found : Token} (hs : s.head = .ok found)
    (hf : found.terminal = x) (hx : x ≠ .epsilon) (hend : x ≠ .endOfStream)
    (h : Consumes g nesting s.tail xs ts s') :
    Consumes g nesting s (.terminal x :: xs) (.leaf found :: ts) s' := by
  obtain ⟨w, d, hd, hl, hs'⟩ := h
  refine ⟨found :: w, d, .token found hf hx hd, hl, ?_⟩
  rw [TokenStream.eq_put_tail hs (hf ▸ hend), hs', ← TokenStream.put_append]
  rfl

theorem bare {r : Rule} (hr : r ∈ g.rulesFor r.lhs) (he : r.isEpsilon)
    (h : Consumes g nesting s xs ts s') :
    Consumes g nesting s (.nonterminal r.lhs :: xs) (.node (.nonterminal r.lhs) [] :: ts) s' := by
  obtain ⟨w, d, hd, hl, hs⟩ := h
  refine ⟨w, _, .node r hr (.bare he) hd, ?_, hs⟩
  rw [Rule.weight_of_isEpsilon he]
  omega

theorem node {r : Rule} (hr : r ∈ g.rulesFor r.lhs) (he : ¬ r.isEpsilon)
    (h : Consumes g (nesting + nestingOf r.lhs) s r.rhs cs s')
    (h' : Consumes g nesting s' xs ts s'') :
    Consumes g nesting s (.nonterminal r.lhs :: xs) (.node (.nonterminal r.lhs) cs :: ts) s'' := by
  obtain ⟨w, m, hm, hlm, hs⟩ := h
  obtain ⟨v, d, hd, hld, hs'⟩ := h'
  refine ⟨w ++ v, _, .node r hr hm hd, ?_, ?_⟩
  · rw [Rule.weight_of_not_isEpsilon he]
    omega
  · rw [hs, hs', TokenStream.put_append]

end Consumes

/-- A run that succeeds first consumes what the symbols of the current node derive, and then goes on
with the node completed. -/
theorem consumes_of_runFor (hb : Table.build g = .ok t) (hg : g.EndFree) {tree : Tree} {p : Parser}
    (n : Nat) {a : Nonterminal} {xs : List Symbol} {built : List Tree} {ancestors : List Frame}
    {nesting : Nat} {s : TokenStream} {log : List Nat} (hxs : .terminal .endOfStream ∉ xs)
    (hn : nesting ≤ nestingLimit)
    (h : runFor t n ⟨⟨a, xs, built⟩, ancestors, nesting, s, log⟩ = some (.ok tree, p)) :
    ∃ k ts s' log', k ≤ n ∧ Consumes g nesting s xs ts s' ∧
      runFor t k ⟨⟨a, [], ts.reverse ++ built⟩, ancestors, nesting, s', log'⟩ =
        some (.ok tree, p) := by
  induction n using Nat.strongRecOn generalizing a xs built ancestors nesting s log with
  | _ n ih =>
    cases xs with
    | nil => exact ⟨n, [], s, log, le_rfl, .nil hn, h⟩
    | cons y xs =>
      cases n with
      | zero => cases h
      | succ n =>
        have hturn : Turn t a xs built ancestors nesting s log y
            (step t ⟨⟨a, y :: xs, built⟩, ancestors, nesting, s, log⟩) := step_turn
        rw [runFor] at h
        rw [List.mem_cons, not_or] at hxs
        generalize step t _ = progress at h hturn
        cases hturn with
        | fails issue p => cases h
        | epsilon =>
          obtain ⟨k, ts, s', log', hk, hc, hr⟩ := ih n n.lt_succ_self hxs.2 hn h
          exact ⟨k, ts, s', log', by omega, hc.epsilon, hr⟩
        | @token x found hs hf hx =>
          obtain ⟨k, ts, s', log', hk, hc, hr⟩ := ih n n.lt_succ_self hxs.2 hn h
          have hend : x ≠ .endOfStream := fun he => hxs.1 (he ▸ rfl)
          exact ⟨k, _, s', log', by omega, hc.token hs hf hx hend, by simpa using hr⟩
        | bare found r hs hr he =>
          obtain ⟨k, ts, s', log', hk, hc, hrun⟩ := ih n n.lt_succ_self hxs.2 hn h
          have happ := (Table.applies_of_rule? hb hr).1
          obtain ⟨-, rfl⟩ := Grammar.mem_rulesFor.mp happ
          exact ⟨k, _, s', log', by omega, hc.bare happ he, by simpa using hrun⟩
        | opens found r hs hr he hd =>
          have happ := (Table.applies_of_rule? hb hr).1
          obtain ⟨hmem, rfl⟩ := Grammar.mem_rulesFor.mp happ
          obtain ⟨k₁, cs, s₁, log₁, hk₁, hc₁, hr₁⟩ :=
            ih n n.lt_succ_self (hg r hmem) (add_nestingOf_le hn hd) h
          cases k₁ with
          | zero => cases hr₁
          | succ k₁ =>
            rw [runFor, step_close, Nat.add_sub_cancel] at hr₁
            obtain ⟨k, ts, s', log', hk, hc, hrun⟩ := ih k₁ (by omega) hxs.2 hn hr₁
            exact ⟨k, _, s', log', by omega, hc₁.node happ he hc, by simpa using hrun⟩

theorem nestingOf_le (a : Nonterminal) : nestingOf a ≤ 1 := by
  rw [nestingOf]
  split <;> omega

theorem derivation_of_runFor (hb : Table.build g = .ok t) (hg : g.EndFree) {tree : Tree}
    {p q : Parser} {n : Nat} (h : runFor t n (start t p) = some (.ok tree, q)) :
    ∃ (w : List Token) (d : Nat) (s : TokenStream) (found : Token), Derivation g tree w d ∧
      d ≤ nestingLimit ∧ p.input = s.put w ∧ s.head = .ok found ∧
        found.terminal = .endOfStream := by
  have hstart : g.start ∈ g.rules := List.head_mem g.rules_ne_nil
  have hone := nestingOf_le g.start.lhs
  have hnesting : nestingOf g.start.lhs ≤ nestingLimit := hone.trans (by decide)
  rw [start, Table.grammar_build hb] at h
  obtain ⟨k, ts, s, log, hk, ⟨w, d, hd, hl, hs⟩, hr⟩ :=
    consumes_of_runFor hb hg n (hg _ hstart) hnesting h
  have hweight : g.start.weight ≤ nestingOf g.start.lhs := by
    rw [Rule.weight]
    split <;> omega
  cases k with
  | zero => cases hr
  | succ k =>
    rw [runFor] at hr
    rcases step_finish_cases t g.start.lhs (ts.reverse ++ []) (nestingOf g.start.lhs) s log with
      ⟨found, hf, he⟩ | ⟨issue, q', hstep⟩
    · rw [step_finish_ok hf he] at hr
      cases hr
      refine ⟨w, _, s, found, ⟨ts, d, hd, ?_, rfl⟩, by omega, hs, hf, he⟩
      rw [List.append_nil, List.reverse_reverse]
    · rw [hstep] at hr
      cases hr

end Machine
end FortressLang
