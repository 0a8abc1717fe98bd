import FortressLang.Proofs.ParserTermination

/-! Parsing always ends, with every table that was built: whatever stands on its stack and however
deep it is nested, no machine takes steps for ever. -/
namespace FortressLang
namespace Machine

variable {g : Grammar} {t : Table}

/-- A machine stops, or gets the pending symbols of its current node behind itself. -/
theorem stops_or_completes (hb : Table.build g = .ok t) (hg : g.EndFree) (a : Nonterminal)
    (xs : List Symbol) (built : List Tree) (ancestors : List Frame) (nesting : Nat)
    (s : TokenStream) (log : List Nat) :
    (∃ n, (runFor t n ⟨⟨a, xs, built⟩, ancestors, nesting, s, log⟩).isSome) ∨
      ∃ n s' built' log', Goes t ⟨⟨a, xs, built⟩, ancestors, nesting, s, log⟩ n
        ⟨⟨a, [], built'⟩, ancestors, nesting, s', log'⟩ := by
  have hwidth := (length_le_width g.rules 0).2
  have hspends := Spends.list (P := fun s' => s'.results.length ≤ s.results.length)
    (fun s' hs y (_ : y ∈ xs) => spends_symbol hb hg hwidth y hs) le_rfl
  have h := hspends a [] built ancestors nesting log
  rw [List.append_nil] at h
  rcases h with ⟨n, -, hrun⟩ | ⟨n, s', built', log', hgo, -, -⟩
  · exact .inl ⟨n, hrun⟩
  · exact .inr ⟨n, s', built', log', hgo⟩

theorem finish_halts (t : Table) (a : Nonterminal) (built : List Tree) (nesting : Nat)
    (s : TokenStream) (log : List Nat) :
    (runFor t 1 ⟨⟨a, [], built⟩, [], nesting, s, log⟩).isSome := by
  rcases step_finish_cases t a built nesting s log with ⟨found, hf, he⟩ | ⟨issue, p, hstep⟩
  · rw [runFor_done (step_finish_ok hf he)]
    rfl
  · rw [runFor_done hstep]
    rfl

/-- Every machine stops: it works off its current node, closes it, and goes on with the parent. -/
theorem halts (hb : Table.build g = .ok t) (hg : g.EndFree) (m : Machine) :
    ∃ n, (m.runFor t n).isSome := by
  obtain ⟨⟨a, xs, built⟩, ancestors, nesting, s, log⟩ := m
  induction ancestors generalizing a xs built nesting s log with
  | nil =>
    rcases stops_or_completes hb hg a xs built [] nesting s log with
      ⟨n, hrun⟩ | ⟨n, s', built', log', hgo⟩
    · exact ⟨n, hrun⟩
    · refine ⟨n + 1, ?_⟩
      rw [hgo.runFor]
      exact finish_halts t a built' nesting s' log'
  | cons parent ancestors ih =>
    rcases stops_or_completes hb hg a xs built (parent :: ancestors) nesting s log with
      ⟨n, hrun⟩ | ⟨n, s', built', log', hgo⟩
    · exact ⟨n, hrun⟩
    · obtain ⟨b, ys, siblings⟩ := parent
      have hclose : step t ⟨⟨a, [], built'⟩, ⟨b, ys, siblings⟩ :: ancestors, nesting, s', log'⟩ =
          .going ⟨⟨b, ys, .node (.nonterminal a) built'.reverse :: siblings⟩, ancestors,
            nesting - nestingOf a, s', log'⟩ := step_close
      obtain ⟨k, hk⟩ : ∃ k, (runFor t k ⟨⟨b, ys, .node (.nonterminal a) built'.reverse :: siblings⟩,
        ancestors, nesting - nestingOf a, s', log'⟩).isSome := ih ..
      refine ⟨n + 1 + k, ?_⟩
      rw [(hgo.trans (.one hclose)).runFor]
      exact hk

/-- What stops does not take steps for ever. -/
theorem not_forever {m : Machine} {n : Nat} (h : (m.runFor t n).isSome) (ms : Nat → Machine)
    (h₀ : ms 0 = m) : ¬ ∀ i, (ms i).step t = .going (ms (i + 1)) := by
  induction n generalizing m ms with
  | zero => cases h
  | succ n ih =>
    intro hsteps
    have hfirst := hsteps 0
    rw [h₀] at hfirst
    rw [runFor, hfirst] at h
    exact ih h (fun i => ms (i + 1)) rfl fun i => hsteps (i + 1)

end Machine

/-- For every grammar that has a table: whatever a parser has in front of it, its machine stops
within the bound and its outcome is the result of the parse; and from no machine, reached by a parse
or not, are there endless steps, so that no expansions without a token in between go on for ever. -/
theorem parser_always_ends {g : Grammar} {t : Table} (hg : g.Known) (ht : Table.build g = .ok t) :
    (∀ p : Parser, ∃ n ≤ Machine.stepBound t p.input,
      (Machine.start t p).runFor t n = some (Parser.run t p)) ∧
    ∀ ms : Nat → Machine, ¬ ∀ i, (ms i).step t = .going (ms (i + 1)) := by
  refine ⟨fun p => ?_, fun ms => ?_⟩
  · obtain ⟨out, hout⟩ := Option.isSome_iff_exists.mp (Machine.runFor_stepBound ht hg.endFree p)
    have hrun : Parser.run t p = out := Machine.run_eq_of_runFor ht hg.endFree hout
    exact ⟨_, le_rfl, hrun ▸ hout⟩
  · obtain ⟨n, hn⟩ := Machine.halts ht hg.endFree (ms 0)
    exact Machine.not_forever hn ms rfl

def leftList : Grammar :=
  .ofProductions [⟨.code, [.nonterminal .code, .terminal .varName]⟩] (by decide)

theorem ofDescription_leftList :
    Grammar.ofDescription "<Code>;<Code>;[VarName]" = .ok leftList := rfl

def leftListLookahead : Lookahead where
  openings := .empty
  follow := .tabulate fun a =>
    if a = .code then (TerminalSet.singleton .endOfStream).union (.singleton .varName) else .empty

theorem lookahead_leftList : Lookahead.ofGrammar leftList = leftListLookahead := by
  have ho := Openings.ofGrammar_eq (g := leftList) (fun _ => .empty) (k := 0) (by decide) rfl
    (by decide +kernel) (by decide +kernel)
  have hf := Follow.ofGrammar_eq (g := leftList) (o := .empty)
    (fun i => if i = 0 then .tabulate fun _ => .empty else leftListLookahead.follow) (k := 1)
    (by decide) rfl (by decide +kernel) (by decide +kernel)
  exact Lookahead.ofGrammar_eq ho hf

theorem build_leftList :
    Table.build leftList = .ok (.ofLookahead leftList leftListLookahead) := by
  have hc : (Table.ofLookahead leftList leftListLookahead).conflict? leftListLookahead = none := by
    decide +kernel
  rw [Table.build, lookahead_leftList, hc]

/-- Parsing ends with a rule that begins with its own nonterminal. -/
theorem parser_ends_on_left_list :
    leftList.Known ∧ Table.build leftList = .ok (.ofLookahead leftList leftListLookahead) ∧
    (∀ p : Parser, ∃ n ≤ Machine.stepBound (.ofLookahead leftList leftListLookahead) p.input,
      (Machine.start (.ofLookahead leftList leftListLookahead) p).runFor
          (.ofLookahead leftList leftListLookahead) n =
        some (Parser.run (.ofLookahead leftList leftListLookahead) p)) ∧
    ∀ ms : Nat → Machine, ¬ ∀ i,
      (ms i).step (.ofLookahead leftList leftListLookahead) = .going (ms (i + 1)) := by
  have hknown : leftList.Known := .inr ⟨_, ofDescription_leftList⟩
  exact ⟨hknown, build_leftList, parser_always_ends hknown build_leftList⟩

end FortressLang
