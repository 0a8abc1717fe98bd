import FortressLang.Proofs.ParserAcceptance
import FortressLang.Proofs.ParserStack

/-! The log of a parser. Each run adds a leftmost derivation to it: of all its tokens, and then the
tree can be built again from these and the log; or up to the place where the run fails. -/
namespace FortressLang
namespace Parser

/-- What a run adds to the log. It begins with the start rule, and rewrites the start symbol to the
tokens that the run has matched and a rest behind them. -/
structure Logs (g : Grammar) (t : Table) (p : Parser) (log : List Nat) (w : List Token)
    (s : TokenStream) (rest : List Symbol) : Prop where
  left : (run t p).2 = ⟨s.tail, log.reverse ++ p.applied⟩
  input : p.input = s.put w
  first : log.head? = some 0
  rewrites : g.rewriteBy? log [.nonterminal g.startSymbol] = some ((kinds w).map .terminal ++ rest)
  accepted : ∀ tree, (run t p).1 = .ok tree →
    rest = [] ∧ (∃ found, s.head = .ok found ∧ found.terminal = .endOfStream) ∧
      g.treeOf? log w = some tree
  failed : ∀ issue, (run t p).1 = .error issue → issue.LiesAt s

/-- The parser after a number of runs. -/
def afterRuns (t : Table) : Nat → Parser → Parser
  | 0, p => p
  | n + 1, p => afterRuns t n (run t p).2

variable {g : Grammar} {t : Table}

/-- The machine's tree and log, at the step that ends the run, are what the run adds. -/
theorem exists_logs (hb : Table.build g = .ok t) (hg : g.EndFree) (p : Parser) :
    ∃ log w s rest, Logs g t p log w s rest := by
  obtain ⟨m, log, w, hm, hstep⟩ := run_reads hb hg p
  have hhalt := Machine.halt_of_step hstep
  have hfailed : ∀ issue, (run t p).1 = .error issue → issue.LiesAt m.input :=
    fun issue hrun => (hrun ▸ hhalt).liesAt
  generalize hrun : run t p = out at hhalt hfailed
  obtain ⟨result, q⟩ := out
  obtain ⟨⟨a, xs, built⟩, ancestors, nesting, s, applied⟩ := m
  cases hhalt with
  | @accepts found hs hf hancestors hpending =>
    obtain rfl : xs = [] := hpending
    obtain rfl : ancestors = [] := hancestors
    refine ⟨log, w, s, [], ?_, hm.input, hm.tree.head?_log, hm.tree.rewriteBy?, ?_, ?_⟩ <;>
      rw [hrun]
    · rw [← hm.applied]
    · rintro tree ⟨⟩
      exact ⟨rfl, ⟨found, hs, hf⟩, hm.tree.whole.treeOf?⟩
    · exact hfailed
  | fails _ _ =>
    refine ⟨log, w, s, _, ?_, hm.input, hm.tree.head?_log, hm.tree.rewriteBy?, ?_, ?_⟩ <;>
      rw [hrun]
    · rw [← hm.applied]
    · rintro tree ⟨⟩
    · exact hfailed
  | @deep b ys r found hpending hs hr =>
    obtain rfl : xs = .nonterminal b :: ys := hpending
    obtain ⟨hmem, rfl⟩ := Grammar.mem_rulesFor.mp (Table.applies_of_rule? hb hr).1
    have hopened := hm.tree.opened hmem
    refine ⟨log ++ [r.index], w, s, _, ?_, hm.input, hopened.head?_log, hopened.rewriteBy?, ?_,
      ?_⟩ <;> rw [hrun]
    · rw [hm.applied, List.reverse_append]
      rfl
    · rintro tree ⟨⟩
    · exact hfailed

/-- The log after several runs is made of what each of them adds. -/
theorem exists_logs_afterRuns (hb : Table.build g = .ok t) (hg : g.EndFree) (n : Nat) (p : Parser) :
    ∃ logs : List (List Nat), logs.length = n ∧
      (afterRuns t n p).applied.reverse = p.applied.reverse ++ logs.flatten ∧
      ∀ i log, logs[i]? = some log → ∃ w s rest, Logs g t (afterRuns t i p) log w s rest := by
  induction n generalizing p with
  | zero => exact ⟨[], rfl, by simp [afterRuns], by simp⟩
  | succ n ih =>
    obtain ⟨log, w, s, rest, hlog⟩ := exists_logs hb hg p
    obtain ⟨logs, hlength, happlied, hlogs⟩ := ih (run t p).2
    refine ⟨log :: logs, by rw [List.length_cons, hlength], ?_, ?_⟩
    · rw [afterRuns, happlied, hlog.left, List.reverse_append, List.reverse_reverse,
        List.append_assoc, List.flatten_cons]
    · intro i log' hi
      cases i with
      | zero =>
        obtain rfl := Option.some.inj hi
        exact ⟨w, s, rest, hlog⟩
      | succ i => exact hlogs i log' hi

end Parser

/-- For every grammar that has a table: a run of a parser adds a leftmost derivation to the log,
which is complete if the run succeeds, and after several runs the log is what each has added, one
after the other. -/
theorem rule_log_is_leftmost_derivation {g : Grammar} {t : Table} (hg : g.Known)
    (ht : Table.build g = .ok t) :
    (∀ p : Parser, ∃ log w s rest, Parser.Logs g t p log w s rest) ∧
    ∀ n (p : Parser), ∃ logs : List (List Nat), logs.length = n ∧
      (∀ i log, logs[i]? = some log →
        ∃ w s rest, Parser.Logs g t (Parser.afterRuns t i p) log w s rest) ∧
      (Parser.afterRuns t n p).applied.reverse = p.applied.reverse ++ logs.flatten ∧
      (Parser.afterRuns t n p).derivation =
        " ".intercalate ((p.applied.reverse ++ logs.flatten).map fun i => toString (i + 1)) := by
  refine ⟨Parser.exists_logs ht hg.endFree, fun n p => ?_⟩
  obtain ⟨logs, hlength, happlied, hlogs⟩ := Parser.exists_logs_afterRuns ht hg.endFree n p
  exact ⟨logs, hlength, hlogs, happlied, by rw [Parser.derivation, happlied]⟩

/-- The first run derives both names. The second one is at the end of the stream, and adds no more
than the start rule. -/
theorem rule_log_of_two_names : nameList.Known ∧ ∃ t p,
    Table.build nameList = .ok t ∧ p = Parser.ofStream ⟨twoNames.map .ok, ⟨1, 4⟩⟩ ∧
    (∃ w s rest, Parser.Logs nameList t p [0, 0, 1] w s rest) ∧
    (∃ w s rest, Parser.Logs nameList t (Parser.run t p).2 [0] w s rest) ∧
    (Parser.afterRuns t 2 p).derivation = "1 1 2 1" := by
  let t : Table := .ofLookahead nameList nameListLookahead
  let p : Parser := .ofStream ⟨twoNames.map .ok, ⟨1, 4⟩⟩
  have hknown : nameList.Known := .inr ⟨_, ofDescription_nameList⟩
  obtain ⟨logs, hlength, hlogs, happlied, hderivation⟩ :=
    (rule_log_is_leftmost_derivation hknown build_nameList).2 2 p
  obtain ⟨first, second, rfl⟩ := List.length_eq_two.mp hlength
  have hfirst := hlogs 0 first rfl
  have hsecond := hlogs 1 second rfl
  obtain rfl : first = [0, 0, 1] := by
    obtain ⟨w, s, rest, hlog⟩ := hfirst
    have hreverse : first.reverse ++ [] = [1, 0, 0] :=
      (congrArg Parser.applied hlog.left).symm.trans (by decide)
    simpa using congrArg List.reverse hreverse
  obtain rfl : second = [0] := by
    have hboth : [0, 0, 1] ++ (second ++ []) = [0, 0, 1, 0] := happlied.symm.trans (by decide)
    simpa using hboth
  refine ⟨hknown, t, p, build_nameList, rfl, hfirst, hsecond, hderivation.trans ?_⟩
  decide

end FortressLang
