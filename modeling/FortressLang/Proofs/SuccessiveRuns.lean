import FortressLang.Proofs.ParserAcceptance
import FortressLang.Proofs.TokenBuffer

/-! One parser that is run several times. Each run begins in the source where the one before has
stopped, since none leaves a token in the lookahead. On a stream these are the runs of the parser
that has no lookahead. -/
namespace FortressLang

variable {σ : Type} {read : TokenSource σ} {t : Table}

/-- Runs of a parser one after the other, however each of them ends. -/
inductive RunsInTurn (read : TokenSource σ) (t : Table) :
    BufferedParser σ → List (ParseOutcome σ) → BufferedParser σ → Prop
  | nil {p : BufferedParser σ} : RunsInTurn read t p [] p
  | cons {p q : BufferedParser σ} {o : ParseOutcome σ} {os : List (ParseOutcome σ)} {n : Nat} :
    (BufferedMachine.start t p).runFor read t n = some o → RunsInTurn read t o.rest os q →
      RunsInTurn read t p (o :: os) q

/-- What each run used, from the source as the run before it has left it. -/
inductive UsedInTurn (read : TokenSource σ) :
    σ → List (ParseOutcome σ) → List (List (Except Issue Token)) → Prop
  | nil {s : σ} : UsedInTurn read s [] []
  | cons {s : σ} {o : ParseOutcome σ} {os : List (ParseOutcome σ)}
    {used : List (Except Issue Token)} {uses : List (List (Except Issue Token))} :
    o.Used read s used → UsedInTurn read o.rest.buffer.source os uses →
      UsedInTurn read s (o :: os) (used :: uses)

namespace ParseOutcome.Used

variable {s : σ} {o : ParseOutcome σ} {used : List (Except Issue Token)}

theorem hands (h : o.Used read s used) : read.Hands s used o.rest.buffer.source := by
  cases h with
  | accepted h _ => exact h
  | failed h _ => exact h

theorem lookahead (h : o.Used read s used) : o.rest.buffer.lookahead = none := by
  cases h <;> rfl

end ParseOutcome.Used

theorem BufferedParser.used_of_run {p : BufferedParser σ} (hp : p.buffer.lookahead = none) {n : Nat}
    {o : ParseOutcome σ} (h : (BufferedMachine.start t p).runFor read t n = some o) :
    ∃ used, o.Used read p.buffer.source used := by
  refine BufferedMachine.used_of_runFor ?_ h
  obtain ⟨⟨lookahead, source⟩, log⟩ := p
  obtain rfl : lookahead = none := hp
  have hnone : read.Hands source [] source := .none
  simpa [BufferedMachine.start, BufferedMachine.matched, Frame.ofRule, Frame.tokens,
    TokenBuffer.Holds] using hnone

/-- By induction on the runs: the stretches that they used lie one behind the other. -/
theorem RunsInTurn.used {p q : BufferedParser σ} {os : List (ParseOutcome σ)}
    (h : RunsInTurn read t p os q) (hp : p.buffer.lookahead = none) :
    q.buffer.lookahead = none ∧ ∃ uses, UsedInTurn read p.buffer.source os uses ∧
      read.Hands p.buffer.source uses.flatten q.buffer.source := by
  induction h with
  | nil => exact ⟨hp, [], .nil, .none⟩
  | cons hrun _ ih =>
    obtain ⟨used, hused⟩ := BufferedParser.used_of_run hp hrun
    obtain ⟨hq, uses, huses, hhands⟩ := ih hused.lookahead
    refine ⟨hq, used :: uses, .cons hused huses, ?_⟩
    rw [List.flatten_cons]
    exact hused.hands.append hhands

/-- A buffer on a stream shows it with the lookahead put back. -/
inductive TokenBuffer.Shows : TokenBuffer TokenStream → TokenStream → Prop
  | empty {s : TokenStream} : Shows ⟨none, s⟩ s
  | filled {s : TokenStream} {found : Token} : s.head = .ok found → Shows ⟨some found, s.tail⟩ s

namespace TokenBuffer

variable {b : TokenBuffer TokenStream} {s : TokenStream}

theorem next_shows (h : b.Shows s) : b.next TokenStream.next = (s.head, ⟨none, s.tail⟩) := by
  cases h with
  | empty => rfl
  | filled hs => simp [next, hs]

theorem peek_shows (h : b.Shows s) :
    b.peek TokenStream.next = (s.head, ⟨s.head.toOption, s.tail⟩) := by
  rw [peek, next_shows h]
  cases s.head <;> rfl

end TokenBuffer

def BufferedParser.onStream (p : BufferedParser TokenStream) : Parser :=
  ⟨p.buffer.source, p.applied⟩

def Parser.buffered (p : Parser) : BufferedParser TokenStream := ⟨⟨none, p.input⟩, p.applied⟩

/-- The machine that has no lookahead, with the stream that the buffer shows. -/
def BufferedMachine.onStream (m : BufferedMachine TokenStream) (s : TokenStream) : Machine :=
  ⟨m.current, m.ancestors, m.nesting, s, m.applied⟩

/-- The same progress with a lookahead and without one. -/
inductive BufferedProgress.Agrees : BufferedProgress TokenStream → Progress → Prop
  | going {m : BufferedMachine TokenStream} {s : TokenStream} : m.buffer.Shows s →
    Agrees (.going m) (.going (m.onStream s))
  | done {o : ParseOutcome TokenStream} : Agrees (.done o) (.done o.result o.rest.onStream)

namespace BufferedMachine

variable {m : BufferedMachine TokenStream} {s : TokenStream}

theorem withNext_shows (h : m.buffer.Shows s)
    (go : Token → BufferedMachine TokenStream → BufferedProgress TokenStream) :
    m.withToken (·.next TokenStream.next) go =
      match s.head with
      | .ok found => go found { m with buffer := ⟨none, s.tail⟩ }
      | .error issue => { m with buffer := ⟨none, s.tail⟩ }.stop (.error issue) := by
  simp only [withToken, TokenBuffer.next_shows h]
  cases s.head <;> rfl

theorem withPeek_shows (h : m.buffer.Shows s)
    (go : Token → BufferedMachine TokenStream → BufferedProgress TokenStream) :
    m.withToken (·.peek TokenStream.next) go =
      match s.head with
      | .ok found => go found { m with buffer := ⟨some found, s.tail⟩ }
      | .error issue => { m with buffer := ⟨none, s.tail⟩ }.stop (.error issue) := by
  simp only [withToken, TokenBuffer.peek_shows h]
  cases s.head <;> rfl

theorem agrees_failAt (h : m.buffer.Shows s) {found : Token} (hs : s.head = .ok found)
    (issue : Token → Issue) :
    (m.failAt TokenStream.next issue).Agrees ((m.onStream s).fail (issue found)) := by
  rw [failAt, withNext_shows h, hs]
  exact .done

theorem agrees_finish (h : m.buffer.Shows s) (tree : Tree) :
    (m.finish TokenStream.next tree).Agrees ((m.onStream s).finish tree) := by
  rw [finish, withNext_shows h]
  simp only [Machine.finish, onStream]
  cases hs : s.head with
  | error issue => exact .done
  | ok found =>
    by_cases hend : found.terminal = .endOfStream
    · simp only [hend, if_true]
      exact .done
    · simp only [hend, if_false]
      exact .done

theorem agrees_close (h : m.buffer.Shows s) :
    (m.close TokenStream.next).Agrees ((m.onStream s).close) := by
  obtain ⟨current, ancestors, nesting, buffer, log⟩ := m
  cases ancestors with
  | nil => exact agrees_finish h _
  | cons parent ancestors => exact .going h

theorem agrees_consume (h : m.buffer.Shows s) (expected : Terminal) :
    (m.consume TokenStream.next expected).Agrees ((m.onStream s).consume expected) := by
  rw [consume, withNext_shows h]
  simp only [Machine.consume, onStream]
  cases hs : s.head with
  | error issue => exact .done
  | ok found =>
    by_cases hfound : found.terminal = expected
    · simp only [hfound, if_true]
      exact .going .empty
    · simp only [hfound, if_false]
      exact .done

theorem agrees_apply (h : m.buffer.Shows s) {found : Token} (hs : s.head = .ok found) (r : Rule) :
    (m.apply TokenStream.next r).Agrees ((m.onStream s).apply r found) := by
  let logged : BufferedMachine TokenStream := { m with applied := r.index :: m.applied }
  have hlogged : logged.buffer.Shows s := h
  have hnesting : (m.onStream s).nesting = m.nesting := rfl
  simp only [apply, Machine.apply, hnesting]
  by_cases he : r.isEpsilon
  · rw [if_pos he, if_pos he]
    exact .going h
  rw [if_neg he, if_neg he]
  by_cases hdeep : r.lhs ≠ .code ∧ m.nesting = nestingLimit
  · rw [if_pos hdeep, if_pos hdeep]
    exact agrees_failAt hlogged hs _
  · rw [if_neg hdeep, if_neg hdeep]
    exact .going h

theorem agrees_expand (h : m.buffer.Shows s) (a : Nonterminal) :
    (m.expand TokenStream.next t a).Agrees ((m.onStream s).expand t a) := by
  rw [expand, withPeek_shows h]
  simp only [Machine.expand, onStream]
  cases hs : s.head with
  | error issue => exact .done
  | ok found =>
    have hpeeked : ({ m with buffer := ⟨some found, s.tail⟩ } :
        BufferedMachine TokenStream).buffer.Shows s := .filled hs
    cases hr : t.rule? a found.terminal with
    | none =>
      simp only [hr]
      exact agrees_failAt hpeeked hs _
    | some r =>
      simp only [hr]
      exact agrees_apply hpeeked hs r

/-- The lookahead makes no difference to a step. -/
theorem agrees_step (h : m.buffer.Shows s) :
    (m.step TokenStream.next t).Agrees ((m.onStream s).step t) := by
  obtain ⟨⟨lhs, pending, built⟩, ancestors, nesting, buffer, log⟩ := m
  cases pending with
  | nil => exact agrees_close h
  | cons x xs =>
    have hrest : (⟨⟨lhs, xs, built⟩, ancestors, nesting, buffer, log⟩ :
        BufferedMachine TokenStream).buffer.Shows s := h
    cases x with
    | nonterminal a => exact agrees_expand hrest a
    | terminal x =>
      by_cases hx : x = .epsilon
      · subst hx
        exact .going h
      · rw [step_terminal hx, onStream, Machine.step_terminal hx]
        exact agrees_consume hrest x

theorem runFor_onStream (h : m.buffer.Shows s) (n : Nat) :
    (m.onStream s).runFor t n =
      (m.runFor TokenStream.next t n).map fun o => (o.result, o.rest.onStream) := by
  induction n generalizing m s with
  | zero => rfl
  | succ n ih =>
    have hstep : (m.step TokenStream.next t).Agrees ((m.onStream s).step t) := agrees_step h
    rw [Machine.runFor, runFor]
    generalize m.step TokenStream.next t = progress, (m.onStream s).step t = progress' at hstep
    cases hstep with
    | going hm => exact ih hm
    | done => rfl

end BufferedMachine

theorem Parser.run_buffered {g : Grammar} (ht : Table.build g = .ok t) (hg : g.EndFree)
    (p : Parser) : ∃ n o,
      (BufferedMachine.start t p.buffered).runFor TokenStream.next t n = some o ∧
      o.result = (Parser.run t p).1 ∧ o.rest = (Parser.run t p).2.buffered := by
  obtain ⟨out, hout⟩ := Option.isSome_iff_exists.mp (Machine.runFor_stepBound ht hg p)
  have hrun : Parser.run t p = out := Machine.run_eq_of_runFor ht hg hout
  have hstart : Machine.start t p = (BufferedMachine.start t p.buffered).onStream p.input := rfl
  rw [hstart, BufferedMachine.runFor_onStream .empty, Option.map_eq_some_iff] at hout
  obtain ⟨o, ho, rfl⟩ := hout
  refine ⟨_, o, ho, by rw [hrun], ?_⟩
  obtain ⟨used, hused⟩ := BufferedParser.used_of_run rfl ho
  obtain ⟨result, matched, ⟨⟨lookahead, source⟩, log⟩⟩ := o
  obtain rfl : lookahead = none := hused.lookahead
  rw [hrun]
  rfl

def Parser.runs (t : Table) : Nat → Parser → List (Except Issue Tree) × Parser
  | 0, p => ([], p)
  | n + 1, p =>
    let (results, q) := runs t n (p.run t).2
    ((p.run t).1 :: results, q)

theorem Parser.runs_buffered {g : Grammar} (ht : Table.build g = .ok t) (hg : g.EndFree) (n : Nat)
    (p : Parser) : ∃ os, RunsInTurn TokenStream.next t p.buffered os (runs t n p).2.buffered ∧
      os.map ParseOutcome.result = (runs t n p).1 := by
  induction n generalizing p with
  | zero => exact ⟨[], .nil, rfl⟩
  | succ n ih =>
    obtain ⟨k, o, hrun, hresult, hrest⟩ := run_buffered ht hg p
    obtain ⟨os, hruns, hresults⟩ := ih (p.run t).2
    refine ⟨o :: os, .cons hrun ?_, ?_⟩
    · rw [hrest]
      exact hruns
    · rw [List.map_cons, hresult, hresults]
      rfl

/-- For every grammar with a table, every source and any number of runs of one parser, however each
of them ends: what the parser took from the source is what the runs used, one behind the other, and
none leaves a token in the lookahead. A run with a tree has used the tokens of the tree and one end
of the stream; a run with an issue has used the tokens that it matched and what the issue is about.
On a stream these are the runs of the parser that has no lookahead, if the grammar is the default
one or was read from a description. -/
theorem successive_runs_share_nothing {g : Grammar} {t : Table} (ht : Table.build g = .ok t) :
    (∀ {σ : Type} (read : TokenSource σ) (p q : BufferedParser σ) (os : List (ParseOutcome σ)),
      p.buffer.lookahead = none → RunsInTurn read t p os q →
        q.buffer.lookahead = none ∧ ∃ uses, UsedInTurn read p.buffer.source os uses ∧
          read.Hands p.buffer.source uses.flatten q.buffer.source) ∧
    (g.Known → ∀ (n : Nat) (p : Parser), ∃ os,
      RunsInTurn TokenStream.next t p.buffered os (Parser.runs t n p).2.buffered ∧
        os.map ParseOutcome.result = (Parser.runs t n p).1) :=
  ⟨fun _ _ _ _ hp hruns => hruns.used hp, fun hg => Parser.runs_buffered ht hg.endFree⟩

def threeParts : TokenStream :=
  ⟨[.ok ⟨.varName, "a", ⟨1, 1⟩⟩, .ok (.endOfStream ⟨1, 2⟩), .ok ⟨.varName, "b", ⟨2, 1⟩⟩,
    .ok ⟨.comma, ",", ⟨2, 2⟩⟩, .error (.unknownCharacter '?' ⟨2, 3⟩)], ⟨2, 4⟩⟩

/-- The first run returns a tree, the second stops at the comma after it has looked at it, and the
third at the lexical error. -/
theorem three_runs_share_nothing : ∃ t p q os,
    Table.build nameList = .ok t ∧ nameList.Known ∧
    p.buffer.lookahead = none ∧ p.buffer.source = threeParts ∧
    RunsInTurn TokenStream.next t p os q ∧
    (os.map fun o => o.result.isOk) = [true, false, false] ∧
    q.buffer.lookahead = none ∧ q.buffer.source.results = [] ∧
    (∃ uses, UsedInTurn TokenStream.next p.buffer.source os uses ∧
      TokenSource.Hands TokenStream.next p.buffer.source uses.flatten q.buffer.source) ∧
    ∃ os', RunsInTurn TokenStream.next t p os' (Parser.runs t 3 (.ofStream threeParts)).2.buffered ∧
      os'.map ParseOutcome.result = (Parser.runs t 3 (.ofStream threeParts)).1 := by
  have hknown : nameList.Known := .inr ⟨_, ofDescription_nameList⟩
  have hruns : RunsInTurn TokenStream.next (.ofLookahead nameList nameListLookahead)
      ⟨⟨none, threeParts⟩, []⟩ _ _ :=
    .cons (n := 10) rfl (.cons (n := 10) rfl (.cons (n := 10) rfl .nil))
  obtain ⟨hused, hstream⟩ := successive_runs_share_nothing build_nameList
  obtain ⟨hq, huses⟩ := hused _ _ _ _ rfl hruns
  exact ⟨_, _, _, _, build_nameList, hknown, rfl, rfl, hruns, rfl, hq, rfl, huses,
    hstream hknown 3 (.ofStream threeParts)⟩

end FortressLang
