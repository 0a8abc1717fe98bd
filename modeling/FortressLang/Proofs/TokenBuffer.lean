import FortressLang.Proofs.ParserStack
import FortressLang.Proofs.SumOperands

/-! Parsing any source of tokens through a lookahead of one token. A machine peeks at the next token
to choose a rule and takes it to match it; whichever way a run ends, what it took from the source is
what it matched and one thing more. -/
namespace FortressLang

/-- One call of a source: what it hands out, and what the source is afterwards. -/
abbrev TokenSource (σ : Type) := σ → Except Issue Token × σ

variable {σ : Type} {read : TokenSource σ}

/-- Calls of a source one after the other, what they hand out, and the source afterwards. -/
inductive TokenSource.Hands (read : TokenSource σ) : σ → List (Except Issue Token) → σ → Prop
  | none {s : σ} : Hands read s [] s
  | call {s s' : σ} {rest : List (Except Issue Token)} :
    Hands read (read s).2 rest s' → Hands read s ((read s).1 :: rest) s'

namespace TokenSource.Hands

variable {s s' s'' : σ} {xs ys : List (Except Issue Token)}

theorem append (h : Hands read s xs s') (h' : Hands read s' ys s'') :
    Hands read s (xs ++ ys) s'' := by
  induction h with
  | none => exact h'
  | call _ ih => exact .call (ih h')

theorem snoc (h : Hands read s xs s') : Hands read s (xs ++ [(read s').1]) (read s').2 :=
  h.append (.call .none)

end TokenSource.Hands

/-- A source and the token that was taken from it and not used yet, if there is one. -/
structure TokenBuffer (σ : Type) where
  lookahead : Option Token
  source : σ

namespace TokenBuffer

def next (read : TokenSource σ) (b : TokenBuffer σ) : Except Issue Token × TokenBuffer σ :=
  match b.lookahead with
  | some found => (.ok found, ⟨none, b.source⟩)
  | none => ((read b.source).1, ⟨none, (read b.source).2⟩)

def peek (read : TokenSource σ) (b : TokenBuffer σ) : Except Issue Token × TokenBuffer σ :=
  match b.next read with
  | (.ok found, b) => (.ok found, { b with lookahead := some found })
  | (.error issue, b) => (.error issue, b)

variable {s : σ} {w : List Token} {b b' : TokenBuffer σ} {found : Token} {issue : Issue}

/-- The source has handed out the given tokens since it was as given, and then the lookahead. -/
def Holds (read : TokenSource σ) (s : σ) (w : List Token) (b : TokenBuffer σ) : Prop :=
  read.Hands s ((w ++ b.lookahead.toList).map .ok) b.source

theorem next_uses (h : b.Holds read s w) :
    read.Hands s (w.map .ok ++ [(b.next read).1]) (b.next read).2.source ∧
      (b.next read).2.lookahead = none := by
  obtain ⟨_ | found, source⟩ := b
  · refine ⟨?_, rfl⟩
    have hmore := TokenSource.Hands.snoc h
    simpa [next] using hmore
  · refine ⟨?_, rfl⟩
    simpa [next, Holds] using h

theorem next_ok (h : b.Holds read s w) (hb : b.next read = (.ok found, b')) :
    b'.Holds read s (w ++ [found]) ∧ b'.lookahead = none := by
  have huse := next_uses h
  rw [hb] at huse
  obtain ⟨hhands, hnone⟩ := huse
  refine ⟨?_, hnone⟩
  simpa [Holds, show b'.lookahead = none from hnone] using hhands

theorem next_error (h : b.Holds read s w) (hb : b.next read = (.error issue, b')) :
    read.Hands s (w.map .ok ++ [.error issue]) b'.source ∧ b'.lookahead = none := by
  have huse := next_uses h
  rwa [hb] at huse

theorem Holds.used (h : b.Holds read s (w ++ [found])) (hb : b.lookahead = none) :
    read.Hands s (w.map .ok ++ [.ok found]) b.source := by
  simpa [Holds, hb] using h

theorem peek_ok (h : b.Holds read s w) (hb : b.peek read = (.ok found, b')) :
    b'.Holds read s w := by
  unfold peek at hb
  split at hb
  · rename_i found' b'' hnext
    cases hb
    have huse := next_uses h
    rw [hnext] at huse
    simpa [Holds] using huse.1
  · cases hb

theorem peek_error (h : b.Holds read s w) (hb : b.peek read = (.error issue, b')) :
    read.Hands s (w.map .ok ++ [.error issue]) b'.source ∧ b'.lookahead = none := by
  unfold peek at hb
  split at hb
  · cases hb
  · rename_i issue' b'' hnext
    cases hb
    exact next_error h hnext

end TokenBuffer

/-- What is left between two parses of one source. -/
structure BufferedParser (σ : Type) where
  buffer : TokenBuffer σ
  applied : List Nat

/-- The end of a parse: its result, the tokens that it matched, and what is left. -/
structure ParseOutcome (σ : Type) where
  result : Except Issue Tree
  matched : List Token
  rest : BufferedParser σ

structure BufferedMachine (σ : Type) where
  current : Frame
  ancestors : List Frame
  nesting : Nat
  buffer : TokenBuffer σ
  applied : List Nat

inductive BufferedProgress (σ : Type)
  | going (m : BufferedMachine σ)
  | done (outcome : ParseOutcome σ)

def Frame.tokens (f : Frame) : List Token := f.built.reverse.flatMap Tree.tokens

@[simp] theorem Frame.tokens_add (f : Frame) (t : Tree) :
    (f.add t).tokens = f.tokens ++ t.tokens := by
  simp [tokens, add]

@[simp] theorem Frame.tokens_close (f : Frame) : f.close.tokens = f.tokens := by
  rw [close, Tree.tokens_eq]
  rfl

namespace BufferedMachine

variable {s : σ} {t : Table} {m m' : BufferedMachine σ} {n : Nat} {outcome : ParseOutcome σ}

def start (t : Table) (p : BufferedParser σ) : BufferedMachine σ :=
  let r := t.grammar.start
  ⟨.ofRule r, [], nestingOf r.lhs, p.buffer, r.index :: p.applied⟩

def matched (m : BufferedMachine σ) : List Token :=
  (m.current :: m.ancestors).reverse.flatMap Frame.tokens

def stop (m : BufferedMachine σ) (result : Except Issue Tree) : BufferedProgress σ :=
  .done ⟨result, m.matched, ⟨m.buffer, m.applied⟩⟩

/-- Goes on with the next token, which is taken as given; an error of the source ends the parse. -/
def withToken (take : TokenBuffer σ → Except Issue Token × TokenBuffer σ) (m : BufferedMachine σ)
    (go : Token → BufferedMachine σ → BufferedProgress σ) : BufferedProgress σ :=
  match take m.buffer with
  | (.ok found, b) => go found { m with buffer := b }
  | (.error issue, b) => { m with buffer := b }.stop (.error issue)

/-- Uses the next token, which is what the issue is about. -/
def failAt (read : TokenSource σ) (m : BufferedMachine σ) (issue : Token → Issue) :
    BufferedProgress σ :=
  m.withToken (·.next read) fun found m => m.stop (.error (issue found))

def finish (read : TokenSource σ) (m : BufferedMachine σ) (tree : Tree) : BufferedProgress σ :=
  m.withToken (·.next read) fun found m =>
    if found.terminal = .endOfStream then m.stop (.ok tree)
    else m.stop (.error (.trailingInput found))

def close (read : TokenSource σ) (m : BufferedMachine σ) : BufferedProgress σ :=
  match m.ancestors with
  | [] => m.finish read m.current.close
  | parent :: ancestors =>
    .going { m with
      current := parent.add m.current.close
      ancestors := ancestors
      nesting := m.nesting - nestingOf m.current.lhs }

def consume (read : TokenSource σ) (m : BufferedMachine σ) (expected : Terminal) :
    BufferedProgress σ :=
  m.withToken (·.next read) fun found m =>
    if found.terminal = expected then .going { m with current := m.current.add (.leaf found) }
    else m.stop (.error (.tokenMismatch expected found))

def apply (read : TokenSource σ) (m : BufferedMachine σ) (r : Rule) : BufferedProgress σ :=
  let m := { m with applied := r.index :: m.applied }
  if r.isEpsilon then
    .going { m with current := m.current.add (.node (.nonterminal r.lhs) []) }
  else if r.lhs ≠ .code ∧ m.nesting = nestingLimit then
    m.failAt read (.nestingTooDeep nestingLimit)
  else
    .going { m with
      current := .ofRule r
      ancestors := m.current :: m.ancestors
      nesting := m.nesting + nestingOf r.lhs }

def expand (read : TokenSource σ) (t : Table) (m : BufferedMachine σ) (a : Nonterminal) :
    BufferedProgress σ :=
  m.withToken (·.peek read) fun found m =>
    match t.rule? a found.terminal with
    | none => m.failAt read (.grammarMismatch a)
    | some r => m.apply read r

def step (read : TokenSource σ) (t : Table) (m : BufferedMachine σ) : BufferedProgress σ :=
  match m.current.pending with
  | [] => m.close read
  | x :: pending =>
    let m := { m with current := { m.current with pending := pending } }
    match x with
    | .terminal .epsilon => .going m
    | .terminal expected => m.consume read expected
    | .nonterminal a => m.expand read t a

/-- The outcome of a parse, if it comes within a number of steps. -/
def runFor (read : TokenSource σ) (t : Table) : Nat → BufferedMachine σ → Option (ParseOutcome σ)
  | 0, _ => none
  | n + 1, m =>
    match m.step read t with
    | .going m => m.runFor read t n
    | .done outcome => some outcome

end BufferedMachine

/-- The issue was handed out itself, or it is about the token that was. -/
def Issue.IsAbout (issue : Issue) (last : Except Issue Token) : Prop :=
  last = .error issue ∨ ∃ found, last = .ok found ∧ issue.found? = some found

/-- What a parse used, from the source as it was. The lookahead is empty afterwards. -/
inductive ParseOutcome.Used (read : TokenSource σ) (s : σ) :
    ParseOutcome σ → List (Except Issue Token) → Prop
  | accepted {tree : Tree} {last : Token} {s' : σ} {log : List Nat} :
    read.Hands s (tree.tokens.map .ok ++ [.ok last]) s' → last.terminal = .endOfStream →
      Used read s ⟨.ok tree, tree.tokens, ⟨⟨none, s'⟩, log⟩⟩ (tree.tokens.map .ok ++ [.ok last])
  | failed {issue : Issue} {matched : List Token} {last : Except Issue Token} {s' : σ}
    {log : List Nat} :
    read.Hands s (matched.map .ok ++ [last]) s' → issue.IsAbout last →
      Used read s ⟨.error issue, matched, ⟨⟨none, s'⟩, log⟩⟩ (matched.map .ok ++ [last])

/-- After a step the machine holds what it took, or the outcome tells what the parse used. -/
inductive BufferedProgress.Accounts (read : TokenSource σ) (s : σ) : BufferedProgress σ → Prop
  | going {m : BufferedMachine σ} : m.buffer.Holds read s m.matched → Accounts read s (.going m)
  | done {outcome : ParseOutcome σ} {used : List (Except Issue Token)} :
    outcome.Used read s used → Accounts read s (.done outcome)

namespace BufferedMachine

variable {s : σ} {t : Table} {m : BufferedMachine σ} {n : Nat} {outcome : ParseOutcome σ}

theorem accounts_stop {last : Except Issue Token} {issue : Issue}
    (h : read.Hands s (m.matched.map .ok ++ [last]) m.buffer.source)
    (hb : m.buffer.lookahead = none) (hissue : issue.IsAbout last) :
    (m.stop (.error issue)).Accounts read s := by
  obtain ⟨current, ancestors, nesting, ⟨lookahead, source⟩, log⟩ := m
  obtain rfl : lookahead = none := hb
  exact .done (.failed h hissue)

theorem accounts_withNext {go : Token → BufferedMachine σ → BufferedProgress σ}
    (h : m.buffer.Holds read s m.matched)
    (hgo : ∀ found b, b.Holds read s (m.matched ++ [found]) → b.lookahead = none →
      (go found { m with buffer := b }).Accounts read s) :
    (m.withToken (·.next read) go).Accounts read s := by
  unfold withToken
  split
  · rename_i found b hb
    obtain ⟨hholds, hnone⟩ := TokenBuffer.next_ok h hb
    exact hgo found b hholds hnone
  · rename_i issue b hb
    obtain ⟨hhands, hnone⟩ := TokenBuffer.next_error h hb
    exact accounts_stop hhands hnone (.inl rfl)

theorem accounts_withPeek {go : Token → BufferedMachine σ → BufferedProgress σ}
    (h : m.buffer.Holds read s m.matched)
    (hgo : ∀ found b, b.Holds read s m.matched →
      (go found { m with buffer := b }).Accounts read s) :
    (m.withToken (·.peek read) go).Accounts read s := by
  unfold withToken
  split
  · rename_i found b hb
    exact hgo found b (TokenBuffer.peek_ok h hb)
  · rename_i issue b hb
    obtain ⟨hhands, hnone⟩ := TokenBuffer.peek_error h hb
    exact accounts_stop hhands hnone (.inl rfl)

theorem accounts_failAt {issue : Token → Issue} (h : m.buffer.Holds read s m.matched)
    (hissue : ∀ found, (issue found).found? = some found) :
    (m.failAt read issue).Accounts read s :=
  accounts_withNext h fun found _ hholds hnone =>
    accounts_stop (hholds.used hnone) hnone (.inr ⟨found, rfl, hissue found⟩)

theorem accounts_finish (h : m.buffer.Holds read s m.matched) {tree : Tree}
    (htree : m.matched = tree.tokens) : (m.finish read tree).Accounts read s := by
  refine accounts_withNext h fun found b hholds hnone => ?_
  have hhands := hholds.used hnone
  split
  · rename_i hend
    obtain ⟨lookahead, source⟩ := b
    obtain rfl : lookahead = none := hnone
    have hmatched : ({ m with buffer := ⟨none, source⟩ } : BufferedMachine σ).matched =
        tree.tokens := htree
    rw [stop, hmatched]
    rw [htree] at hhands
    exact .done (.accepted hhands hend)
  · exact accounts_stop hhands hnone (.inr ⟨found, rfl, rfl⟩)

theorem accounts_close (h : m.buffer.Holds read s m.matched) : (m.close read).Accounts read s := by
  obtain ⟨current, ancestors, nesting, buffer, log⟩ := m
  cases ancestors with
  | nil =>
    refine accounts_finish h ?_
    simp [matched]
  | cons parent ancestors =>
    refine .going ?_
    simpa [matched] using h

theorem accounts_consume (h : m.buffer.Holds read s m.matched) (expected : Terminal) :
    (m.consume read expected).Accounts read s := by
  refine accounts_withNext h fun found b hholds hnone => ?_
  split
  · refine .going ?_
    simpa [matched] using hholds
  · exact accounts_stop (hholds.used hnone) hnone (.inr ⟨found, rfl, rfl⟩)

theorem accounts_apply (h : m.buffer.Holds read s m.matched) (r : Rule) :
    (m.apply read r).Accounts read s := by
  have hlog : ({ m with applied := r.index :: m.applied } : BufferedMachine σ).buffer.Holds read s
      ({ m with applied := r.index :: m.applied } : BufferedMachine σ).matched := h
  simp only [apply]
  split
  · refine .going ?_
    simpa [matched, Tree.tokens_eq, Tree.token?, Tree.label, Tree.children] using h
  split
  · exact accounts_failAt hlog fun _ => rfl
  · refine .going ?_
    simpa [matched, Frame.ofRule, Frame.tokens] using h

theorem accounts_expand (h : m.buffer.Holds read s m.matched) (a : Nonterminal) :
    (m.expand read t a).Accounts read s := by
  refine accounts_withPeek h fun found _ hholds => ?_
  split
  · exact accounts_failAt hholds fun _ => rfl
  · exact accounts_apply hholds _

theorem step_terminal {a : Nonterminal} {x : Terminal} {xs : List Symbol} {built : List Tree}
    {ancestors : List Frame} {nesting : Nat} {b : TokenBuffer σ} {log : List Nat}
    (hx : x ≠ .epsilon) :
    step read t ⟨⟨a, .terminal x :: xs, built⟩, ancestors, nesting, b, log⟩ =
      consume read ⟨⟨a, xs, built⟩, ancestors, nesting, b, log⟩ x := by
  cases x <;> first | rfl | exact absurd rfl hx

/-- A step uses what it matches, and the last step what it stops at. -/
theorem accounts_step (h : m.buffer.Holds read s m.matched) : (m.step read t).Accounts read s := by
  obtain ⟨⟨lhs, pending, built⟩, ancestors, nesting, buffer, log⟩ := m
  cases pending with
  | nil => exact accounts_close h
  | cons x xs =>
    have hrest : buffer.Holds read s
        (⟨⟨lhs, xs, built⟩, ancestors, nesting, buffer, log⟩ : BufferedMachine σ).matched := by
      simpa [matched, Frame.tokens] using h
    cases x with
    | nonterminal a => exact accounts_expand hrest a
    | terminal x =>
      by_cases hx : x = .epsilon
      · subst hx
        exact .going hrest
      · rw [step_terminal hx]
        exact accounts_consume hrest x

/-- A parse that ends has used what its outcome tells. -/
theorem used_of_runFor (h : m.buffer.Holds read s m.matched)
    (hrun : m.runFor read t n = some outcome) : ∃ used, outcome.Used read s used := by
  induction n generalizing m with
  | zero => cases hrun
  | succ n ih =>
    have hstep : (m.step read t).Accounts read s := accounts_step h
    rw [runFor] at hrun
    split at hrun
    · rename_i m' hm
      rw [hm] at hstep
      cases hstep with
      | going hnext => exact ih hnext hrun
    · rename_i outcome' hm
      rw [hm] at hstep
      cases hrun
      cases hstep with
      | done hused => exact ⟨_, hused⟩

end BufferedMachine
end FortressLang
