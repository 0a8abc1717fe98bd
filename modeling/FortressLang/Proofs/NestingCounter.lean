import FortressLang.Proofs.FortressTable
import FortressLang.Proofs.SuccessiveRuns

/-! The nesting counter of a parse against its stack. Nodes are opened, closed and passed over in
different places, and in each the counter is moved on its own; at every step it is the number of
nodes under construction that are not of `code`. -/
namespace FortressLang

/-- How many of the nodes under construction are not of `code`. -/
def openNodes (stack : List Frame) : Nat := stack.countP fun f => f.lhs ≠ .code

theorem openNodes_cons (f : Frame) (stack : List Frame) :
    openNodes (f :: stack) = openNodes stack + nestingOf f.lhs := by
  by_cases hf : f.lhs = .code <;> simp [openNodes, nestingOf, hf]

structure Counted (nesting : Nat) (stack : List Frame) : Prop where
  count : nesting = openNodes stack
  limit : nesting ≤ nestingLimit

namespace Counted

variable {nesting : Nat} {f : Frame} {stack : List Frame}

theorem nestingOf_le (h : Counted nesting (f :: stack)) : nestingOf f.lhs ≤ nesting := by
  rw [h.count, openNodes_cons]
  exact Nat.le_add_left _ _

theorem first (r : Rule) : Counted (nestingOf r.lhs) [.ofRule r] where
  count := by
    rw [openNodes_cons, openNodes, List.countP_nil, Nat.zero_add]
    rfl
  limit := (Machine.nestingOf_le r.lhs).trans (by decide)

theorem replace (h : Counted nesting (f :: stack)) {f' : Frame} (hf : f'.lhs = f.lhs) :
    Counted nesting (f' :: stack) where
  count := by rw [h.count, openNodes_cons, openNodes_cons, hf]
  limit := h.limit

theorem opened (h : Counted nesting stack) (hf : ¬ (f.lhs ≠ .code ∧ nesting = nestingLimit)) :
    Counted (nesting + nestingOf f.lhs) (f :: stack) where
  count := by rw [openNodes_cons, ← h.count]
  limit := Machine.add_nestingOf_le h.limit hf

theorem closed (h : Counted nesting (f :: stack)) : Counted (nesting - nestingOf f.lhs) stack where
  count := by rw [h.count, openNodes_cons, Nat.add_sub_cancel]
  limit := (Nat.sub_le _ _).trans h.limit

end Counted

variable {σ : Type} {read : TokenSource σ} {t : Table}

namespace BufferedMachine

variable {m m' : BufferedMachine σ}

def stack (m : BufferedMachine σ) : List Frame := m.current :: m.ancestors

/-- What a step does to the stack and to the counter. -/
inductive Moves (t : Table) (m : BufferedMachine σ) : BufferedProgress σ → Prop
  | ends (outcome : ParseOutcome σ) : Moves t m (.done outcome)
  /-- A symbol is matched, or vanishes. -/
  | stays {m' : BufferedMachine σ} : m'.current.lhs = m.current.lhs →
    m'.ancestors = m.ancestors → m'.nesting = m.nesting → Moves t m (.going m')
  | closes {m' : BufferedMachine σ} {parent : Frame} : m.current.pending = [] →
    m.ancestors = parent :: m'.ancestors → m'.current.lhs = parent.lhs →
    m'.nesting = m.nesting - nestingOf m.current.lhs → Moves t m (.going m')
  | opens {m' : BufferedMachine σ} {a : Nonterminal} {xs : List Symbol} {found : Token} {r : Rule} :
    m.current.pending = .nonterminal a :: xs → t.rule? a found.terminal = some r →
    ¬ (r.lhs ≠ .code ∧ m.nesting = nestingLimit) → m'.current = .ofRule r →
    m'.ancestors = { m.current with pending := xs } :: m.ancestors →
    m'.nesting = m.nesting + nestingOf r.lhs → Moves t m (.going m')

theorem moves_withToken {take : TokenBuffer σ → Except Issue Token × TokenBuffer σ}
    {go : Token → BufferedMachine σ → BufferedProgress σ}
    (hgo : ∀ found b, Moves t m (go found { m' with buffer := b })) :
    Moves t m (m'.withToken take go) := by
  unfold withToken
  split
  · exact hgo _ _
  · exact .ends _

theorem moves_failAt {issue : Token → Issue} : Moves t m (m'.failAt read issue) :=
  moves_withToken fun _ _ => .ends _

theorem moves_finish {tree : Tree} : Moves t m (m'.finish read tree) :=
  moves_withToken fun _ _ => by split <;> exact .ends _

theorem moves_close (h : m.current.pending = []) : Moves t m (m.close read) := by
  obtain ⟨current, ancestors, nesting, buffer, log⟩ := m
  cases ancestors with
  | nil => exact moves_finish
  | cons parent ancestors => exact .closes h rfl rfl rfl

section

variable {a b : Nonterminal} {y : Symbol} {xs : List Symbol} {built : List Tree}
  {ancestors : List Frame} {nesting : Nat} {buffer : TokenBuffer σ} {log : List Nat}

theorem moves_consume {x : Terminal} :
    Moves t ⟨⟨a, y :: xs, built⟩, ancestors, nesting, buffer, log⟩
      (consume read ⟨⟨a, xs, built⟩, ancestors, nesting, buffer, log⟩ x) := by
  refine moves_withToken fun found _ => ?_
  split
  · exact .stays rfl rfl rfl
  · exact .ends _

theorem moves_expand :
    Moves t ⟨⟨a, .nonterminal b :: xs, built⟩, ancestors, nesting, buffer, log⟩
      (expand read t ⟨⟨a, xs, built⟩, ancestors, nesting, buffer, log⟩ b) := by
  refine moves_withToken fun found _ => ?_
  split
  · exact moves_failAt
  · rename_i r hr
    simp only [apply]
    split
    · exact .stays rfl rfl rfl
    split
    · exact moves_failAt
    · rename_i hlimit
      exact .opens rfl hr hlimit rfl rfl rfl

end

theorem moves_step (read : TokenSource σ) (t : Table) (m : BufferedMachine σ) :
    Moves t m (m.step read t) := by
  obtain ⟨⟨a, pending, built⟩, ancestors, nesting, buffer, log⟩ := m
  cases pending with
  | nil => exact moves_close rfl
  | cons y xs =>
    cases y with
    | nonterminal b => exact moves_expand
    | terminal x =>
      by_cases hx : x = .epsilon
      · subst hx
        exact .stays rfl rfl rfl
      · rw [step_terminal hx]
        exact moves_consume

theorem Moves.counted (h : Moves t m (.going m')) (hm : Counted m.nesting m.stack) :
    Counted m'.nesting m'.stack := by
  obtain ⟨current, ancestors, nesting, buffer, log⟩ := m'
  cases h with
  | stays hlhs hancestors hnesting =>
    obtain rfl : ancestors = m.ancestors := hancestors
    obtain rfl : nesting = m.nesting := hnesting
    exact hm.replace hlhs
  | @closes _ parent _ hancestors hlhs hnesting =>
    obtain rfl : nesting = m.nesting - nestingOf m.current.lhs := hnesting
    have hclosed : Counted (m.nesting - nestingOf m.current.lhs) (parent :: ancestors) := by
      rw [stack, hancestors] at hm
      exact hm.closed
    exact hclosed.replace hlhs
  | @opens _ a xs found r hpending hr hlimit hcurrent hancestors hnesting =>
    obtain rfl : current = .ofRule r := hcurrent
    obtain rfl : ancestors = { m.current with pending := xs } :: m.ancestors := hancestors
    obtain rfl : nesting = m.nesting + nestingOf r.lhs := hnesting
    have hparent : Counted m.nesting ({ m.current with pending := xs } :: m.ancestors) :=
      hm.replace rfl
    exact hparent.opened (f := .ofRule r) hlimit

theorem Moves.head?_pending {g : Grammar} (ht : Table.build g = .ok t) (h : Moves t m (.going m'))
    (hlength : m.ancestors.length < m'.ancestors.length) :
    m.current.pending.head? = some (.nonterminal m'.current.lhs) := by
  cases h with
  | stays _ hancestors _ => simp [hancestors] at hlength
  | closes _ hancestors _ _ => simp [hancestors] at hlength
  | @opens _ a xs found r hpending hr _ hcurrent _ _ =>
    obtain ⟨-, rfl⟩ := Grammar.mem_rulesFor.mp (Table.applies_of_rule? ht hr).1
    rw [hpending, hcurrent]
    rfl

def after? (read : TokenSource σ) (t : Table) : Nat → BufferedMachine σ → Option (BufferedMachine σ)
  | 0, m => some m
  | n + 1, m =>
    match m.step read t with
    | .going m => m.after? read t n
    | .done _ => none

theorem counted_after? {n : Nat} (h : m.after? read t n = some m')
    (hm : Counted m.nesting m.stack) : Counted m'.nesting m'.stack := by
  induction n generalizing m with
  | zero =>
    obtain rfl := Option.some.inj h
    exact hm
  | succ n ih =>
    have hmoves := moves_step read t m
    rw [after?] at h
    split at h
    · rename_i next hstep
      rw [hstep] at hmoves
      exact ih h (hmoves.counted hm)
    · cases h

theorem counted_start (t : Table) (p : BufferedParser σ) :
    Counted (start t p).nesting (start t p).stack :=
  .first t.grammar.start

theorem exists_step_of_onStream {m : BufferedMachine TokenStream} {s : TokenStream}
    {next : Machine} (h : m.buffer.Shows s) (hstep : (m.onStream s).step t = .going next) :
    ∃ m' s', m.step TokenStream.next t = .going m' ∧ m'.buffer.Shows s' ∧
      next = m'.onStream s' := by
  have hagrees : (m.step TokenStream.next t).Agrees ((m.onStream s).step t) := agrees_step h
  rw [hstep] at hagrees
  generalize hm' : m.step TokenStream.next t = progress at hagrees
  cases hagrees with
  | going hshows => exact ⟨_, _, rfl, hshows, rfl⟩

theorem exists_after?_of_goes {m : BufferedMachine TokenStream} {s : TokenStream} {n : Nat}
    {last : Machine} (h : m.buffer.Shows s) (hgoes : Machine.Goes t (m.onStream s) n last) :
    ∃ m' s', m.after? TokenStream.next t n = some m' ∧ last = m'.onStream s' := by
  generalize hfirst : m.onStream s = first at hgoes
  induction hgoes generalizing m s with
  | refl => exact ⟨m, s, rfl, hfirst.symm⟩
  | step hstep _ ih =>
    subst hfirst
    obtain ⟨m', s', hm', hshows, rfl⟩ := exists_step_of_onStream h hstep
    obtain ⟨m'', s'', hm'', hlast⟩ := ih hshows rfl
    exact ⟨m'', s'', by rw [after?, hm']; exact hm'', hlast⟩

end BufferedMachine

/-- For every grammar with a table, whatever its start symbol is, every source of tokens, every
parser on it and every step of a run: the counter is the number of nodes under construction that are
not of `code`, it keeps to the limit, and what is taken away when the current node is complete is
there. A step opens a node only for the nonterminal that comes next. The counter of the parser that
has no lookahead is such a counter, too. -/
theorem nesting_counts_open_nodes {g : Grammar} {t : Table} (ht : Table.build g = .ok t) :
    (∀ {σ : Type} (read : TokenSource σ) (p : BufferedParser σ) (n : Nat) (m : BufferedMachine σ),
      (BufferedMachine.start t p).after? read t n = some m →
        m.nesting = openNodes (m.current :: m.ancestors) ∧ m.nesting ≤ nestingLimit ∧
        nestingOf m.current.lhs ≤ m.nesting ∧
        ∀ m', m.step read t = .going m' → m.ancestors.length < m'.ancestors.length →
          m.current.pending.head? = some (.nonterminal m'.current.lhs)) ∧
    ∀ (p : Parser) (n : Nat) (m : Machine), Machine.Goes t (.start t p) n m →
      m.nesting = openNodes (m.current :: m.ancestors) ∧ m.nesting ≤ nestingLimit ∧
      nestingOf m.current.lhs ≤ m.nesting := by
  refine ⟨fun read p n m hm => ?_, fun p n m hgoes => ?_⟩
  · have hcounted := BufferedMachine.counted_after? hm (BufferedMachine.counted_start t p)
    refine ⟨hcounted.count, hcounted.limit, hcounted.nestingOf_le, fun m' hstep => ?_⟩
    have hmoves := BufferedMachine.moves_step read t m
    rw [hstep] at hmoves
    exact hmoves.head?_pending ht
  · have hstart : Machine.start t p = (BufferedMachine.start t p.buffered).onStream p.input := rfl
    rw [hstart] at hgoes
    obtain ⟨m', s, hm', rfl⟩ := BufferedMachine.exists_after?_of_goes .empty hgoes
    have hcounted := BufferedMachine.counted_after? hm' (BufferedMachine.counted_start t p.buffered)
    exact ⟨hcounted.count, hcounted.limit, hcounted.nestingOf_le⟩

def loopText : String := "BEGIN P WHILE (0 < b) DO c := -b, END, END"

/-- Behind the sign in the body of the loop ten nodes are open, and all count but the two of `code`;
the next one is opened for the signed atom. In a list of names no node counts. -/
theorem nesting_in_loop_body :
    ∃ (t u : Table) (m next : BufferedMachine TokenStream) (last : Machine),
      Table.build .fortress = .ok t ∧
      (BufferedMachine.start t ⟨⟨none, .ofText loopText⟩, []⟩).after? TokenStream.next t 41 =
        some m ∧
      m.ancestors.length = 9 ∧ openNodes (m.current :: m.ancestors) = 8 ∧
      m.nesting ≤ nestingLimit ∧ nestingOf m.current.lhs ≤ m.nesting ∧
      m.step TokenStream.next t = .going next ∧ m.ancestors.length < next.ancestors.length ∧
      m.current.pending.head? = some (.nonterminal next.current.lhs) ∧
      Table.build nameList = .ok u ∧
      Machine.Goes u (.start u (.ofStream ⟨twoNames.map .ok, ⟨1, 4⟩⟩)) 3 last ∧
      last.ancestors.length = 1 ∧ openNodes (last.current :: last.ancestors) = 0 := by
  let t : Table := .ofLookahead .fortress Grammar.fortressLookahead
  have hstate : ((BufferedMachine.start t ⟨⟨none, .ofText loopText⟩, []⟩).after?
      TokenStream.next t 41).map (fun m => (m.nesting, m.ancestors.length,
        match m.step TokenStream.next t with
        | .going next => next.ancestors.length
        | .done _ => 0)) = some (8, 9, 10) := by
    decide +kernel
  obtain ⟨m, hm, hshape⟩ := Option.map_eq_some_iff.mp hstate
  obtain ⟨hnesting, hlength, hnext⟩ : m.nesting = 8 ∧ m.ancestors.length = 9 ∧ _ = 10 := by
    simpa using hshape
  split at hnext
  · rename_i next hstep
    have hdeeper : m.ancestors.length < next.ancestors.length := by omega
    obtain ⟨hcount, hlimit, hroom, hopens⟩ :=
      (nesting_counts_open_nodes Grammar.build_fortress).1 TokenStream.next _ 41 m hm
    have hgoes : Machine.Goes (.ofLookahead nameList nameListLookahead)
        (.start (.ofLookahead nameList nameListLookahead)
          (.ofStream ⟨twoNames.map .ok, ⟨1, 4⟩⟩)) 3 _ :=
      .step rfl (.step rfl (.step rfl .refl))
    obtain ⟨hcount', -, -⟩ := (nesting_counts_open_nodes build_nameList).2 _ 3 _ hgoes
    exact ⟨t, _, m, next, _, Grammar.build_fortress, hm, hlength, hcount.symm.trans hnesting,
      hlimit, hroom, hstep, hdeeper, hopens next hstep hdeeper, build_nameList, hgoes, rfl,
      hcount'.symm⟩
  · cases hnext

end FortressLang
