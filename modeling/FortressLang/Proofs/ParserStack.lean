import FortressLang.Proofs.LeftDerivation
import FortressLang.Proofs.ParserSoundness
import FortressLang.Proofs.ParserTermination

/-! The stack of a machine as a derivation tree that is still open. A machine that was started on a
stream holds a tree of what it has matched, which agrees with its log, and it has looked at nothing
behind the next token. -/
namespace FortressLang

/-- What an issue says was found, where it is about a token. -/
def Issue.found? : Issue → Option Token
  | grammarMismatch _ found | tokenMismatch _ found | trailingInput found
  | nestingTooDeep _ found => some found
  | _ => none

/-- The next thing in the stream is the issue itself, or the token that it is about. -/
def Issue.LiesAt (issue : Issue) (s : TokenStream) : Prop :=
  s.head = .error issue ∨ ∃ found, s.head = .ok found ∧ issue.found? = some found

theorem TokenStream.head_put {s s' : TokenStream} (h : s.head = s'.head) (w : List Token) :
    (s.put w).head = (s'.put w).head := by
  cases w with
  | nil => exact h
  | cons found w => rfl

namespace Grammar

theorem start_mem (g : Grammar) : g.start ∈ g.rules := List.head_mem g.rules_ne_nil

theorem index_start (g : Grammar) : g.start.index = 0 := by
  have hpos : 0 < g.rules.length := List.length_pos_iff.mpr g.rules_ne_nil
  rw [start, List.head_eq_getElem]
  exact g.getElem_index hpos

end Grammar

/-- The current node and the nodes around it, each with the children that it has got. The log has
the rules of all of them and of their children, and the tokens are the leaves so far. -/
inductive OpenTree (g : Grammar) : Frame → List Frame → List Nat → List Token → Prop
  | root {done pending : List Symbol} {log : List Nat} {built : List Tree} {w : List Token} :
    g.start.rhs = done ++ pending → Grows g done log built.reverse w →
      OpenTree g ⟨g.start.lhs, pending, built⟩ [] (g.start.index :: log) w
  | inner {a : Nonterminal} {xs done pending : List Symbol} {above built : List Tree}
    {ancestors : List Frame} {log log' : List Nat} {w v : List Token} {r : Rule} :
    OpenTree g ⟨a, .nonterminal r.lhs :: xs, above⟩ ancestors log w → r ∈ g.rules →
      r.rhs = done ++ pending → Grows g done log' built.reverse v →
      OpenTree g ⟨r.lhs, pending, built⟩ (⟨a, xs, above⟩ :: ancestors) (log ++ r.index :: log')
        (w ++ v)

namespace OpenTree

variable {g : Grammar} {a : Nonterminal} {xs ys : List Symbol} {built ts : List Tree}
  {current parent : Frame} {ancestors : List Frame} {log log' : List Nat} {w v : List Token}
  {r : Rule}

theorem start (g : Grammar) : OpenTree g ⟨g.start.lhs, g.start.rhs, []⟩ [] [g.start.index] [] :=
  .root (List.nil_append _).symm .nil

theorem extend (h : OpenTree g ⟨a, ys ++ xs, built⟩ ancestors log w) (hys : Grows g ys log' ts v) :
    OpenTree g ⟨a, xs, ts.reverse ++ built⟩ ancestors (log ++ log') (w ++ v) := by
  cases h with
  | root hrhs hdone =>
    refine .root (by rw [hrhs, List.append_assoc]) ?_
    simpa using hdone.append hys
  | inner h hr hrhs hdone =>
    have hmore := hdone.append hys
    simp only [List.append_assoc, List.cons_append]
    refine .inner h hr (by rw [hrhs, List.append_assoc]) ?_
    simpa using hmore

theorem child {y : Symbol} (h : OpenTree g ⟨a, y :: xs, built⟩ ancestors log w)
    (hy : Grows g [y] log' ts v) :
    OpenTree g ⟨a, xs, ts.reverse ++ built⟩ ancestors (log ++ log') (w ++ v) := by
  rw [← List.singleton_append] at h
  exact h.extend hy

theorem complete (h : OpenTree g ⟨a, xs, built⟩ ancestors log w) (hxs : Grows g xs log' ts v) :
    OpenTree g ⟨a, [], ts.reverse ++ built⟩ ancestors (log ++ log') (w ++ v) := by
  rw [← List.append_nil xs] at h
  exact h.extend hxs

theorem opened (h : OpenTree g ⟨a, .nonterminal r.lhs :: xs, built⟩ ancestors log w)
    (hr : r ∈ g.rules) :
    OpenTree g ⟨r.lhs, r.rhs, []⟩ (⟨a, xs, built⟩ :: ancestors) (log ++ [r.index]) w := by
  have hnone : Grows g [] [] ([] : List Tree).reverse [] := .nil
  simpa using OpenTree.inner h hr (List.nil_append _).symm hnone

theorem closed (h : OpenTree g ⟨a, [], built⟩ (parent :: ancestors) log w) :
    OpenTree g (parent.add (.node (.nonterminal a) built.reverse)) ancestors log w := by
  cases h with
  | @inner b xs done pending above _ _ log log' w v r h hr hrhs hdone =>
    rw [List.append_nil] at hrhs
    have hnode : Grows g [.nonterminal r.lhs] (r.index :: log')
        [.node (.nonterminal r.lhs) built.reverse] v := by
      simpa using Grows.node hr (hrhs ▸ hdone) .nil
    exact h.child hnode

theorem whole (h : OpenTree g ⟨a, [], built⟩ [] log w) :
    Grows g [.nonterminal g.startSymbol] log [.node (.nonterminal a) built.reverse] w := by
  cases h with
  | @root done _ log _ _ hrhs hdone =>
    rw [List.append_nil] at hrhs
    have hnode := Grows.node g.start_mem (hrhs ▸ hdone) .nil
    rwa [List.append_nil, List.append_nil] at hnode

/-- The log rewrites the start symbol to the tokens and all that is still to match. -/
theorem rewriteBy? (h : OpenTree g current ancestors log w) :
    g.rewriteBy? log [.nonterminal g.startSymbol] =
      some ((kinds w).map .terminal ++
        Source.shown ((current :: ancestors).flatMap Frame.pending)) := by
  have hbelow {r : Rule} {done pending : List Symbol} {log : List Nat} {ts : List Tree}
      {v : List Token} (hr : r ∈ g.rules) (hrhs : r.rhs = done ++ pending)
      (hdone : Grows g done log ts v) (ks : List Terminal) (zs : List Symbol) :
      g.rewriteBy? (r.index :: log) (ks.map .terminal ++ .nonterminal r.lhs :: zs) =
        some ((ks ++ kinds v).map .terminal ++ (Source.shown pending ++ zs)) := by
    rw [Grammar.rewriteBy?_cons hr, hrhs, Source.shown_append, List.append_assoc, hdone.rewriteBy?]
  induction h with
  | root hrhs hdone =>
    rw [Grammar.startSymbol]
    have hstart := hbelow g.start_mem hrhs hdone [] []
    simpa only [List.map_nil, List.nil_append, List.append_nil, List.flatMap_cons,
      List.flatMap_nil] using hstart
  | inner _ hr hrhs hdone ih =>
    rw [Grammar.rewriteBy?_append, ih, List.flatMap_cons, List.cons_append,
      Source.shown_nonterminal, Option.bind_some, hbelow hr hrhs hdone]
    simp

theorem head?_log (h : OpenTree g current ancestors log w) : log.head? = some 0 := by
  induction h with
  | root => rw [List.head?_cons, g.index_start]
  | inner _ _ _ _ ih => rw [List.head?_append, ih, Option.some_or]

/-- What is still to match in the current node is the end of a rule. -/
theorem exists_rule (h : OpenTree g current ancestors log w) :
    ∃ r ∈ g.rules, current.pending <:+ r.rhs := by
  cases h with
  | root hrhs _ => exact ⟨g.start, g.start_mem, hrhs ▸ List.suffix_append _ _⟩
  | inner _ hr hrhs _ => exact ⟨_, hr, hrhs ▸ List.suffix_append _ _⟩

end OpenTree

namespace Machine

variable {g : Grammar} {t : Table} {p q : Parser} {m m' : Machine} {log log' : List Nat}
  {w v : List Token}

/-- A machine that was started by a parser has matched the tokens and applied the rules. It would
have got there too with any other stream behind the tokens that begins with the same thing. -/
structure Reads (g : Grammar) (t : Table) (p : Parser) (m : Machine) (log : List Nat)
    (w : List Token) : Prop where
  applied : m.applied = log.reverse ++ p.applied
  input : p.input = m.input.put w
  tree : OpenTree g m.current m.ancestors log w
  again : ∀ s : TokenStream, s.head = m.input.head →
    ∃ n, Goes t (start t ⟨s.put w, p.applied⟩) n { m with input := s }

namespace Reads

theorem first (hb : Table.build g = .ok t) (p : Parser) :
    Reads g t p (start t p) [g.start.index] [] where
  applied := by rw [start, Table.grammar_build hb]; rfl
  input := rfl
  tree := by rw [start, Table.grammar_build hb]; exact .start g
  again s _ := ⟨0, .refl⟩

theorem next (h : Reads g t p m log w) (happlied : m'.applied = log'.reverse ++ m.applied)
    (hinput : m.input = m'.input.put v)
    (htree : OpenTree g m'.current m'.ancestors (log ++ log') (w ++ v))
    (hstep : ∀ s : TokenStream, s.head = m'.input.head →
      step t { m with input := s.put v } = .going { m' with input := s }) :
    Reads g t p m' (log ++ log') (w ++ v) where
  applied := by rw [happlied, h.applied, List.reverse_append, List.append_assoc]
  input := by rw [h.input, hinput, TokenStream.put_append]
  tree := htree
  again s hs := by
    obtain ⟨n, hn⟩ := h.again (s.put v) (hinput ▸ TokenStream.head_put hs v)
    rw [TokenStream.put_append]
    exact ⟨n + 1, hn.trans (.one (hstep s hs))⟩

theorem advance (hb : Table.build g = .ok t) (hg : g.EndFree) (h : Reads g t p m log w)
    (hstep : m.step t = .going m') : ∃ log' v, Reads g t p m' (log ++ log') (w ++ v) := by
  obtain ⟨⟨a, xs, built⟩, ancestors, nesting, s, applied⟩ := m
  have htree := h.tree
  cases xs with
  | nil =>
    cases ancestors with
    | nil =>
      rcases step_finish_cases t a built nesting s applied with ⟨found, hf, he⟩ | ⟨issue, q, hq⟩
      · rw [step_finish_ok hf he] at hstep
        cases hstep
      · rw [hq] at hstep
        cases hstep
    | cons parent ancestors =>
      rw [step_close] at hstep
      cases hstep
      refine ⟨[], [], h.next rfl rfl ?_ fun s _ => step_close⟩
      simpa using htree.closed
  | cons y xs =>
    have hturn : Turn t a xs built ancestors nesting s applied y (.going m') := hstep ▸ step_turn
    cases hturn with
    | epsilon =>
      have hmore := htree.child (.epsilon .nil)
      exact ⟨[], [], h.next rfl rfl hmore fun s _ => step_epsilon⟩
    | @token x found hs hf hx =>
      subst hf
      obtain ⟨r, hr, hsuffix⟩ := htree.exists_rule
      have hend : found.terminal ≠ .endOfStream := by
        intro he
        exact hg r hr (hsuffix.subset (he ▸ List.mem_cons_self))
      have hmore := htree.child (.token hx .nil)
      exact ⟨[], [found], h.next rfl (TokenStream.eq_put_tail hs hend) hmore
        fun s _ => step_token rfl rfl hx⟩
    | @bare b found r hs hr he =>
      obtain ⟨hmem, rfl⟩ := Grammar.mem_rulesFor.mp (Table.applies_of_rule? hb hr).1
      have hmore := htree.child (.bare hmem he)
      exact ⟨[r.index], [], h.next rfl rfl hmore
        fun s' hs' => step_bare (s := s') (hs'.trans hs) hr he⟩
    | @opens b found r hs hr he hn =>
      obtain ⟨hmem, rfl⟩ := Grammar.mem_rulesFor.mp (Table.applies_of_rule? hb hr).1
      have hmore := htree.opened hmem
      rw [← List.append_nil w] at hmore
      exact ⟨[r.index], [], h.next rfl rfl hmore
        fun s' hs' => step_open (s := s') (hs'.trans hs) hr he hn⟩

/-- Every machine that stops comes to a step that ends the parse. -/
theorem last (hb : Table.build g = .ok t) (hg : g.EndFree) (h : Reads g t p m log w) {n : Nat}
    {result : Except Issue Tree} (hrun : m.runFor t n = some (result, q)) :
    ∃ m' log' w', Reads g t p m' log' w' ∧ m'.step t = .done result q := by
  induction n generalizing m log w with
  | zero => cases hrun
  | succ n ih =>
    rw [runFor] at hrun
    split at hrun
    · rename_i m' hstep
      obtain ⟨log', v, h'⟩ := h.advance hb hg hstep
      exact ih h' hrun
    · rename_i hstep
      cases hrun
      exact ⟨m, log, w, h, hstep⟩

end Reads

/-- The next step fails, and would with every stream that begins with the same thing. -/
def FailsAhead (t : Table) (m : Machine) (issue : Issue) : Prop :=
  ∀ s : TokenStream, s.head = m.input.head →
    step t { m with input := s } = .done (.error issue) ⟨s.tail, m.applied⟩

/-- How a step can end a parse. -/
inductive Halt (t : Table) (m : Machine) : Except Issue Tree → Parser → Prop
  | accepts {found : Token} : m.input.head = .ok found → found.terminal = .endOfStream →
    m.ancestors = [] → m.current.pending = [] →
    Halt t m (.ok m.current.close) ⟨m.input.tail, m.applied⟩
  | fails {issue : Issue} : issue.LiesAt m.input → FailsAhead t m issue →
    Halt t m (.error issue) ⟨m.input.tail, m.applied⟩
  /-- A rule was chosen and logged, and is too deep. -/
  | deep {b : Nonterminal} {xs : List Symbol} {r : Rule} {found : Token} :
    m.current.pending = .nonterminal b :: xs → m.input.head = .ok found →
    t.rule? b found.terminal = some r →
    Halt t m (.error (.nestingTooDeep nestingLimit found)) ⟨m.input.tail, r.index :: m.applied⟩

theorem Halt.liesAt {issue : Issue} (h : Halt t m (.error issue) q) : issue.LiesAt m.input := by
  cases h with
  | fails hat _ => exact hat
  | deep _ hs _ => exact .inr ⟨_, hs, rfl⟩

/-- A step that ends the parse ends it in one of these ways. -/
theorem halt_of_step {result : Except Issue Tree} (h : m.step t = .done result q) :
    Halt t m result q := by
  obtain ⟨⟨a, xs, built⟩, ancestors, nesting, s, applied⟩ := m
  match xs, ancestors with
  | [], parent :: ancestors => cases h
  | [], [] =>
    have hstep (s' : TokenStream) : step t ⟨⟨a, [], built⟩, [], nesting, s', applied⟩ =
        finish ⟨⟨a, [], built⟩, [], nesting, s', applied⟩ (.node (.nonterminal a) built.reverse) :=
      rfl
    rw [hstep] at h
    cases hs : s.head with
    | error issue =>
      simp only [finish, hs, fail] at h
      cases h
      exact .fails (.inl hs) fun s' hs' => by simp only [hstep, finish, hs', hs, fail]
    | ok found =>
      by_cases hf : found.terminal = .endOfStream
      · simp only [finish, hs, hf, if_true] at h
        cases h
        exact .accepts hs hf rfl rfl
      · simp only [finish, hs, hf, if_false, fail] at h
        cases h
        exact .fails (.inr ⟨found, hs, rfl⟩) fun s' hs' => by
          simp only [hstep, finish, hs', hs, hf, if_false, fail]
  | .terminal x :: xs, ancestors =>
    by_cases hx : x = .epsilon
    · subst hx
      cases h
    · rw [step_terminal hx] at h
      cases hs : s.head with
      | error issue =>
        simp only [consume, hs, fail] at h
        cases h
        exact .fails (.inl hs) fun s' hs' => by
          simp only [step_terminal hx, consume, hs', hs, fail]
      | ok found =>
        by_cases hf : found.terminal = x
        · simp only [consume, hs, hf, if_true] at h
          cases h
        · simp only [consume, hs, hf, if_false, fail] at h
          cases h
          exact .fails (.inr ⟨found, hs, rfl⟩) fun s' hs' => by
            simp only [step_terminal hx, consume, hs', hs, hf, if_false, fail]
  | .nonterminal b :: xs, ancestors =>
    cases hs : s.head with
    | error issue =>
      simp only [step, expand, hs, fail] at h
      cases h
      exact .fails (.inl hs) fun s' hs' => by simp only [step, expand, hs', hs, fail]
    | ok found =>
      cases hr : t.rule? b found.terminal with
      | none =>
        simp only [step, expand, hs, hr, fail] at h
        cases h
        exact .fails (.inr ⟨found, hs, rfl⟩) fun s' hs' => by
          simp only [step, expand, hs', hs, hr, fail]
      | some r =>
        by_cases he : r.isEpsilon
        · rw [step_bare hs hr he] at h
          cases h
        · by_cases hn : r.lhs ≠ .code ∧ nesting = nestingLimit
          · rw [step_deep hs hr he hn] at h
            cases h
            exact .deep rfl hs hr
          · rw [step_open hs hr he hn] at h
            cases h

end Machine

/-- A parse matches tokens and applies rules, up to a step that ends it. -/
theorem Parser.run_reads {g : Grammar} {t : Table} (hb : Table.build g = .ok t) (hg : g.EndFree)
    (p : Parser) : ∃ m log w, Machine.Reads g t p m log w ∧
      m.step t = .done (Parser.run t p).1 (Parser.run t p).2 := by
  obtain ⟨out, hout⟩ := Option.isSome_iff_exists.mp (Machine.runFor_stepBound hb hg p)
  rw [Machine.run_eq_of_runFor hb hg hout]
  exact (Machine.Reads.first hb p).last hb hg hout

end FortressLang
