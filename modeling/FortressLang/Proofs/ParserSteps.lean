import FortressLang.Parser

/-! What one step does to a parsing machine, and several steps in a row. -/
namespace FortressLang
namespace Machine

variable {t : Table} {m m' m'' : Machine} {n k : Nat}

/-- From one machine to another in a number of steps. -/
inductive Goes (t : Table) : Machine → Nat → Machine → Prop
  | refl {m : Machine} : Goes t m 0 m
  | step {m m' m'' : Machine} {n : Nat} :
    m.step t = .going m' → Goes t m' n m'' → Goes t m (n + 1) m''

theorem Goes.one (h : m.step t = .going m') : Goes t m 1 m' := .step h .refl

theorem Goes.trans (h : Goes t m n m') (h' : Goes t m' k m'') : Goes t m (n + k) m'' := by
  induction h with
  | refl => simpa using h'
  | step hs h ih =>
    rw [Nat.succ_add]
    exact .step hs (ih h')

theorem Goes.runFor (h : Goes t m n m') (k : Nat) : m.runFor t (n + k) = m'.runFor t k := by
  induction h with
  | refl => rw [Nat.zero_add]
  | step hs h ih =>
    rw [Nat.succ_add, Machine.runFor, hs]
    exact ih

theorem runFor_done {result : Except Issue Tree} {p : Parser} (h : m.step t = .done result p) :
    m.runFor t 1 = some (result, p) := by
  rw [runFor, h]

theorem runFor_unique {out out' : Except Issue Tree × Parser} (h : m.runFor t n = some out)
    (h' : m.runFor t k = some out') : out = out' := by
  have hn := runFor_add h k
  have hk := runFor_add h' n
  rw [Nat.add_comm] at hk
  exact Option.some.inj (hn.symm.trans hk)

variable {a b : Nonterminal} {x : Terminal} {y : Symbol} {xs : List Symbol} {built : List Tree}
  {ancestors : List Frame} {nesting : Nat} {s : TokenStream} {log : List Nat} {found : Token}
  {r : Rule} {parent : Frame}

theorem step_close : step t ⟨⟨a, [], built⟩, parent :: ancestors, nesting, s, log⟩ =
    .going ⟨parent.add (.node (.nonterminal a) built.reverse), ancestors, nesting - nestingOf a,
      s, log⟩ := rfl

theorem step_finish_ok (hs : s.head = .ok found) (hf : found.terminal = .endOfStream) :
    step t ⟨⟨a, [], built⟩, [], nesting, s, log⟩ =
      .done (.ok (.node (.nonterminal a) built.reverse)) ⟨s.tail, log⟩ := by
  change finish _ _ = _
  simp [finish, hs, hf, Frame.close]

/-- With every node complete, a parse ends whatever comes next. -/
theorem step_finish_cases (t : Table) (a : Nonterminal) (built : List Tree) (nesting : Nat)
    (s : TokenStream) (log : List Nat) :
    (∃ found, s.head = .ok found ∧ found.terminal = .endOfStream) ∨
      ∃ issue p, step t ⟨⟨a, [], built⟩, [], nesting, s, log⟩ = .done (.error issue) p := by
  cases hs : s.head with
  | error issue =>
    refine .inr ⟨issue, ⟨s.tail, log⟩, ?_⟩
    change finish _ _ = _
    simp [finish, hs, fail]
  | ok found =>
    by_cases hf : found.terminal = .endOfStream
    · exact .inl ⟨found, rfl, hf⟩
    · refine .inr ⟨.trailingInput found, ⟨s.tail, log⟩, ?_⟩
      change finish _ _ = _
      simp [finish, hs, hf, fail]

theorem step_epsilon :
    step t ⟨⟨a, .terminal .epsilon :: xs, built⟩, ancestors, nesting, s, log⟩ =
      .going ⟨⟨a, xs, built⟩, ancestors, nesting, s, log⟩ := rfl

theorem step_terminal (hx : x ≠ .epsilon) :
    step t ⟨⟨a, .terminal x :: xs, built⟩, ancestors, nesting, s, log⟩ =
      consume ⟨⟨a, xs, built⟩, ancestors, nesting, s, log⟩ x := by
  cases x <;> first | rfl | exact absurd rfl hx

theorem step_token (hs : s.head = .ok found) (hf : found.terminal = x) (hx : x ≠ .epsilon) :
    step t ⟨⟨a, .terminal x :: xs, built⟩, ancestors, nesting, s, log⟩ =
      .going ⟨⟨a, xs, .leaf found :: built⟩, ancestors, nesting, s.tail, log⟩ := by
  rw [step_terminal hx]
  simp [consume, hs, hf, Frame.add]

theorem step_nonterminal (hs : s.head = .ok found) (hr : t.rule? b found.terminal = some r) :
    step t ⟨⟨a, .nonterminal b :: xs, built⟩, ancestors, nesting, s, log⟩ =
      apply ⟨⟨a, xs, built⟩, ancestors, nesting, s, log⟩ r found := by
  simp [step, expand, hs, hr]

theorem step_bare (hs : s.head = .ok found) (hr : t.rule? b found.terminal = some r)
    (he : r.isEpsilon) :
    step t ⟨⟨a, .nonterminal b :: xs, built⟩, ancestors, nesting, s, log⟩ =
      .going ⟨⟨a, xs, .node (.nonterminal r.lhs) [] :: built⟩, ancestors, nesting, s,
        r.index :: log⟩ := by
  rw [step_nonterminal hs hr]
  simp [apply, he, Frame.add]

theorem step_open (hs : s.head = .ok found) (hr : t.rule? b found.terminal = some r)
    (he : ¬ r.isEpsilon) (hn : ¬ (r.lhs ≠ .code ∧ nesting = nestingLimit)) :
    step t ⟨⟨a, .nonterminal b :: xs, built⟩, ancestors, nesting, s, log⟩ =
      .going ⟨⟨r.lhs, r.rhs, []⟩, ⟨a, xs, built⟩ :: ancestors, nesting + nestingOf r.lhs, s,
        r.index :: log⟩ := by
  rw [step_nonterminal hs hr, apply, if_neg he, if_neg hn]
  rfl

theorem step_deep (hs : s.head = .ok found) (hr : t.rule? b found.terminal = some r)
    (he : ¬ r.isEpsilon) (hn : r.lhs ≠ .code ∧ nesting = nestingLimit) :
    step t ⟨⟨a, .nonterminal b :: xs, built⟩, ancestors, nesting, s, log⟩ =
      .done (.error (.nestingTooDeep nestingLimit found)) ⟨s.tail, r.index :: log⟩ := by
  rw [step_nonterminal hs hr, apply, if_neg he, if_pos hn]
  rfl

inductive Turn (t : Table) (a : Nonterminal) (xs : List Symbol) (built : List Tree)
    (ancestors : List Frame) (nesting : Nat) (s : TokenStream) (log : List Nat) :
    Symbol → Progress → Prop
  | fails {y : Symbol} (issue : Issue) (p : Parser) :
    Turn t a xs built ancestors nesting s log y (.done (.error issue) p)
  | epsilon : Turn t a xs built ancestors nesting s log (.terminal .epsilon)
      (.going ⟨⟨a, xs, built⟩, ancestors, nesting, s, log⟩)
  | token {x : Terminal} (found : Token) : s.head = .ok found → found.terminal = x →
    x ≠ .epsilon → Turn t a xs built ancestors nesting s log (.terminal x)
      (.going ⟨⟨a, xs, .leaf found :: built⟩, ancestors, nesting, s.tail, log⟩)
  | bare {b : Nonterminal} (found : Token) (r : Rule) : s.head = .ok found →
    t.rule? b found.terminal = some r → r.isEpsilon →
    Turn t a xs built ancestors nesting s log (.nonterminal b)
      (.going ⟨⟨a, xs, .node (.nonterminal r.lhs) [] :: built⟩, ancestors, nesting, s,
        r.index :: log⟩)
  | opens {b : Nonterminal} (found : Token) (r : Rule) : s.head = .ok found →
    t.rule? b found.terminal = some r → ¬ r.isEpsilon →
    ¬ (r.lhs ≠ .code ∧ nesting = nestingLimit) →
    Turn t a xs built ancestors nesting s log (.nonterminal b)
      (.going ⟨⟨r.lhs, r.rhs, []⟩, ⟨a, xs, built⟩ :: ancestors, nesting + nestingOf r.lhs, s,
        r.index :: log⟩)

theorem step_turn : Turn t a xs built ancestors nesting s log y
    (step t ⟨⟨a, y :: xs, built⟩, ancestors, nesting, s, log⟩) := by
  cases y with
  | terminal x =>
    by_cases hx : x = .epsilon
    · subst hx
      exact .epsilon
    · rw [step_terminal hx]
      cases hs : s.head with
      | error issue =>
        simp only [consume, hs]
        exact .fails _ _
      | ok found =>
        by_cases hf : found.terminal = x
        · rw [← step_terminal (t := t) hx, step_token hs hf hx]
          exact .token found hs hf hx
        · simp only [consume, hs, if_neg hf]
          exact .fails _ _
  | nonterminal b =>
    cases hs : s.head with
    | error issue =>
      simp only [step, expand, hs]
      exact .fails _ _
    | ok found =>
      cases hr : t.rule? b found.terminal with
      | none =>
        simp only [step, expand, hs, hr]
        exact .fails _ _
      | some r =>
        by_cases he : r.isEpsilon
        · rw [step_bare hs hr he]
          exact .bare found r hs hr he
        · by_cases hn : r.lhs ≠ .code ∧ nesting = nestingLimit
          · rw [step_deep hs hr he hn]
            exact .fails _ _
          · rw [step_open hs hr he hn]
            exact .opens found r hs hr he hn

end Machine
end FortressLang
