import FortressLang.Proofs.ParserSoundness

/-! A derivation tree is found by the parser where it keeps to the nesting limit, and where it does
not, the parser says so. Since the parser never has a choice, no tokens have two such trees. -/
namespace FortressLang
namespace Machine

variable {g : Grammar} {t : Table}

def Stops (t : Table) (m : Machine) (result : Except Issue Tree) : Prop :=
  ∃ n p, m.runFor t n = some (result, p)

theorem Goes.stops {m m' : Machine} {n : Nat} {result : Except Issue Tree} (h : Goes t m n m')
    (hm : Stops t m' result) : Stops t m result := by
  obtain ⟨k, p, hk⟩ := hm
  exact ⟨n + k, p, (h.runFor k).trans hk⟩

theorem stops_of_step {m : Machine} {result : Except Issue Tree} {p : Parser}
    (h : m.step t = .done result p) : Stops t m result := ⟨1, p, runFor_done h⟩

theorem rule?_of_derives (hb : Table.build g = .ok t) {a : Nonterminal} {r : Rule}
    (hr : r ∈ g.rulesFor a) {cs : List Tree} {w : List Token} {d : Nat}
    (h : Derives g r.rhs cs w d) {s : TokenStream}
    (hs : s.Ahead ((Lookahead.ofGrammar g).follow.get a)) :
    ∃ found, (s.put w).head = .ok found ∧ t.rule? a found.terminal = some r := by
  obtain ⟨found, hf, hm⟩ := h.ahead hs
  refine ⟨found, hf, Table.rule?_of_applies hb hr ?_⟩
  rw [Lookahead.ofRule, (Grammar.mem_rulesFor.mp hr).2]
  exact hm

theorem ahead_follow {r : Rule} (hr : r ∈ g.rules) {ys xs zs : List Symbol} {a : Nonterminal}
    (hrhs : r.rhs = ys ++ .nonterminal a :: (xs ++ zs)) {ts : List Tree} {w : List Token} {d : Nat}
    (h : Derives g xs ts w d) {s : TokenStream}
    (hs : s.Ahead ((Lookahead.ofGrammar g).openings.before
      ((Lookahead.ofGrammar g).follow.get r.lhs) zs)) :
    (s.put w).Ahead ((Lookahead.ofGrammar g).follow.get a) := by
  obtain ⟨found, hf, hm⟩ := h.ahead hs
  rw [← Openings.before_append] at hm
  exact ⟨found, hf, Lookahead.before_subset_follow hr hrhs hm⟩

/-- Nothing is left of a rule behind its last symbol, so that what comes next follows its node. -/
theorem ahead_before_nil {s : TokenStream} {after : TerminalSet} (o : Openings)
    (hs : s.Ahead after) : s.Ahead (o.before after []) := by
  obtain ⟨found, hf, hm⟩ := hs
  refine ⟨found, hf, ?_⟩
  rw [Openings.mem_before]
  exact .inr ⟨by simp, hm⟩

/-- From one stream to another the machine matches some symbols in front of others and builds their
trees, or reports that they nest too deep. -/
structure Matches (t : Table) (nesting : Nat) (s : TokenStream) (xs zs : List Symbol)
    (ts : List Tree) (d : Nat) (s' : TokenStream) : Prop where
  goes : nesting + d ≤ nestingLimit → ∀ a built ancestors log, ∃ n log',
    Goes t ⟨⟨a, xs ++ zs, built⟩, ancestors, nesting, s, log⟩ n
      ⟨⟨a, zs, ts.reverse ++ built⟩, ancestors, nesting, s', log'⟩
  stops : nestingLimit < nesting + d → ∀ a built ancestors log, ∃ found,
    Stops t ⟨⟨a, xs ++ zs, built⟩, ancestors, nesting, s, log⟩
      (.error (.nestingTooDeep nestingLimit found))

namespace Matches

variable {nesting d m : Nat} {s s' s'' : TokenStream} {xs zs : List Symbol} {cs ts : List Tree}

theorem nil (hn : nesting ≤ nestingLimit) : Matches t nesting s [] zs [] 0 s where
  goes _ _ _ _ log := ⟨0, log, .refl⟩
  stops hd := by omega

theorem of_step {y : Symbol} (us : List Tree)
    (hstep : ∀ a built ancestors log, ∃ log',
      step t ⟨⟨a, y :: (xs ++ zs), built⟩, ancestors, nesting, s, log⟩ =
        .going ⟨⟨a, xs ++ zs, us ++ built⟩, ancestors, nesting, s', log'⟩)
    (h : Matches t nesting s' xs zs ts d s'') :
    Matches t nesting s (y :: xs) zs (us.reverse ++ ts) d s'' where
  goes hd a built ancestors log := by
    obtain ⟨log₁, h₁⟩ := hstep a built ancestors log
    obtain ⟨n, log', hm⟩ := h.goes hd a (us ++ built) ancestors log₁
    refine ⟨n + 1, log', .step h₁ ?_⟩
    simpa using hm
  stops hd a built ancestors log := by
    obtain ⟨log₁, h₁⟩ := hstep a built ancestors log
    obtain ⟨found, hm⟩ := h.stops hd a (us ++ built) ancestors log₁
    exact ⟨found, (Goes.one h₁).stops hm⟩

theorem epsilon (h : Matches t nesting s xs zs ts d s') :
    Matches t nesting s (.terminal .epsilon :: xs) zs ts d s' :=
  of_step [] (fun _ _ _ log => ⟨log, step_epsilon⟩) h

theorem token {x : Terminal} {found : Token} (hs : s.head = .ok found)
    (hf : found.terminal = x) (hx : x ≠ .epsilon) (h : Matches t nesting s.tail xs zs ts d s') :
    Matches t nesting s (.terminal x :: xs) zs (.leaf found :: ts) d s' :=
  of_step [.leaf found] (fun _ _ _ log => ⟨log, step_token hs hf hx⟩) h

theorem bare {r : Rule} {found : Token} (hs : s.head = .ok found)
    (hr : t.rule? r.lhs found.terminal = some r) (he : r.isEpsilon)
    (h : Matches t nesting s xs zs ts d s') :
    Matches t nesting s (.nonterminal r.lhs :: xs) zs (.node (.nonterminal r.lhs) [] :: ts) d s' :=
  of_step [.node (.nonterminal r.lhs) []] (fun _ _ _ log => ⟨r.index :: log, step_bare hs hr he⟩) h

theorem node {r : Rule} {found : Token} (hs : s.head = .ok found)
    (hr : t.rule? r.lhs found.terminal = some r) (he : ¬ r.isEpsilon)
    (h₁ : nesting + nestingOf r.lhs ≤ nestingLimit →
      Matches t (nesting + nestingOf r.lhs) s r.rhs [] cs m s')
    (hn : nesting ≤ nestingLimit) (h₂ : Matches t nesting s' xs zs ts d s'') :
    Matches t nesting s (.nonterminal r.lhs :: xs) zs (.node (.nonterminal r.lhs) cs :: ts)
      (max (m + nestingOf r.lhs) d) s'' := by
  have hnode (hd : nesting + (m + nestingOf r.lhs) ≤ nestingLimit) (a : Nonterminal)
      (built : List Tree) (ancestors : List Frame) (log : List Nat) : ∃ n log',
      Goes t ⟨⟨a, .nonterminal r.lhs :: (xs ++ zs), built⟩, ancestors, nesting, s, log⟩ n
        ⟨⟨a, xs ++ zs, .node (.nonterminal r.lhs) cs :: built⟩, ancestors, nesting, s', log'⟩ := by
    have hopen : ¬ (r.lhs ≠ .code ∧ nesting = nestingLimit) := by
      rintro ⟨hc, hl⟩
      rw [nestingOf_of_ne hc] at hd
      omega
    obtain ⟨n, log', hm⟩ := (h₁ (by omega)).goes (by omega) r.lhs []
      (⟨a, xs ++ zs, built⟩ :: ancestors) (r.index :: log)
    rw [List.append_nil, List.append_nil] at hm
    have hclose : step t ⟨⟨r.lhs, [], cs.reverse⟩, ⟨a, xs ++ zs, built⟩ :: ancestors,
        nesting + nestingOf r.lhs, s', log'⟩ = _ := step_close
    rw [List.reverse_reverse, Nat.add_sub_cancel] at hclose
    exact ⟨_, log', .step (step_open hs hr he hopen) (hm.trans (.one hclose))⟩
  constructor
  · intro hd a built ancestors log
    obtain ⟨n₁, log₁, hm₁⟩ := hnode (by omega) a built ancestors log
    obtain ⟨n₂, log₂, hm₂⟩ := h₂.goes (by omega) a (.node (.nonterminal r.lhs) cs :: built)
      ancestors log₁
    refine ⟨n₁ + n₂, log₂, ?_⟩
    rw [List.reverse_cons, List.append_assoc]
    exact hm₁.trans hm₂
  · intro hd a built ancestors log
    by_cases hopen : r.lhs ≠ .code ∧ nesting = nestingLimit
    · exact ⟨found, stops_of_step (step_deep hs hr he hopen)⟩
    by_cases hd₁ : nesting + (m + nestingOf r.lhs) ≤ nestingLimit
    · obtain ⟨n₁, log₁, hm₁⟩ := hnode hd₁ a built ancestors log
      obtain ⟨found', hm₂⟩ := h₂.stops (by omega) a (.node (.nonterminal r.lhs) cs :: built)
        ancestors log₁
      exact ⟨found', hm₁.stops hm₂⟩
    · obtain ⟨found', hm⟩ := (h₁ (add_nestingOf_le hn hopen)).stops (by omega) r.lhs []
        (⟨a, xs ++ zs, built⟩ :: ancestors) (r.index :: log)
      rw [List.append_nil] at hm
      exact ⟨found', (Goes.one (step_open hs hr he hopen)).stops hm⟩

end Matches

/-- The machine matches the symbols of a rule on the tokens that they derive, if something comes
next that may stand before the rest of the rule. -/
theorem matches_of_derives (hb : Table.build g = .ok t) {r : Rule} (hr : r ∈ g.rules)
    (ys zs : List Symbol) {xs : List Symbol} (hrhs : r.rhs = ys ++ (xs ++ zs)) {ts : List Tree}
    {w : List Token} {d : Nat} (h : Derives g xs ts w d) {s : TokenStream}
    (hs : s.Ahead ((Lookahead.ofGrammar g).openings.before
      ((Lookahead.ofGrammar g).follow.get r.lhs) zs))
    {nesting : Nat} (hn : nesting ≤ nestingLimit) :
    Matches t nesting (s.put w) xs zs ts d s := by
  induction h generalizing r ys zs s nesting with
  | nil => exact .nil hn
  | epsilon h ih => exact .epsilon (ih hr (ys ++ [.terminal .epsilon]) zs (by simp [hrhs]) hs hn)
  | @token x xs ts w n found hf hx h ih =>
    exact .token rfl hf hx (ih hr (ys ++ [.terminal x]) zs (by simp [hrhs]) hs hn)
  | @node b xs cs ts w v m n r' hr' h₁ h₂ ih₁ ih₂ =>
    have hfollow := ahead_follow hr hrhs h₂ hs
    obtain ⟨found, hf, hentry⟩ := rule?_of_derives hb hr' h₁ hfollow
    obtain ⟨hmem, rfl⟩ := Grammar.mem_rulesFor.mp hr'
    have hrest := ih₂ hr (ys ++ [.nonterminal r'.lhs]) zs (by simp [hrhs]) hs hn
    rw [TokenStream.put_append]
    by_cases he : r'.isEpsilon
    · obtain ⟨rfl, rfl, rfl⟩ := h₁.of_isEpsilon he
      rw [Rule.weight_of_isEpsilon he, Nat.add_zero, Nat.zero_max]
      exact .bare hf hentry he hrest
    · rw [Rule.weight_of_not_isEpsilon he]
      refine .node hf hentry he (fun hopen => ih₁ hmem [] [] (by simp) ?_ hopen) hn hrest
      exact ahead_before_nil _ hfollow

/-- Of one stream, symbols of a rule derive only one stretch, and that by only one list of trees. -/
theorem derives_unique (hb : Table.build g = .ok t) {r : Rule} (hr : r ∈ g.rules)
    (ys zs : List Symbol) {xs : List Symbol} (hrhs : r.rhs = ys ++ (xs ++ zs)) {ts ts' : List Tree}
    {w w' : List Token} {d d' : Nat} (h : Derives g xs ts w d) (h' : Derives g xs ts' w' d')
    {s s' : TokenStream} (hput : s.put w = s'.put w')
    (hs : s.Ahead ((Lookahead.ofGrammar g).openings.before
      ((Lookahead.ofGrammar g).follow.get r.lhs) zs))
    (hs' : s'.Ahead ((Lookahead.ofGrammar g).openings.before
      ((Lookahead.ofGrammar g).follow.get r.lhs) zs)) :
    ts = ts' ∧ s = s' ∧ d = d' := by
  induction h generalizing r ys zs ts' w' d' s s' with
  | nil =>
    obtain ⟨rfl, rfl, rfl⟩ := h'.nil_inv
    exact ⟨rfl, hput, rfl⟩
  | epsilon h ih =>
    cases h' with
    | epsilon h' => exact ih hr (ys ++ [.terminal .epsilon]) zs (by simp [hrhs]) h' hput hs hs'
    | token found hf hx h' => exact absurd rfl hx
  | @token x xs ts w n found hf hx h ih =>
    cases h' with
    | epsilon h' => exact absurd rfl hx
    | token found' hf' hx' h' =>
      have hhead := congrArg TokenStream.head hput
      have htail := congrArg TokenStream.tail hput
      rw [TokenStream.head_put_cons, TokenStream.head_put_cons, Except.ok.injEq] at hhead
      rw [TokenStream.tail_put_cons, TokenStream.tail_put_cons] at htail
      subst hhead
      obtain ⟨rfl, hss, hd⟩ := ih hr (ys ++ [.terminal x]) zs (by simp [hrhs]) h' htail hs hs'
      exact ⟨rfl, hss, hd⟩
  | @node b xs cs ts w v m n r₁ hr₁ h₁ h₂ ih₁ ih₂ =>
    cases h' with
    | @node _ _ cs' ts' w' v' m' n' r₁' hr₁' h₁' h₂' =>
      rw [TokenStream.put_append, TokenStream.put_append] at hput
      have hfollow := ahead_follow hr hrhs h₂ hs
      have hfollow' := ahead_follow hr hrhs h₂' hs'
      obtain ⟨found, hf, he⟩ := rule?_of_derives hb hr₁ h₁ hfollow
      obtain ⟨found', hf', he'⟩ := rule?_of_derives hb hr₁' h₁' hfollow'
      rw [hput, hf', Except.ok.injEq] at hf
      subst hf
      rw [he', Option.some.injEq] at he
      subst he
      obtain ⟨hmem, rfl⟩ := Grammar.mem_rulesFor.mp hr₁
      obtain ⟨rfl, hput₂, rfl⟩ := ih₁ hmem [] [] (by simp) h₁' hput
        (ahead_before_nil _ hfollow) (ahead_before_nil _ hfollow')
      obtain ⟨rfl, hss, rfl⟩ := ih₂ hr (ys ++ [.nonterminal r₁'.lhs]) zs (by simp [hrhs]) h₂'
        hput₂ hs hs'
      exact ⟨rfl, hss, rfl⟩

theorem ahead_start {s : TokenStream} {found : Token} (hf : s.head = .ok found)
    (he : found.terminal = .endOfStream) :
    s.Ahead ((Lookahead.ofGrammar g).openings.before
      ((Lookahead.ofGrammar g).follow.get g.start.lhs) []) := by
  refine ahead_before_nil _ ⟨found, hf, ?_⟩
  rw [Lookahead.follow_ofGrammar, he]
  exact (Follow.mem_ofGrammar g _ _ _).mpr (.inl ⟨rfl, rfl⟩)

theorem derivation_unique (hb : Table.build g = .ok t) {tree tree' : Tree} {w : List Token}
    {d d' : Nat} (h : Derivation g tree w d) (h' : Derivation g tree' w d') :
    tree = tree' ∧ d = d' := by
  obtain ⟨cs, m, hm, rfl, rfl⟩ := h
  obtain ⟨cs', m', hm', rfl, rfl⟩ := h'
  have hend := ahead_start (g := g) (s := ⟨[], {}⟩) rfl rfl
  obtain ⟨rfl, -, rfl⟩ := derives_unique hb (List.head_mem g.rules_ne_nil) [] []
    (by rw [List.append_nil, List.nil_append]; rfl) hm hm' rfl hend hend
  exact ⟨rfl, rfl⟩

/-- On the tokens of a derivation tree the parser returns that tree, or reports that it nests too
deep. -/
theorem stops_of_derivation (hb : Table.build g = .ok t) {tree : Tree} {w : List Token} {d : Nat}
    (h : Derivation g tree w d) {p : Parser} {s : TokenStream} (hp : p.input = s.put w)
    {found : Token} (hf : s.head = .ok found) (he : found.terminal = .endOfStream) :
    (d ≤ nestingLimit → Stops t (start t p) (.ok tree)) ∧
      (nestingLimit < d → ∃ found',
        Stops t (start t p) (.error (.nestingTooDeep nestingLimit found'))) := by
  obtain ⟨cs, m, hm, rfl, rfl⟩ := h
  have hone := nestingOf_le g.start.lhs
  have hlimit : nestingOf g.start.lhs ≤ nestingLimit := hone.trans (by decide)
  have hmatch := matches_of_derives hb (List.head_mem g.rules_ne_nil) [] []
    (by rw [List.append_nil, List.nil_append]; rfl) hm (ahead_start hf he) hlimit
  have hweight : nestingOf g.start.lhs + m ≤ nestingLimit ↔ m + g.start.weight ≤ nestingLimit := by
    by_cases hbare : g.start.isEpsilon
    · obtain ⟨-, -, rfl⟩ := hm.of_isEpsilon hbare
      rw [Rule.weight_of_isEpsilon hbare]
      exact ⟨fun _ => Nat.zero_le _, fun _ => hlimit⟩
    · rw [Rule.weight_of_not_isEpsilon hbare, Nat.add_comm]
  rw [start, Table.grammar_build hb, hp]
  refine ⟨fun hd => ?_, fun hd => ?_⟩
  · obtain ⟨n, log, hgo⟩ := hmatch.goes (hweight.mpr hd) g.start.lhs [] []
      (g.start.index :: p.applied)
    rw [List.append_nil, List.append_nil] at hgo
    have hstep : step t ⟨⟨g.start.lhs, [], cs.reverse⟩, [], nestingOf g.start.lhs, s, log⟩ = _ :=
      step_finish_ok hf he
    rw [List.reverse_reverse] at hstep
    exact hgo.stops (stops_of_step hstep)
  · have hdeep := hmatch.stops (by omega) g.start.lhs [] [] (g.start.index :: p.applied)
    rw [List.append_nil] at hdeep
    exact hdeep

end Machine
end FortressLang
