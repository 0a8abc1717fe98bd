import FortressLang.Proofs.ParserCompleteness
import FortressLang.Proofs.ParserStack

/-! How far a string of terminals can be the beginning of a sentence. Whatever a parser has matched
can be completed, if every nonterminal derives something; and where it fails on a token, no
sentence has that token there. -/
namespace FortressLang
namespace Grammar

/-- The terminals of the leaves of a derivation tree, however deep it is nested. -/
def Sentence (g : Grammar) (ks : List Terminal) : Prop :=
  ∃ tree w n, Derivation g tree w n ∧ kinds w = ks

def Viable (g : Grammar) (ks : List Terminal) : Prop := ∃ ms, g.Sentence (ks ++ ms)

/-- Behind the tokens the stream goes on as no sentence does: with a lexical error, with a token
that no sentence has there, or with the end though the tokens are no sentence. -/
def Breaks (g : Grammar) (w : List Token) (s : TokenStream) : Prop :=
  match s.head with
  | .error _ => True
  | .ok found =>
    if found.terminal = .endOfStream then ¬ g.Sentence (kinds w)
    else ¬ g.Viable (kinds w ++ [found.terminal])

variable {g : Grammar} {ks ms : List Terminal}

theorem Sentence.viable (h : g.Sentence ks) : g.Viable ks := ⟨[], by rwa [List.append_nil]⟩

theorem Viable.of_append (h : g.Viable (ks ++ ms)) : g.Viable ks := by
  obtain ⟨ns, hns⟩ := h
  rw [List.append_assoc] at hns
  exact ⟨ms ++ ns, hns⟩

end Grammar

theorem Derives.of_kinds {g : Grammar} {xs : List Symbol} {ts : List Tree} {w v : List Token}
    {n : Nat} (h : Derives g xs ts w n) (hkinds : kinds w = kinds v) :
    ∃ us, Derives g xs us v n := by
  induction h generalizing v with
  | nil =>
    obtain rfl := List.map_eq_nil_iff.mp hkinds.symm
    exact ⟨[], .nil⟩
  | epsilon _ ih =>
    obtain ⟨us, hus⟩ := ih hkinds
    exact ⟨us, .epsilon hus⟩
  | token found hf hx _ ih =>
    obtain ⟨found', v', rfl, hfound, hrest⟩ := List.map_eq_cons_iff.mp hkinds.symm
    obtain ⟨us, hus⟩ := ih hrest.symm
    exact ⟨_, .token found' (hfound.trans hf) hx hus⟩
  | node r hr _ _ ih ih' =>
    rw [kinds_append] at hkinds
    obtain ⟨v₁, v₂, rfl, h₁, h₂⟩ := List.map_eq_append_iff.mp hkinds.symm
    obtain ⟨cs, hcs⟩ := ih h₁.symm
    obtain ⟨us, hus⟩ := ih' h₂.symm
    exact ⟨_, .node r hr hcs hus⟩

theorem Grammar.Sentence.exists_derivation {g : Grammar} {w : List Token}
    (h : g.Sentence (kinds w)) : ∃ tree n, Derivation g tree w n := by
  obtain ⟨tree, v, n, ⟨cs, m, hcs, rfl, rfl⟩, hkinds⟩ := h
  obtain ⟨us, hus⟩ := hcs.of_kinds hkinds
  exact ⟨_, _, us, m, hus, rfl, rfl⟩

def Symbol.rank (rank : Nonterminal → Nat) : Symbol → Nat
  | terminal _ => 0
  | nonterminal a => rank a + 1

namespace Grammar

variable {g : Grammar}

/-- Every nonterminal derives something, since it has a rule with symbols of lower rank. -/
def Ranked (g : Grammar) (rank : Nonterminal → Nat) : Prop :=
  ∀ a, ∃ r ∈ g.rulesFor a, ∀ y ∈ r.rhs, y.rank rank ≤ rank a

theorem exists_grows_of_each {xs : List Symbol}
    (h : ∀ y ∈ xs, ∃ log ts w, Grows g [y] log ts w) : ∃ log ts w, Grows g xs log ts w := by
  induction xs with
  | nil => exact ⟨[], [], [], .nil⟩
  | cons y xs ih =>
    obtain ⟨⟨log, ts, w, hy⟩, hxs⟩ := List.forall_mem_cons.mp h
    obtain ⟨log', us, v, hxs⟩ := ih hxs
    exact ⟨_, _, _, hy.append hxs⟩

theorem exists_grows_terminal (g : Grammar) (x : Terminal) :
    ∃ log ts w, Grows g [.terminal x] log ts w := by
  by_cases hx : x = .epsilon
  · exact ⟨[], [], [], hx ▸ .epsilon .nil⟩
  · have htoken (found : Token) (hx : found.terminal ≠ .epsilon) :
        Grows g [.terminal found.terminal] [] [.leaf found] [found] := .token hx .nil
    exact ⟨_, _, _, htoken ⟨x, "", {}⟩ hx⟩

theorem Ranked.exists_grows_nonterminal {rank : Nonterminal → Nat} (h : g.Ranked rank)
    (a : Nonterminal) : ∃ log ts w, Grows g [.nonterminal a] log ts w := by
  induction hk : rank a using Nat.strongRecOn generalizing a with
  | _ k ih =>
    obtain ⟨r, hr, hrank⟩ := h a
    obtain ⟨hmem, rfl⟩ := mem_rulesFor.mp hr
    obtain ⟨log, cs, w, hcs⟩ : ∃ log cs w, Grows g r.rhs log cs w := by
      refine exists_grows_of_each fun y hy => ?_
      cases y with
      | terminal x => exact exists_grows_terminal g x
      | nonterminal b => exact ih (rank b) (hk ▸ hrank _ hy) b rfl
    exact ⟨_, _, _, .node hmem hcs .nil⟩

theorem Ranked.exists_grows {rank : Nonterminal → Nat} (h : g.Ranked rank) (xs : List Symbol) :
    ∃ log ts w, Grows g xs log ts w := by
  refine exists_grows_of_each fun y _ => ?_
  cases y with
  | terminal x => exact exists_grows_terminal g x
  | nonterminal a => exact h.exists_grows_nonterminal a

end Grammar

namespace OpenTree

variable {g : Grammar} {a : Nonterminal} {built : List Tree} {current : Frame}
  {ancestors : List Frame} {log : List Nat} {w : List Token}

theorem exists_derivation (h : OpenTree g ⟨a, [], built⟩ [] log w) :
    ∃ tree n, Derivation g tree w n := by
  cases h with
  | root hrhs hdone =>
    rw [List.append_nil] at hrhs
    obtain ⟨m, hm⟩ := hdone.derives
    exact ⟨_, _, built.reverse, m, hrhs ▸ hm, rfl, rfl⟩

/-- An open tree can be completed: the current node with whatever its symbols derive, then its
parent. -/
theorem viable (h : OpenTree g current ancestors log w) {rank : Nonterminal → Nat}
    (hrank : g.Ranked rank) : g.Viable (kinds w) := by
  induction ancestors generalizing current log w with
  | nil =>
    obtain ⟨a, xs, built⟩ := current
    obtain ⟨log', ts, v, hgrows⟩ := hrank.exists_grows xs
    have hwhole := h.complete hgrows
    obtain ⟨tree, n, hderivation⟩ := hwhole.exists_derivation
    exact ⟨kinds v, tree, w ++ v, n, hderivation, kinds_append w v⟩
  | cons parent ancestors ih =>
    obtain ⟨a, xs, built⟩ := current
    obtain ⟨log', ts, v, hgrows⟩ := hrank.exists_grows xs
    have hcomplete := h.complete hgrows
    have hviable := ih hcomplete.closed
    rw [kinds_append] at hviable
    exact hviable.of_append

end OpenTree

namespace Machine

variable {g : Grammar} {t : Table} {p : Parser} {m : Machine} {log : List Nat} {w v : List Token}
  {issue : Issue}

theorem Stops.unique {result result' : Except Issue Tree} (h : Stops t m result)
    (h' : Stops t m result') : result = result' := by
  obtain ⟨n, q, hn⟩ := h
  obtain ⟨k, q', hk⟩ := h'
  exact congrArg Prod.fst (runFor_unique hn hk)

/-- Where a machine fails on the next token whatever is behind it, no derived tokens begin like the
stream, unless it finds them too deep. -/
theorem Reads.not_derivation (hb : Table.build g = .ok t) (h : Reads g t p m log w)
    (hfails : FailsAhead t m issue)
    (hissue : ∀ limit found, issue ≠ .nestingTooDeep limit found) {s : TokenStream} {last : Token}
    (hs : (s.put v).head = m.input.head) (hlast : s.head = .ok last)
    (hend : last.terminal = .endOfStream) (tree : Tree) (n : Nat) :
    ¬ Derivation g tree (w ++ v) n := by
  intro hderivation
  obtain ⟨k, hk⟩ := h.again (s.put v) hs
  have herror : Stops t (start t ⟨(s.put v).put w, p.applied⟩) (.error issue) :=
    hk.stops (stops_of_step (hfails _ hs))
  rw [← TokenStream.put_append] at herror
  have hderived := stops_of_derivation hb hderivation (p := ⟨s.put (w ++ v), p.applied⟩) rfl
    hlast hend
  by_cases hn : n ≤ nestingLimit
  · cases herror.unique (hderived.1 hn)
  · obtain ⟨found, hdeep⟩ := hderived.2 (by omega)
    exact hissue _ _ (Except.error.inj (herror.unique hdeep))

/-- Where a machine fails on the next thing in the stream, the stream goes on as no sentence
does. -/
theorem Reads.breaks (hb : Table.build g = .ok t) (h : Reads g t p m log w)
    (hfails : FailsAhead t m issue)
    (hissue : ∀ limit found, issue ≠ .nestingTooDeep limit found) : g.Breaks w m.input := by
  rw [Grammar.Breaks]
  cases hs : m.input.head with
  | error _ => trivial
  | ok found =>
    simp only
    split
    · rename_i hend
      intro hsentence
      obtain ⟨tree, n, hderivation⟩ := hsentence.exists_derivation
      rw [← List.append_nil w] at hderivation
      exact h.not_derivation hb hfails hissue (s := m.input) rfl hs hend tree n hderivation
    · rintro ⟨ms, hsentence⟩
      let rest := ms.map fun x => (⟨x, "", {}⟩ : Token)
      have hkinds : kinds (w ++ found :: rest) = kinds w ++ [found.terminal] ++ ms := by
        simp [rest, kinds, Function.comp_def]
      rw [← hkinds] at hsentence
      obtain ⟨tree, n, hderivation⟩ := hsentence.exists_derivation
      exact h.not_derivation hb hfails hissue (s := ⟨[], {}⟩) (by rw [hs]; rfl) rfl rfl tree n
        hderivation

end Machine
end FortressLang
