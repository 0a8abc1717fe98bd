import FortressLang.Proofs.FlowMachine

/-! Following a run through code that stands somewhere in a larger code: where it arrives, what it
ends with, and how long it goes on at least. -/
namespace FortressLang

/-- The fragment stands in the code, beginning at that place. -/
def Located (code fragment : List Op) (a : Nat) : Prop := fragment <+: code.drop a

namespace Located

variable {code f g : List Op} {op : Op} {a : Nat}

theorem left (h : Located code (f ++ g) a) : Located code f a :=
  (List.prefix_append f g).trans h

theorem right (h : Located code (f ++ g) a) : Located code g (a + f.length) := by
  obtain ⟨rest, hrest⟩ := h
  refine ⟨rest, ?_⟩
  rw [← List.drop_drop, ← hrest, List.append_assoc, List.drop_left]

theorem getElem? (h : Located code (op :: f) a) : code[a]? = some op := by
  obtain ⟨rest, hrest⟩ := h
  have hhead := congrArg (·[0]?) hrest
  simpa using hhead.symm

theorem tail (h : Located code (op :: f) a) : Located code f (a + 1) :=
  right (f := [op]) h

end Located

namespace FlowState

variable {code : List Op} {s t : FlowState} {a b k m n : Nat} {σ τ : Store} {out : Ending}

/-- At least that many operations later, the run is at that place with that store. -/
def Arrives (code : List Op) (s : FlowState) (k a : Nat) (σ : Store) : Prop :=
  ∃ n t, k ≤ n ∧ Flow code s n t ∧ t.pc = a ∧ t.store = σ

/-- The run does not end before that many operations. -/
def Goes (code : List Op) (s : FlowState) (n : Nat) : Prop := ∃ t, Flow code s n t

/-- The run comes to the ending of a fragment, which finishes at that place. -/
def Meets (code : List Op) (s : FlowState) (a : Nat) : Ending → Prop
  | .finished σ => s.Arrives code 0 a σ
  | .stopped f σ => s.Ends code (.stopped f σ)

theorem Arrives.of_flow (hst : Flow code s n t) (hn : k ≤ n) (hpc : t.pc = a)
    (hstore : t.store = σ) : s.Arrives code k a σ := ⟨n, t, hn, hst, hpc, hstore⟩

theorem Arrives.trans (h : s.Arrives code k b σ)
    (hnext : ∀ t : FlowState, t.pc = b → t.store = σ → t.Arrives code m a τ) :
    s.Arrives code (k + m) a τ := by
  obtain ⟨n, t, hn, hst, hpc, hstore⟩ := h
  obtain ⟨n', u, hn', htu, hu⟩ := hnext t hpc hstore
  exact ⟨n + n', u, by omega, hst.trans htu, hu⟩

theorem Arrives.weaken (h : s.Arrives code k a σ) (hm : m ≤ k) : s.Arrives code m a σ := by
  obtain ⟨n, t, hn, ht⟩ := h
  exact ⟨n, t, by omega, ht⟩

theorem Arrives.after_flow (hst : Flow code s n t) (h : t.Arrives code k a σ) :
    s.Arrives code k a σ := by
  obtain ⟨m, u, hm, htu, hu⟩ := h
  exact ⟨n + m, u, by omega, hst.trans htu, hu⟩

theorem Meets.after_flow (hst : Flow code s n t) (h : t.Meets code a out) :
    s.Meets code a out := by
  cases out with
  | finished σ => exact Arrives.after_flow hst h
  | stopped f σ => exact Ends.of_flow hst h

theorem Arrives.meets (h : s.Arrives code k b σ)
    (hnext : ∀ t : FlowState, t.pc = b → t.store = σ → t.Meets code a out) :
    s.Meets code a out := by
  obtain ⟨n, t, -, hst, hpc, hstore⟩ := h
  exact .after_flow hst (hnext t hpc hstore)

theorem Arrives.goes (h : s.Arrives code k a σ)
    (hnext : ∀ t : FlowState, t.pc = a → t.store = σ → t.Goes code n) : s.Goes code (k + n) := by
  obtain ⟨m, t, hm, hst, hpc, hstore⟩ := h
  obtain ⟨u, htu⟩ := hnext t hpc hstore
  exact (hst.trans htu).shorten (by omega)

theorem Meets.of_step (h : s.Meets code a out) (hstep : s.step code = .next t) (hs : s.pc ≠ a) :
    t.Meets code a out := by
  cases out with
  | finished σ =>
    obtain ⟨n, u, -, hsu, hpc, hstore⟩ := h
    cases hsu with
    | refl => exact absurd hpc hs
    | succ hstep' htu =>
      rw [hstep] at hstep'
      cases hstep'
      exact .of_flow htu (Nat.zero_le _) hpc hstore
  | stopped f σ =>
    obtain ⟨n, u, hsu, hu⟩ := h
    cases hsu with
    | refl => rw [hstep] at hu; cases hu
    | succ hstep' htu =>
      rw [hstep] at hstep'
      cases hstep'
      exact ⟨_, u, htu, hu⟩

theorem Goes.shorten (h : s.Goes code n) (hm : m ≤ n) : s.Goes code m := by
  obtain ⟨t, hst⟩ := h
  exact hst.shorten hm

theorem Goes.of_step (h : s.Goes code n) (hstep : s.step code = .next t) :
    t.Goes code (n - 1) := by
  obtain ⟨u, hsu⟩ := h
  cases hsu with
  | refl => exact ⟨t, .refl t⟩
  | succ hstep' htu =>
    rw [hstep] at hstep'
    cases hstep'
    exact ⟨u, htu⟩

end FlowState

end FortressLang
