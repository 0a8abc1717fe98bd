import FortressLang.FlowCode
import FortressLang.Proofs.StatementRuns

/-! A machine for flat code: a place in the code, temporaries, decided conditions and a store. It
stands still only at an operation that asks for something that is not there. -/
namespace FortressLang

structure FlowState where
  pc : Nat
  temps : Nat → Option Int32
  conditions : Nat → Option Bool
  store : Store

inductive FlowStep
  | next (s : FlowState)
  | ends (out : Ending)
  | stuck

namespace FlowState

def write (s : FlowState) (dest : Nat) (v : Int32) : FlowState :=
  { s with pc := s.pc + 1, temps := Function.update s.temps dest (some v) }

def judge (s : FlowState) (block : Nat) (b : Bool) : FlowState :=
  { s with pc := s.pc + 1, conditions := Function.update s.conditions block (some b) }

def pass (s : FlowState) (σ : Store) : FlowState := { s with pc := s.pc + 1, store := σ }

def goTo (s : FlowState) (code : List Op) (l : CodeLabel) : FlowStep :=
  match code.findIdx? (· = .label l) with
  | some i => .next { s with pc := i }
  | none => .stuck

/-- One operation. Constants are taken modulo the size of a word, and storage is there all along. -/
def exec (s : FlowState) (code : List Op) : Op → FlowStep
  | .loadVariable dest name => .next (s.write dest (s.store.memory name))
  | .loadConstant dest value => .next (s.write dest (.ofInt value))
  | .arith dest op lhs rhs =>
    match s.temps lhs, s.temps rhs with
    | some a, some b =>
      match Arithmetic.words.operate? op a b with
      | some v => .next (s.write dest v)
      | none => .ends (.stopped .noQuotient s.store)
    | _, _ => .stuck
  | .invert dest src =>
    match s.temps src with
    | some a => .next (s.write dest (0 - a))
    | none => .stuck
  | .alloc _ => .next (s.pass s.store)
  | .store src name =>
    match s.temps src with
    | some a => .next (s.pass (s.store.set name a))
    | none => .stuck
  | .print src =>
    match s.temps src with
    | some a => .next (s.pass (s.store.print a))
    | none => .stuck
  | .read dest =>
    match s.store.input with
    | v :: vs => .next ({ s with store := { s.store with input := vs } }.write dest v)
    | [] => .ends (.stopped .noInput s.store)
  | .compare block comparison lhs rhs =>
    match s.temps lhs, s.temps rhs with
    | some a, some b => .next (s.judge block (comparison.holds a b))
    | _, _ => .stuck
  | .branch block onTrue onFalse =>
    match s.conditions block with
    | some b => s.goTo code (if b then onTrue else onFalse)
    | none => .stuck
  | .jump l => s.goTo code l
  | .label _ => .next (s.pass s.store)

/-- Behind the last operation the run is over. -/
def step (code : List Op) (s : FlowState) : FlowStep :=
  match code[s.pc]? with
  | some op => s.exec code op
  | none => .ends (.finished s.store)

theorem step_of_getElem? {code : List Op} {s : FlowState} {op : Op} (h : code[s.pc]? = some op) :
    s.step code = s.exec code op := by
  simp only [step, h]

theorem goTo_of_findIdx? {code : List Op} {l : CodeLabel} {i : Nat} (s : FlowState)
    (h : code.findIdx? (· = .label l) = some i) : s.goTo code l = .next { s with pc := i } := by
  simp only [goTo, h]

end FlowState

inductive Flow (code : List Op) : FlowState → Nat → FlowState → Prop
  | refl (s) : Flow code s 0 s
  | succ {s t u n} : s.step code = .next t → Flow code t n u → Flow code s (n + 1) u

namespace Flow

variable {code : List Op} {s t u : FlowState} {m n : Nat}

theorem trans (hst : Flow code s m t) (htu : Flow code t n u) : Flow code s (m + n) u := by
  induction hst with
  | refl => simpa using htu
  | succ hstep _ ih =>
    simpa [Nat.add_assoc, Nat.add_left_comm, Nat.add_comm] using Flow.succ hstep (ih htu)

theorem one (h : s.step code = .next t) : Flow code s 1 t := .succ h (.refl t)

theorem remainder (hst : Flow code s m t) (hsu : Flow code s n u) (h : m ≤ n) :
    Flow code t (n - m) u := by
  induction hst generalizing n with
  | refl => simpa using hsu
  | succ hstep _ ih =>
    cases hsu with
    | refl => simp at h
    | succ hstep' hrest =>
      rw [hstep] at hstep'
      cases hstep'
      simpa using ih hrest (by omega)

theorem shorten (h : Flow code s n t) (hm : m ≤ n) : ∃ u, Flow code s m u := by
  induction h generalizing m with
  | refl s => exact ⟨s, by rw [Nat.le_zero.mp hm]; exact .refl s⟩
  | succ hstep _ ih =>
    cases m with
    | zero => exact ⟨_, .refl _⟩
    | succ m =>
      obtain ⟨u, hu⟩ := ih (Nat.le_of_succ_le_succ hm)
      exact ⟨u, .succ hstep hu⟩

end Flow

def FlowState.Ends (code : List Op) (s : FlowState) (out : Ending) : Prop :=
  ∃ n t, Flow code s n t ∧ t.step code = .ends out

/-- A run neither ends nor gets stuck. -/
def FlowState.RunsForever (code : List Op) (s : FlowState) : Prop := ∀ n, ∃ t, Flow code s n t

namespace FlowState

variable {code : List Op} {s t : FlowState} {out out' : Ending} {m n : Nat}

theorem Ends.of_flow (h : Flow code s n t) : t.Ends code out → s.Ends code out
  | ⟨_, u, htu, hu⟩ => ⟨_, u, h.trans htu, hu⟩

theorem le_of_ends (hst : Flow code s n t) (ht : t.step code = .ends out) {u : FlowState}
    (hsu : Flow code s m u) : m ≤ n := by
  by_contra hlt
  have hrest := hst.remainder hsu (by omega)
  cases hk : m - n with
  | zero => omega
  | succ k =>
    rw [hk] at hrest
    cases hrest with
    | succ hstep _ => rw [ht] at hstep; cases hstep

theorem last_unique {u : FlowState} (hst : Flow code s n t) (ht : t.step code = .ends out)
    (hsu : Flow code s m u) (hu : u.step code = .ends out') : t = u := by
  have hmn : m = n := Nat.le_antisymm (le_of_ends hst ht hsu) (le_of_ends hsu hu hst)
  subst hmn
  have hrest := hst.remainder hsu (Nat.le_refl m)
  rw [Nat.sub_self] at hrest
  cases hrest
  rfl

theorem Ends.unique (h : s.Ends code out) (h' : s.Ends code out') : out = out' := by
  obtain ⟨n, t, hst, ht⟩ := h
  obtain ⟨m, u, hsu, hu⟩ := h'
  obtain rfl := last_unique hst ht hsu hu
  rw [ht] at hu
  cases hu
  rfl

theorem RunsForever.not_ends (h : s.RunsForever code) : ¬s.Ends code out := by
  rintro ⟨n, t, hst, ht⟩
  obtain ⟨u, hsu⟩ := h (n + 1)
  have := le_of_ends hst ht hsu
  omega

end FlowState
end FortressLang
