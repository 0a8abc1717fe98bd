import FortressLang.Symbol

/-! Sets of terminals as words of bits, and families of values over the nonterminals as vectors.
Both are seen through one view each: `mem` and `get`. -/
namespace FortressLang

structure TerminalSet where
  bits : BitVec 25
  deriving DecidableEq

namespace TerminalSet

def empty : TerminalSet := ⟨0⟩

def mem (s : TerminalSet) (t : Terminal) : Bool := s.bits.getLsbD t.index

def singleton (t : Terminal) : TerminalSet := ⟨BitVec.twoPow 25 t.index⟩

def union (s u : TerminalSet) : TerminalSet := ⟨s.bits ||| u.bits⟩

/-- The members in the order of `Terminal.all`. -/
def toList (s : TerminalSet) : List Terminal := Terminal.all.filter s.mem

@[simp] theorem mem_empty (t : Terminal) : empty.mem t = false := by simp [empty, mem]

@[simp] theorem mem_union (s u : TerminalSet) (t : Terminal) :
    (s.union u).mem t = (s.mem t || u.mem t) := by simp [union, mem]

@[simp] theorem mem_singleton (t u : Terminal) : (singleton t).mem u = decide (t = u) := by
  cases t <;> cases u <;> rfl

@[simp] theorem mem_toList (s : TerminalSet) (t : Terminal) : t ∈ s.toList ↔ s.mem t = true := by
  simp [toList, Terminal.mem_all]

@[ext] theorem ext {s u : TerminalSet} (h : ∀ t, s.mem t = u.mem t) : s = u := by
  obtain ⟨s⟩ := s
  obtain ⟨u⟩ := u
  congr 1
  apply BitVec.eq_of_getLsbD_eq
  intro i hi
  simpa [mem] using h (Terminal.ofIndex ⟨i, hi⟩)

end TerminalSet

structure Family (α : Type) where
  values : Vector α 16
  deriving DecidableEq

namespace Family

variable {α : Type}

def get (f : Family α) (a : Nonterminal) : α := f.values[a.index]

def tabulate (f : Nonterminal → α) : Family α := ⟨Vector.ofFn fun i => f (Nonterminal.ofIndex i)⟩

@[simp] theorem get_tabulate (f : Nonterminal → α) (a : Nonterminal) :
    (tabulate f).get a = f a := by
  simp [get, tabulate]

@[ext] theorem ext {f g : Family α} (h : ∀ a, f.get a = g.get a) : f = g := by
  obtain ⟨f⟩ := f
  obtain ⟨g⟩ := g
  congr 1
  apply Vector.ext
  intro i hi
  simpa [get] using h (Nonterminal.ofIndex ⟨i, hi⟩)

end Family
end FortressLang
