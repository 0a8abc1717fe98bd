import FortressLang.Lookahead
import Mathlib.Data.Fintype.Card
import Mathlib.Order.Lattice.Nat
import Mathlib.Logic.Function.Iterate

/-! Rounds that gain more members from more members. They settle on a fixed point, and each member
of it was gained in a round of its own, from members gained earlier. -/
namespace FortressLang

/-- Rounds that are known one by one settle on the last of them, if it stays as it is. -/
theorem settle_eq_of_rounds {α : Type} [DecidableEq α] {f : α → α} (v : Nat → α) {k n : Nat}
    (hk : k ≤ n) (hs : ∀ i < k, f (v i) = v (i + 1)) (hf : f (v k) = v k) :
    settle f n (v 0) = v k := by
  induction n generalizing v k with
  | zero =>
    obtain rfl : k = 0 := by omega
    rfl
  | succ n ih =>
    rw [settle]
    split
    · rename_i hfix
      have hall : ∀ i ≤ k, v i = v 0 := by
        intro i hi
        induction i with
        | zero => rfl
        | succ i ihi => rw [← hs i (by omega), ihi (by omega), hfix]
      exact (hall k le_rfl).symm
    · rename_i hne
      cases k with
      | zero => exact absurd hf hne
      | succ k =>
        rw [hs 0 (by omega)]
        exact ih (fun i => v (i + 1)) (by omega) (fun i hi => hs (i + 1) (by omega)) hf

/-- Values with members, among them one without any, and the next round on a value. -/
structure Rounds (α ι : Type) where
  mem : α → ι → Bool
  ext : ∀ x y, (∀ i, mem x i = mem y i) → x = y
  empty : α
  mem_empty : ∀ i, mem empty i = false
  next : α → α
  mono : ∀ x y, (∀ i, mem x i → mem y i) → ∀ i, mem (next x) i → mem (next y) i

namespace Rounds

variable {α ι : Type} (r : Rounds α ι)

def value (n : Nat) : α := r.next^[n] r.empty

theorem value_succ (n : Nat) : r.value (n + 1) = r.next (r.value n) :=
  Function.iterate_succ_apply' r.next n r.empty

theorem mem_value_succ (n : Nat) (i : ι) (h : r.mem (r.value n) i) :
    r.mem (r.value (n + 1)) i := by
  induction n generalizing i with
  | zero => rw [show r.value 0 = r.empty from rfl, r.mem_empty] at h; cases h
  | succ n ih =>
    rw [value_succ] at h ⊢
    exact r.mono _ _ ih i h

theorem mem_of_mem_value {x : α} (hx : r.next x = x) {n : Nat} {i : ι}
    (h : r.mem (r.value n) i) : r.mem x i := by
  induction n generalizing i with
  | zero => rw [show r.value 0 = r.empty from rfl, r.mem_empty] at h; cases h
  | succ n ih =>
    rw [value_succ] at h
    rw [← hx]
    exact r.mono _ _ (fun i => ih) i h

theorem settle_value [DecidableEq α] (n k : Nat) :
    ∃ m, settle r.next n (r.value k) = r.value m := by
  induction n generalizing k with
  | zero => exact ⟨k, rfl⟩
  | succ n ih =>
    rw [settle]
    split
    · exact ⟨k, rfl⟩
    · rw [← value_succ]
      exact ih (k + 1)

section Card
variable [Fintype ι]

def size (x : α) : Nat := (Finset.univ.filter fun i => r.mem x i).card

theorem size_le (x : α) : r.size x ≤ Fintype.card ι := Finset.card_le_univ _

theorem size_value_lt {n : Nat} (h : r.next (r.value n) ≠ r.value n) :
    r.size (r.value n) < r.size (r.value (n + 1)) := by
  refine Finset.card_lt_card ⟨?_, ?_⟩
  · intro i hi
    simp only [Finset.mem_filter, Finset.mem_univ, true_and] at hi ⊢
    exact r.mem_value_succ n i hi
  · intro hs
    refine h (r.ext _ _ fun i => ?_)
    rw [← value_succ, Bool.eq_iff_iff]
    constructor
    · intro hi
      have hm := hs (Finset.mem_filter.mpr ⟨Finset.mem_univ i, hi⟩)
      exact (Finset.mem_filter.mp hm).2
    · exact r.mem_value_succ n i

theorem next_settle_value [DecidableEq α] {n k : Nat}
    (h : Fintype.card ι < n + r.size (r.value k)) :
    r.next (settle r.next n (r.value k)) = settle r.next n (r.value k) := by
  induction n generalizing k with
  | zero => have hs := r.size_le (r.value k); omega
  | succ n ih =>
    rw [settle]
    split
    · assumption
    · rename_i hne
      have hs := r.size_value_lt hne
      rw [← value_succ]
      exact ih (by omega)

/-- With more rounds than there are members to gain, the last changes nothing. -/
theorem next_settle [DecidableEq α] {n : Nat} (h : Fintype.card ι < n) :
    r.next (settle r.next n r.empty) = settle r.next n r.empty :=
  r.next_settle_value (k := 0) (by omega)

end Card

noncomputable def round (i : ι) : Nat := sInf {n | r.mem (r.value n) i}

theorem round_le {n : Nat} {i : ι} (h : r.mem (r.value n) i) : r.round i ≤ n := Nat.sInf_le h

/-- A member is gained from what the rounds before its own have gained. -/
theorem exists_gained {n : Nat} {i : ι} (h : r.mem (r.value n) i) :
    ∃ k, k < r.round i ∧ r.mem (r.next (r.value k)) i := by
  have hm : r.mem (r.value (r.round i)) i := Nat.sInf_mem (s := {n | r.mem (r.value n) i}) ⟨n, h⟩
  cases hr : r.round i with
  | zero =>
    rw [hr, show r.value 0 = r.empty from rfl, r.mem_empty] at hm
    cases hm
  | succ k =>
    rw [hr, value_succ] at hm
    exact ⟨k, k.lt_succ_self, hm⟩

theorem exists_gained_settle [DecidableEq α] {n : Nat} {i : ι}
    (h : r.mem (settle r.next n r.empty) i) :
    ∃ k, k < r.round i ∧ r.mem (r.next (r.value k)) i := by
  obtain ⟨m, hm⟩ := r.settle_value n 0
  rw [show r.empty = r.value 0 from rfl, hm] at h
  exact r.exists_gained h

end Rounds
end FortressLang
