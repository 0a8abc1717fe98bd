import FortressLang.Tree
import Mathlib.Data.List.Forall2
import Mathlib.Data.List.Perm.Subperm

/-! Walks through a tree. One walk may skip children that another one visits; what it gathers is
then part of what the other one gathers, and the tree shows whether it is all of it. -/
namespace FortressLang

section

variable {α β : Type} {xs ys : List α} {f g : α → List β}

theorem exists_skipped (h : xs.Subperm ys) : ∃ skipped, ys.Perm (xs ++ skipped) := by
  obtain ⟨l, hl, hsub⟩ := h
  obtain ⟨skipped, hskipped⟩ := hsub.exists_perm_append
  exact ⟨skipped, hskipped.trans (hl.append_right _)⟩

theorem subperm_flatMap_left (h : ∀ x ∈ xs, (f x).Subperm (g x)) :
    (xs.flatMap f).Subperm (xs.flatMap g) := by
  induction xs with
  | nil => exact List.Subperm.refl _
  | cons x xs ih =>
    rw [List.forall_mem_cons] at h
    exact h.1.append (ih h.2)

theorem subperm_flatMap (h : xs.Subperm ys) (hf : ∀ x ∈ xs, (f x).Subperm (g x)) :
    (xs.flatMap f).Subperm (ys.flatMap g) := by
  obtain ⟨skipped, hys⟩ := exists_skipped h
  have hall : (ys.flatMap g).Perm (xs.flatMap g ++ skipped.flatMap g) := by
    rw [← List.flatMap_append]
    exact hys.flatMap_right g
  have hpart := (List.sublist_append_left (xs.flatMap g) (skipped.flatMap g)).subperm
  exact (subperm_flatMap_left hf).trans (hpart.trans hall.symm.subperm)

theorem perm_of_flatMap (h : ∀ x ∈ xs, (f x).Subperm (g x))
    (hlength : (xs.flatMap g).length ≤ (xs.flatMap f).length) : ∀ x ∈ xs, (f x).Perm (g x) := by
  induction xs with
  | nil => exact fun x hx => absurd hx List.not_mem_nil
  | cons x xs ih =>
    rw [List.forall_mem_cons] at h ⊢
    have hfirst := h.1.length_le
    have hrest := (subperm_flatMap_left h.2).length_le
    simp only [List.flatMap_cons, List.length_append] at hlength
    exact ⟨h.1.perm_of_length_le (by omega), ih h.2 (by omega)⟩

end

/-- A way through a tree: the children that are visited, and what a node bears. -/
structure Walk (α : Type) where
  next : Tree → List Tree
  own : Tree → List α
  mem_children : ∀ {t c : Tree}, c ∈ next t → c ∈ t.children

namespace Walk

variable {α : Type}

/-- What the visited nodes bear, each in front of those below it. -/
def gather (w : Walk α) (t : Tree) : List α :=
  w.own t ++ (w.next t).attach.flatMap fun c => gather w c.1
termination_by sizeOf t
decreasing_by exact Tree.sizeOf_children_lt (w.mem_children c.2)

theorem gather_eq (w : Walk α) (t : Tree) :
    w.gather t = w.own t ++ (w.next t).flatMap w.gather := by
  rw [gather, List.flatMap_subtype (g := w.gather) (by simp), List.unattach_attach]

/-- One walk visits no more than the other, and the nodes bear no more on it. -/
structure Within (v w : Walk α) : Prop where
  own : ∀ t, (v.own t).Subperm (w.own t)
  next : ∀ t, (v.next t).Subperm (w.next t)

/-- On the way of the one walk the other one finds no more: below the children that only the other
visits nothing is borne. -/
inductive Keeps (v w : Walk α) : Tree → Prop
  | node {t : Tree} {skipped : List Tree} :
    (v.own t).Perm (w.own t) → (w.next t).Perm (v.next t ++ skipped) →
      (∀ c ∈ skipped, w.gather c = []) → (∀ c ∈ v.next t, Keeps v w c) → Keeps v w t

/-- On the way of the one walk the other one finds the same in the same order. -/
inductive Follows (v w : Walk α) : Tree → Prop
  | node {t : Tree} :
    v.own t = w.own t → (v.next t).flatMap w.gather = (w.next t).flatMap w.gather →
      (∀ c ∈ v.next t, Follows v w c) → Follows v w t

variable {v w : Walk α} {t : Tree}

theorem Follows.gather_eq (h : v.Follows w t) : v.gather t = w.gather t := by
  induction h with
  | node hown hnext hall ih =>
    rw [Walk.gather_eq, Walk.gather_eq, hown, ← hnext, List.flatMap_congr ih]

theorem Within.gather_subperm (h : v.Within w) (t : Tree) :
    (v.gather t).Subperm (w.gather t) := by
  induction t using Tree.induction with
  | node l cs ih =>
    rw [gather_eq, gather_eq]
    exact (h.own _).append (subperm_flatMap (h.next _) fun c hc => ih c (v.mem_children hc))

theorem Keeps.perm (h : v.Keeps w t) : (v.gather t).Perm (w.gather t) := by
  induction h with
  | @node t skipped hown hnext hskipped hall ih =>
    have hnothing : skipped.flatMap w.gather = [] := List.flatMap_eq_nil_iff.mpr hskipped
    rw [gather_eq, gather_eq]
    have hvisited := hown.append (List.Perm.flatMap_left (v.next t) ih)
    have hall := (hnext.flatMap_right w.gather).append_left (w.own t)
    rw [List.flatMap_append, hnothing, List.append_nil] at hall
    exact hvisited.trans hall.symm

/-- The one walk gathers all that the other does exactly if nothing is borne where it does not
go. -/
theorem Within.keeps_iff (h : v.Within w) (t : Tree) :
    v.Keeps w t ↔ (v.gather t).Perm (w.gather t) := by
  refine ⟨Keeps.perm, ?_⟩
  induction t using Tree.induction with
  | node l cs ih =>
    intro hperm
    obtain ⟨skipped, hskipped⟩ := exists_skipped (h.next (.node l cs))
    have hvisited : ∀ c ∈ v.next (.node l cs), (v.gather c).Subperm (w.gather c) :=
      fun c _ => h.gather_subperm c
    have hlength := hperm.length_eq
    rw [gather_eq, gather_eq, List.length_append, List.length_append,
      (hskipped.flatMap_right w.gather).length_eq, List.flatMap_append,
      List.length_append] at hlength
    have hown := (h.own (.node l cs)).length_le
    have hnext := (subperm_flatMap_left hvisited).length_le
    have hnothing : skipped.flatMap w.gather = [] := List.length_eq_zero_iff.mp (by omega)
    have hall := perm_of_flatMap hvisited (by omega)
    exact .node ((h.own _).perm_of_length_le (by omega)) hskipped
      (List.flatMap_eq_nil_iff.mp hnothing) fun c hc => ih c (v.mem_children hc) (hall c hc)

/-- What corresponds to all that the one walk gathers corresponds to all that the other one does
exactly if nothing is missed. -/
theorem Within.exists_perm_iff (h : v.Within w) {β : Type} {r : α → β → Prop} {ys : List β}
    (hys : List.Forall₂ r (v.gather t) ys) :
    (∃ xs, xs.Perm (w.gather t) ∧ List.Forall₂ r xs ys) ↔ v.Keeps w t := by
  rw [h.keeps_iff]
  refine ⟨fun ⟨xs, hxs, hr⟩ => ?_, fun hperm => ⟨_, hperm, hys⟩⟩
  have hlength : (w.gather t).length ≤ (v.gather t).length := by
    have hsame := hxs.length_eq.symm.trans (hr.length_eq.trans hys.length_eq.symm)
    exact Nat.le_of_eq hsame
  exact (h.gather_subperm t).perm_of_length_le hlength

end Walk
end FortressLang
