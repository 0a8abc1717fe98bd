import FortressLang.Proofs.LoweredExpr
import FortressLang.Proofs.SimplifiedMeaning

/-! On words, the code of a parsed sum computes what the sum is worth with its signs moved. That is
not what it is worth as it was written where a sign is moved over a quotient of the smallest word,
which is its own negative. -/
namespace FortressLang

open Arithmetic

theorem neg_div_of_ne_minValue {a : Int32} (ha : a ≠ Int32.minValue) (b : Int32) :
    -a / b = -(a / b) := by
  have ha' : a.toBitVec ≠ BitVec.intMin 32 := fun h => ha (Int32.toBitVec_inj.mp h)
  apply Int32.toBitVec_inj.mp
  rw [Int32.toBitVec_div, Int32.toBitVec_neg, Int32.toBitVec_neg, Int32.toBitVec_div,
    BitVec.neg_sdiv ha']

theorem minValue_div_ne_neg {b : Int32} (h₀ : b ≠ 0) (h₁ : b ≠ 1) (hneg : b ≠ -1) :
    Int32.minValue / b ≠ -(Int32.minValue / b) := by
  intro heq
  have h₀' : b.toInt ≠ 0 := fun h => h₀ (Int32.toInt_inj.mp h)
  have h₁' : b.toInt ≠ 1 := fun h => h₁ (Int32.toInt_inj.mp h)
  have hneg' : b.toInt ≠ -1 := fun h => hneg (Int32.toInt_inj.mp h)
  have hle := b.le_toInt
  have hlt := b.toInt_lt
  have hpos : 0 < 2 ^ 31 / b.toInt.natAbs := Nat.div_pos (by omega) (by omega)
  have hsmall : 2 ^ 31 / b.toInt.natAbs ≤ 2 ^ 31 / 2 := Nat.div_le_div_left (by omega) (by omega)
  have hquotient : (Int32.minValue / b).toInt.natAbs = 2 ^ 31 / b.toInt.natAbs := by
    rw [Int32.toInt_div_of_ne_right _ _ hneg, Int.natAbs_tdiv]
    rfl
  have hsame := congrArg Int32.toInt heq
  rw [Int32.toInt_neg, Int.bmod_eq_of_le (by omega) (by omega)] at hsame
  omega

/-- Only a quotient of the smallest word loses a sign. -/
theorem Arithmetic.words_carries_iff (a b : Int32) :
    words.Carries a b ↔ a ≠ Int32.minValue ∨ b = 0 ∨ b = 1 ∨ b = -1 := by
  have hmin : -Int32.minValue = Int32.minValue := by decide
  rcases eq_or_ne b 0 with rfl | h₀
  · simp [Carries, words]
  rcases eq_or_ne a Int32.minValue with rfl | ha
  · rcases eq_or_ne b 1 with rfl | h₁
    · simp [Carries, words, hmin]
    rcases eq_or_ne b (-1) with rfl | hneg
    · simp [Carries, words, hmin]
    have hne := minValue_div_ne_neg h₀ h₁ hneg
    simp [Carries, words, h₀, h₁, hneg, hmin, hne]
  · have ha' : -a ≠ Int32.minValue := fun h => ha (by rw [← @Int32.neg_neg a, h, hmin])
    simp [Carries, words, h₀, ha, ha', neg_div_of_ne_minValue ha]

namespace FlowState

variable {code : List Op} {s : FlowState} {temp : Nat} {v v' : Int32}

/-- A run through the whole code, which keeps the store and leaves the value in the temporary. -/
def Delivers (code : List Op) (s : FlowState) (temp : Nat) (v : Int32) : Prop :=
  ∃ n t, Flow code s n t ∧ t.step code = .ends (.finished s.store) ∧ t.temps temp = some v

theorem Delivers.ends : s.Delivers code temp v → s.Ends code (.finished s.store)
  | ⟨n, t, hst, ht, _⟩ => ⟨n, t, hst, ht⟩

theorem Delivers.unique (h : s.Delivers code temp v) (h' : s.Delivers code temp v') : v = v' := by
  obtain ⟨n, t, hst, ht, hv⟩ := h
  obtain ⟨m, u, hsu, hu, hv'⟩ := h'
  obtain rfl := last_unique hst ht hsu hu
  exact Option.some.inj (hv.symm.trans hv')

end FlowState

theorem Expr.delivers_iff (e : Expr) (first : Nat) {s : FlowState} (hs : s.pc = 0) (v : Int32) :
    s.Delivers (e.lower first).1 ((e.lower first).2 - 1) v ↔
      e.value? .words s.store.memory = some v := by
  have hlocated : Located (e.lower first).1 (e.lower first).1 s.pc := by
    rw [hs]
    exact List.prefix_rfl
  have hdelivers : ∀ {u : Int32}, e.value? .words s.store.memory = some u →
      s.Delivers (e.lower first).1 ((e.lower first).2 - 1) u := by
    intro u hu
    obtain ⟨t, hst, hcomputed, htemp⟩ := e.leaves_lower _ hlocated hu
    have hend : (e.lower first).1[t.pc]? = none := by
      rw [hcomputed.pc, hs, Nat.zero_add]
      exact List.getElem?_eq_none (Nat.le_refl _)
    have hstep : t.step (e.lower first).1 = .ends (.finished t.store) := by
      simp only [FlowState.step, hend]
    rw [hcomputed.store] at hstep
    exact ⟨_, t, hst, hstep, htemp⟩
  constructor
  · intro h
    cases hvalue : e.value? .words s.store.memory with
    | none => cases h.ends.unique (Expr.ends_lower hlocated hvalue)
    | some u => rw [(hdelivers hvalue).unique h]
  · exact hdelivers

/-- For every sum that the grammar derives: there is one expression for that sum, and under all
words for the variables its code delivers the value that reading the sum from left to right gives,
if no moved sign is lost in a quotient. It does so exactly where the sum has that value with its
signs moved, too. -/
theorem compiled_sum_keeps_value {t : Tree} {w : List Token} {n : Nat}
    (h : Derives .fortress [.nonterminal .sum] [t] w n) (hw : ∀ x ∈ w, Source.Numeral x) :
    ∃ e, Expr.ofTree t = .ok e ∧ (∃ s : Source.Sum, s.Spelled t) ∧
      ∀ s : Source.Sum, s.Spelled t → ∀ (first : Nat) (m : FlowState), m.pc = 0 →
        ∀ v, s.value? .words m.store.memory = some v →
          (s.Faithful .words m.store.memory false →
            m.Delivers (e.lower first).1 ((e.lower first).2 - 1) v) ∧
          (m.Delivers (e.lower first).1 ((e.lower first).2 - 1) v ↔
            s.moved? .words m.store.memory false = some v) := by
  obtain ⟨s, hspelled⟩ := Source.exists_spelled h hw
  have he := s.ofTree_spelled hspelled
  refine ⟨_, he, ⟨s, hspelled⟩, fun s' hs' first m hm v hv => ?_⟩
  have hmoved := (s.chain {}).toExpr.delivers_iff first hm v
  rw [Source.Sum.value?_ofTree hs' he] at hmoved
  refine ⟨fun hfaithful => hmoved.mpr ?_, hmoved⟩
  rw [Source.Sum.moved?_of_faithful hfaithful, hv]

def writtenDifference : Source.Sum :=
  .of (.of (.number 7) .stop) (.step true (.of (.named "y") (.step true (.number 2) .stop)) .stop)

theorem writtenDifference_spelled : writtenDifference.Spelled differenceSum :=
  ⟨_, _, rfl, ⟨_, _, rfl, ⟨_, rfl, rfl, rfl⟩, rfl⟩, _, _, _, rfl, rfl,
    ⟨_, _, rfl, ⟨_, rfl, rfl, rfl⟩, _, _, _, rfl, rfl, ⟨_, rfl, rfl, rfl⟩, rfl⟩, rfl⟩

/-- The state in front of all code, with one word for every variable. -/
def FlowState.filled (v : Int32) : FlowState where
  pc := 0
  temps _ := none
  conditions _ := none
  store := ⟨fun _ => v, [], []⟩

theorem writtenDifference_faithful {v : Int32} (hv : v ≠ Int32.minValue) :
    writtenDifference.Faithful .words (fun _ => v) false := by
  have hhalf : ∀ left, some v = some left → ∀ right, some 2 = some right →
      words.Carries left right := by
    rintro left ⟨⟩ right ⟨⟩
    exact (words_carries_iff v 2).mpr (.inl hv)
  refine ⟨⟨trivial, fun _ _ => trivial⟩, ⟨trivial, fun left hleft => ?_⟩, trivial⟩
  refine ⟨trivial, fun right hright => ⟨fun _ _ => ?_, fun _ _ => trivial⟩⟩
  exact hhalf left hleft right hright

/-- The half of a word above the smallest is taken from seven as it should be. -/
theorem compiled_difference_keeps_value :
    ∃ w n e, Derives .fortress [.nonterminal .sum] [differenceSum] w n ∧
      (∀ x ∈ w, Source.Numeral x) ∧ Expr.ofTree differenceSum = .ok e ∧
      (FlowState.filled 9).Delivers (e.lower 0).1 ((e.lower 0).2 - 1) 3 := by
  obtain ⟨w, n, hd, hw⟩ :=
    derives_of_parsed Grammar.build_fortress parse_differenceText differenceSum_within rfl
  obtain ⟨e, he, -, hdelivers⟩ := compiled_sum_keeps_value hd hw
  have hvalue : writtenDifference.value? .words (fun _ => 9) = some 3 := by decide +kernel
  have hfaithful := writtenDifference_faithful (v := 9) (by decide)
  exact ⟨w, n, e, hd, hw, he,
    (hdelivers _ writtenDifference_spelled 0 (.filled 9) rfl 3 hvalue).1 hfaithful⟩

/-- The half of the smallest word is added to seven, and not taken from it. -/
theorem compiled_difference_loses_sign :
    ∃ e, Expr.ofTree differenceSum = .ok e ∧
      writtenDifference.value? .words (fun _ => Int32.minValue) = some 1073741831 ∧
      (FlowState.filled Int32.minValue).Delivers (e.lower 0).1 ((e.lower 0).2 - 1) (-1073741817) ∧
      ¬(FlowState.filled Int32.minValue).Delivers (e.lower 0).1 ((e.lower 0).2 - 1) 1073741831 := by
  have he := Source.Sum.ofTree_spelled _ writtenDifference_spelled
  have hmoved : writtenDifference.moved? .words (fun _ => Int32.minValue) false =
      some (-1073741817) := by
    decide +kernel
  rw [← Source.Sum.value?_ofTree writtenDifference_spelled he] at hmoved
  have hdelivers := (Expr.delivers_iff _ 0 (s := .filled Int32.minValue) rfl _).mpr hmoved
  refine ⟨_, he, by decide +kernel, hdelivers, fun h => ?_⟩
  exact absurd (hdelivers.unique h) (by decide)

end FortressLang
