/-! Reading decimal numerals of signed 32-bit integers. -/
namespace FortressLang
namespace Decimal

/-- The integers that a constant may hold. -/
def fits (n : Int) : Bool :=
  decide (Int32.minValue.toInt ≤ n ∧ n ≤ Int32.maxValue.toInt)

/-- The value of a nonempty run of the digits `0` to `9`. -/
def natural? (cs : List Char) : Option Nat :=
  if cs ≠ [] ∧ cs.all Char.isDigit then some (Nat.ofDigitChars 10 cs 0) else none

/-- A numeral with or without a sign. -/
def integer? : List Char → Option Int
  | '-' :: cs => (natural? cs).map fun n => -(n : Int)
  | '+' :: cs => (natural? cs).map Int.ofNat
  | cs => (natural? cs).map Int.ofNat

/-- Digits have no sign in front of them. -/
theorem integer?_of_natural? {cs : List Char} {n : Nat} (h : natural? cs = some n) :
    integer? cs = some (n : Int) := by
  unfold integer?
  split
  · simp [natural?] at h
  · simp [natural?] at h
  · rw [h]
    rfl

/-- A numeral whose value fits. -/
def int32? (cs : List Char) : Option Int32 :=
  (integer? cs).bind fun n => if fits n then some (Int32.ofInt n) else none

theorem toInt_of_int32? {cs : List Char} {n : Int32} (h : int32? cs = some n) :
    integer? cs = some n.toInt := by
  simp only [int32?, Option.bind_eq_some_iff] at h
  obtain ⟨m, hm, h⟩ := h
  split at h
  · rename_i hfit
    simp only [fits, decide_eq_true_eq] at hfit
    cases h
    rw [hm, Int32.toInt_ofInt_of_le hfit.1 (Int.lt_of_le_of_lt hfit.2 (by decide))]
  · cases h

end Decimal
end FortressLang
