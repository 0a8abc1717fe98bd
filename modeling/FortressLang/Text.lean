/-! White space, trimming, and splitting of text into fields. -/
namespace FortressLang
namespace Text

/-- The code points of Unicode's `White_Space` property, as closed ranges. -/
def blankRanges : List (Nat × Nat) :=
  [(0x09, 0x0d), (0x20, 0x20), (0x85, 0x85), (0xa0, 0xa0), (0x1680, 0x1680), (0x2000, 0x200a),
    (0x2028, 0x2029), (0x202f, 0x202f), (0x205f, 0x205f), (0x3000, 0x3000)]

def isBlank (c : Char) : Bool :=
  blankRanges.any fun r => decide (r.1 ≤ c.toNat ∧ c.toNat ≤ r.2)

/-- A text without a character that shows. -/
def allBlank (s : String) : Bool := s.toList.all isBlank

/-- A text without the white space at its two ends. -/
def trimChars (cs : List Char) : List Char :=
  ((cs.dropWhile isBlank).reverse.dropWhile isBlank).reverse

def trim (s : String) : String := String.ofList (trimChars s.toList)

/-- The stretches between the separators, each trimmed. -/
def fields (separator : Char) (cs : List Char) : List (List Char) :=
  (cs.splitOn separator).map trimChars

theorem fields_ne_nil (separator : Char) (cs : List Char) : fields separator cs ≠ [] := by
  simp [fields]

end Text
end FortressLang
