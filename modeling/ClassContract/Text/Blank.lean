/-!
# Blank characters

The blank characters are those with the Unicode property White_Space. Settings are compared after
blanks at both ends are removed and letters are made small.
-/

namespace ClassContract

/-- The code points with the property White_Space, as inclusive ranges in rising order. -/
def blankRanges : List (Nat × Nat) :=
  [(0x0009, 0x000D), (0x0020, 0x0020), (0x0085, 0x0085), (0x00A0, 0x00A0), (0x1680, 0x1680),
    (0x2000, 0x200A), (0x2028, 0x2029), (0x202F, 0x202F), (0x205F, 0x205F), (0x3000, 0x3000)]

/-- Whether a character is white space. -/
def isBlank (c : Char) : Bool := blankRanges.any fun (a, b) => a ≤ c.toNat && c.toNat ≤ b

/-- Whether a text has nothing but blanks. -/
def isBlankText (s : String) : Bool := s.toList.all isBlank

/-- The characters without the blanks at both ends. -/
def trimBlanks (cs : List Char) : List Char :=
  ((cs.dropWhile isBlank).reverse.dropWhile isBlank).reverse

/-- The form in which settings are compared: no blanks at the ends, and small letters. Making only
the letters `A` to `Z` small is enough for words without `i` and `k`, the two letters that are also
small forms of characters outside that range. -/
def settingWord (s : String) : String := String.ofList ((trimBlanks s.toList).map Char.toLower)

end ClassContract
