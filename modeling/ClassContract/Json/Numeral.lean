import ClassContract.Double.Shortest

/-!
# Numbers in JSON texts

A numeral is a number as JSON writes it: a sign, whole digits, fraction digits and a power of ten.
`Numeral.ofChars?` accepts exactly the number grammar of JSON, `Numeral.chars` writes one back.

`Numeral.toFinite?` gives the double that a numeral denotes for the reader. The significant digits
are collected in a 64-bit word, digits that no longer fit are dropped, and the word is then scaled
by one power of ten, so that long numerals may differ from the nearest double in their last place.
`FiniteDouble.numeral` writes a double with its shortest digits.
-/

namespace ClassContract

/-- A number as written in JSON. -/
structure Numeral where
  /-- Whether a minus sign stands in front. -/
  negative : Bool
  /-- The digits before the point, at least one. -/
  whole : List Char
  /-- The digits after the point; none when there is no point. -/
  fraction : List Char
  /-- The power of ten after the exponent mark, if there is a mark. -/
  exponent : Option Int
  deriving DecidableEq

namespace Numeral

/-- The value of a decimal digit. -/
def digitValue (c : Char) : Nat := c.toNat - '0'.toNat

/-- The value of a run of decimal digits. -/
def digitsValue (cs : List Char) : Nat := cs.foldl (fun n c => 10 * n + digitValue c) 0

/-- The number written by a sign and digits after an exponent mark. -/
def exponentOfChars? (cs : List Char) : Option Int :=
  let read := fun (ds : List Char) =>
    if ds.isEmpty || !ds.all Char.isDigit then none else some (digitsValue ds : Int)
  match cs with
  | '-' :: ds => (read ds).map (-·)
  | '+' :: ds => read ds
  | ds => read ds

/-- What may follow the digits of a numeral: nothing, or an exponent mark and its number. -/
def tailOfChars? (n : Numeral) : List Char → Option Numeral
  | [] => some n
  | c :: cs =>
    if c = 'e' ∨ c = 'E' then (exponentOfChars? cs).map fun e => { n with exponent := some e }
    else none

/-- The unsigned part of a numeral. A leading zero stands alone, and a point has digits on both
sides. -/
def unsignedOfChars? (negative : Bool) (cs : List Char) : Option Numeral :=
  let whole := cs.takeWhile Char.isDigit
  if whole.isEmpty || (whole.head? == some '0' && 1 < whole.length) then none
  else
    match cs.dropWhile Char.isDigit with
    | '.' :: rest =>
      let fraction := rest.takeWhile Char.isDigit
      if fraction.isEmpty then none
      else tailOfChars? ⟨negative, whole, fraction, none⟩ (rest.dropWhile Char.isDigit)
    | rest => tailOfChars? ⟨negative, whole, [], none⟩ rest

/-- The numeral that is exactly these characters. -/
def ofChars? : List Char → Option Numeral
  | '-' :: cs => unsignedOfChars? true cs
  | cs => unsignedOfChars? false cs

/-- An exponent is written with its sign and without padding. -/
def exponentChars (e : Int) : List Char :=
  'e' :: (if e < 0 then '-' else '+') :: Nat.toDigits 10 e.natAbs

/-- The characters of a numeral. -/
def chars (n : Numeral) : List Char :=
  (if n.negative then ['-'] else []) ++ n.whole
    ++ (if n.fraction.isEmpty then [] else '.' :: n.fraction)
    ++ (n.exponent.map exponentChars).getD []

/-- A count as a numeral. -/
def ofNat (n : Nat) : Numeral := ⟨false, Nat.toDigits 10 n, [], none⟩

/-- The numbers of 64 bits lie below this one. -/
def wordLimit : Nat := twoPow 64

/-- The count that a numeral writes: no sign, no point, no exponent mark, and within 64 bits. -/
def toNat? (n : Numeral) : Option Nat :=
  if n.negative || !n.fraction.isEmpty || n.exponent.isSome then none
  else
    let v := digitsValue n.whole
    if v < wordLimit then some v else none

/-- Append digits to a number as long as it stays within 64 bits; also the number of digits that
are left. -/
def collect (acc : Nat) : List Char → Nat × Nat
  | [] => (acc, 0)
  | d :: ds =>
    let next := 10 * acc + digitValue d
    if next < wordLimit then collect next ds else (acc, ds.length + 1)

/-- The largest power of ten below the range of doubles. -/
def maxPower : Nat := 308

/-- Division by `10 ^ k`, in steps of at most `10 ^ maxPower`. Three full steps take every 64-bit
number to zero, so four steps are enough. -/
def scaleDown : Nat → Nat → Nat → Nat
  | 0, _, _ => 0
  | steps + 1, units, k =>
    if k ≤ maxPower then quotientUnits units (powerOfTenUnits k)
    else scaleDown steps (quotientUnits units (powerOfTenUnits maxPower)) (k - maxPower)

/-- Multiplication by a power of ten; nothing when the power alone is out of range. -/
def scaleUp? (units k : Nat) : Option Nat :=
  if k ≤ maxPower then some (productUnits units (powerOfTenUnits k))
  else if units = 0 then some 0
  else none

/-- The double that a numeral is read as, unless it is too large. -/
def toFinite? (n : Numeral) : Option FiniteDouble :=
  let (head, dropped) := collect 0 n.whole
  let (word, ignored) := collect head n.fraction
  let power : Int := dropped - (n.fraction.length - ignored : Nat) + n.exponent.getD 0
  let units := nearestUnits word 1
  let scaled := if power < 0 then some (scaleDown 4 units power.natAbs)
    else scaleUp? units power.natAbs
  scaled.bind (FiniteDouble.ofUnits? n.negative)

end Numeral

/-- Digits laid out around the decimal point, the first of them at the power `leading` of ten:
the digits before the point and those after it. -/
def positional (digits : List Char) (leading : Int) : List Char × List Char :=
  if leading < 0 then (['0'], List.replicate (leading.natAbs - 1) '0' ++ digits)
  else
    let size := leading.natAbs + 1
    (digits.take size ++ List.replicate (size - digits.length) '0', digits.drop size)

namespace FiniteDouble

/-- The numeral of a double: shortest digits, of two equally near ones the even one. Powers of ten
from `-5` to `15` are written positionally and always with a fraction, all others with one digit
before the point and an exponent. -/
def numeral (x : FiniteDouble) : Numeral :=
  if x.units = 0 then ⟨x.negative, ['0'], ['0'], none⟩
  else
    let d := shortestDecimal .toEven x.units
    if -5 ≤ d.leading ∧ d.leading < 16 then
      let (whole, fraction) := positional d.digits d.leading
      ⟨x.negative, whole, if fraction.isEmpty then ['0'] else fraction, none⟩
    else ⟨x.negative, d.digits.take 1, d.digits.drop 1, some d.leading⟩

/-- The plain text of a double: shortest digits, of two equally near ones the larger one, never an
exponent, and a point only before fraction digits. -/
def text (x : FiniteDouble) : String :=
  let d := shortestDecimal .upward x.units
  let (whole, fraction) := if x.units = 0 then (['0'], []) else positional d.digits d.leading
  String.ofList (Numeral.chars ⟨x.negative, whole, fraction, none⟩)

end FiniteDouble

/-- The plain text of a double. The infinities are written as words. -/
def Double.text : Double → String
  | .finite x => x.text
  | .infinite false => "inf"
  | .infinite true => "-inf"

end ClassContract
