/-!
# Double-precision numbers

A finite double is a sign and a whole number of units of `2 ^ -1074`, the distance between zero and
its nearest neighbour. Only numbers of at most 53 significant binary digits below `2 ^ 1024` occur,
which is the invariant of `FiniteDouble`. All arithmetic is exact arithmetic on natural numbers
followed by one rounding to the nearest such number. A `Double` is a finite double or one of the two
infinities. The results that are not a number are left out: no text denotes one, and as they differ
from themselves, nothing that is said of equal numbers would hold of them.

Main definitions: `nearestUnits` rounds a quotient of natural numbers, `FiniteDouble.ofUnits?` makes
a double of a number of units unless it is too large, `Double.sameValue` is numeric equality.
Main statement: `representable_nearestUnits`, rounding fails only where the number is too large.
-/

namespace ClassContract

/-- A power of two. -/
def twoPow (k : Nat) : Nat := Nat.pow 2 k

/-- A power of ten. -/
def tenPow (k : Nat) : Nat := Nat.pow 10 k

/-- The number of binary digits of a natural number; zero has none. -/
def bitLength (n : Nat) : Nat := if n = 0 then 0 else n.log2 + 1

/-- The quotient rounded to the nearest natural number, a half going to the even neighbour. -/
def roundDiv (num den : Nat) : Nat :=
  let q := num / den
  let r := num % den
  if 2 * r < den then q
  else if den < 2 * r then q + 1
  else if q % 2 = 0 then q else q + 1

/-- The binary digits of a unit after the point: a unit is `2 ^ -fractionBits`. -/
def fractionBits : Nat := 1074

/-- The number of units of `2 ^ 1024`, which is beyond the range. -/
def unitLimit : Nat := twoPow 2098

/-- The number of low binary digits that a double of this many units cannot keep. -/
def lostBits (units : Nat) : Nat := bitLength units - 53

/-- Numbers of units that a finite double can hold: below `2 ^ 1024`, and at most 53 binary digits
before the trailing zeros. -/
def Representable (units : Nat) : Prop :=
  units < unitLimit ∧ units % twoPow (lostBits units) = 0

instance (units : Nat) : Decidable (Representable units) :=
  inferInstanceAs (Decidable (_ ∧ _))

/-- The quotient `num / den` as a number of units, rounded to 53 binary digits; a half goes to the
neighbour whose last kept digit is even. -/
def nearestUnits (num den : Nat) : Nat :=
  let scaled := num * twoPow fractionBits
  let step := twoPow (lostBits (scaled / den))
  roundDiv scaled (den * step) * step

/-- A finite double-precision number. -/
structure FiniteDouble where
  /-- The sign; zero has both. -/
  negative : Bool
  /-- The absolute value as a multiple of `2 ^ -1074`. -/
  units : Nat
  /-- The absolute value is one that a double can hold. -/
  representable : Representable units

namespace FiniteDouble

/-- The double of the given sign and number of units, if that number is within range. -/
def ofUnits? (negative : Bool) (units : Nat) : Option FiniteDouble :=
  if h : Representable units then some ⟨negative, units, h⟩ else none

/-- Numeric equality, under which the two zeros are equal. -/
def sameValue (a b : FiniteDouble) : Bool :=
  a.units == b.units && (a.negative == b.negative || a.units == 0)

end FiniteDouble

/-- A double-precision number: a finite one or an infinity. -/
inductive Double
  | finite (x : FiniteDouble)
  | infinite (negative : Bool)

/-- Numeric equality, under which the two zeros are equal and the two infinities are not. -/
def Double.sameValue : Double → Double → Bool
  | .finite x, .finite y => x.sameValue y
  | .infinite a, .infinite b => a == b
  | _, _ => false

/-- The rounded product of two absolute values. -/
def productUnits (a b : Nat) : Nat := nearestUnits (a * b) (twoPow (2 * fractionBits))

/-- The rounded quotient of two absolute values. -/
def quotientUnits (a b : Nat) : Nat := nearestUnits a b

/-- The double nearest to a power of ten. -/
def powerOfTenUnits (k : Nat) : Nat := nearestUnits (tenPow k) 1

theorem twoPow_add (a b : Nat) : twoPow (a + b) = twoPow a * twoPow b := Nat.pow_add 2 a b

theorem twoPow_pos (k : Nat) : 0 < twoPow k := Nat.two_pow_pos k

theorem twoPow_le {a b : Nat} (h : a ≤ b) : twoPow a ≤ twoPow b :=
  Nat.pow_le_pow_right (by omega) h

theorem twoPow_dvd {a b : Nat} (h : a ≤ b) : twoPow a ∣ twoPow b := Nat.pow_dvd_pow 2 h

/-- A number has room in its binary digits. -/
theorem lt_twoPow_bitLength (n : Nat) : n < twoPow (bitLength n) := by
  unfold bitLength
  split
  · next hn => rw [hn]; exact twoPow_pos 0
  · exact Nat.lt_log2_self

/-- A number below a power of two has no more binary digits than the exponent. -/
theorem bitLength_le_of_lt {n k : Nat} (h : n < twoPow k) : bitLength n ≤ k := by
  unfold bitLength
  split
  · omega
  · next hn => exact (Nat.log2_lt hn).mpr h

/-- Rounding goes up by less than one. -/
theorem roundDiv_le (num den : Nat) : roundDiv num den ≤ num / den + 1 := by
  unfold roundDiv
  dsimp only
  split
  · omega
  · split
    · omega
    · split <;> omega

/-- A multiple of a power of two with at most 53 further binary digits loses nothing. -/
theorem mod_lostBits_eq_zero {s e : Nat} (h : s ≤ twoPow 53) :
    s * twoPow e % twoPow (lostBits (s * twoPow e)) = 0 := by
  apply Nat.mod_eq_zero_of_dvd
  rcases Nat.lt_or_eq_of_le h with hs | hs
  · have hlt : s * twoPow e < twoPow (53 + e) := by
      rw [twoPow_add]
      exact Nat.mul_lt_mul_of_pos_right hs (twoPow_pos e)
    have hb := bitLength_le_of_lt hlt
    have he : lostBits (s * twoPow e) ≤ e := by unfold lostBits; omega
    exact Nat.dvd_trans (twoPow_dvd he) (Nat.dvd_mul_left _ _)
  · rw [hs, ← twoPow_add]
    have hlt : twoPow (53 + e) < twoPow (54 + e) := Nat.pow_lt_pow_right (by omega) (by omega)
    have hb := bitLength_le_of_lt hlt
    have he : lostBits (twoPow (53 + e)) ≤ 53 + e := by unfold lostBits; omega
    exact twoPow_dvd he

/-- Rounding gives a number that a double can hold, unless it is too large. -/
theorem representable_nearestUnits {num den : Nat} (h : nearestUnits num den < unitLimit) :
    Representable (nearestUnits num den) := by
  refine ⟨h, ?_⟩
  unfold nearestUnits
  dsimp only
  apply mod_lostBits_eq_zero
  generalize num * twoPow fractionBits = scaled
  have hq := lt_twoPow_bitLength (scaled / den)
  have hle : bitLength (scaled / den) ≤ 53 + lostBits (scaled / den) := by unfold lostBits; omega
  have hlt : scaled / den < twoPow 53 * twoPow (lostBits (scaled / den)) := by
    rw [← twoPow_add]
    exact Nat.lt_of_lt_of_le hq (twoPow_le hle)
  have hr := roundDiv_le scaled (den * twoPow (lostBits (scaled / den)))
  rw [← Nat.div_div_eq_div_mul] at hr
  have hs := (Nat.div_lt_iff_lt_mul (twoPow_pos _)).mpr hlt
  omega

/-- A rounded quotient within range makes a finite double. -/
theorem FiniteDouble.ofUnits?_nearestUnits (negative : Bool) {num den : Nat}
    (h : nearestUnits num den < unitLimit) :
    FiniteDouble.ofUnits? negative (nearestUnits num den) =
      some ⟨negative, nearestUnits num den, representable_nearestUnits h⟩ :=
  dif_pos (representable_nearestUnits h)

end ClassContract
