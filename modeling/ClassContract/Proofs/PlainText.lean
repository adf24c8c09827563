import ClassContract.Proofs.Numerals

/-!
# The plain text of a double

The plain text of a double is a well-formed numeral without an exponent, of digits, a point and a
sign only. The value of its digits is that of the shortest decimal, which rounds to the double and to
no other one, so that different finite doubles have different texts. The infinities are written as
words, which no finite double is: `Double.text_injective`.
-/

namespace ClassContract

namespace Numeral

/-- A zero behind multiplies by ten. -/
theorem digitsValue_append_zeros (cs : List Char) (n : Nat) :
    digitsValue (cs ++ List.replicate n '0') = digitsValue cs * tenPow n := by
  have happend := Nat.ofDigitChars_append (b := 10) (l := cs) (m := List.replicate n '0') 0
  rw [Nat.ofDigitChars_replicate_zero, Nat.mul_comm] at happend
  exact happend

/-- Zeros in front do not count. -/
theorem digitsValue_zeros_append (n : Nat) (cs : List Char) :
    digitsValue (List.replicate n '0' ++ cs) = digitsValue cs := by
  have happend := Nat.ofDigitChars_append (b := 10) (l := List.replicate n '0') (m := cs) 0
  rw [Nat.ofDigitChars_replicate_zero, Nat.mul_zero] at happend
  exact happend

/-- The value of a numeral without an exponent, multiplied by `10 ^ decimalScale`. -/
def scaled (n : Numeral) : Nat :=
  digitsValue (n.whole ++ n.fraction) * tenPow (decimalScale - n.fraction.length)

end Numeral

open Numeral

/-- Laying out digits around the point keeps the value of a decimal. -/
theorem scaled_positional {d : Decimal} (h : 0 ≤ d.exponent + decimalScale) (negative : Bool) :
    scaled ⟨negative, (positional d.digits d.leading).1, (positional d.digits d.leading).2, none⟩ =
      d.scaled := by
  have hvalue : digitsValue d.digits = d.coefficient := digitsValue_toDigits _
  have hleading : d.leading = d.exponent + d.digits.length - 1 := rfl
  rw [scaled, Decimal.scaled]
  unfold positional
  split
  · next hneg =>
    have hlen : (List.replicate (d.leading.natAbs - 1) '0' ++ d.digits).length =
        (-d.exponent).toNat := by
      rw [List.length_append, List.length_replicate]
      omega
    have hzeros : ['0'] ++ (List.replicate (d.leading.natAbs - 1) '0' ++ d.digits) =
        List.replicate (d.leading.natAbs - 1 + 1) '0' ++ d.digits := by
      rw [List.replicate_succ]
      rfl
    dsimp only
    rw [hlen, hzeros, digitsValue_zeros_append, hvalue]
    congr 2
    omega
  · next hpos =>
    dsimp only
    by_cases hexp : 0 ≤ d.exponent
    · have htake : d.digits.take (d.leading.natAbs + 1) = d.digits :=
        List.take_of_length_le (by omega)
      have hdrop : d.digits.drop (d.leading.natAbs + 1) = [] := List.drop_of_length_le (by omega)
      rw [htake, hdrop, List.append_nil, digitsValue_append_zeros, hvalue, Nat.mul_assoc,
        ← tenPow_add]
      congr 2
      rw [List.length_nil]
      omega
    · have hzeros : d.leading.natAbs + 1 - d.digits.length = 0 := by omega
      rw [hzeros, List.replicate_zero, List.append_nil, List.take_append_drop, hvalue,
        List.length_drop]
      congr 2
      omega

/-- A decimal that a double is written as is not zero. -/
theorem Decimal.Denotes.scaled_ne_zero {d : Decimal} {units : Nat} (h : d.Denotes units) :
    d.scaled ≠ 0 :=
  Nat.mul_ne_zero h.coefficient_ne_zero (Nat.ne_of_gt (tenPow_pos _))

/-- A character of the plain text of a number. -/
def isNumberChar (c : Char) : Bool := c.isDigit || c == '.' || c == '-'

/-- A numeral without an exponent is made of digits, a point and a sign. -/
theorem isNumberChar_of_mem_chars {n : Numeral} (h : n.WellFormed) (hplain : n.exponent = none)
    {c : Char} (hc : c ∈ n.chars) : isNumberChar c = true := by
  have hdigit : c.isDigit = true → isNumberChar c = true := fun hd => by
    rw [isNumberChar, hd]
    rfl
  rw [chars, hplain, Option.map_none, Option.getD_none, List.append_nil, List.mem_append,
    List.mem_append] at hc
  rcases hc with (hsign | hwhole) | hfraction
  · split at hsign
    · rw [List.mem_singleton.mp hsign]
      rfl
    · cases hsign
  · exact hdigit (h.whole c hwhole)
  · split at hfraction
    · cases hfraction
    · rcases List.mem_cons.mp hfraction with rfl | hfraction
      · rfl
      · exact hdigit (h.fraction c hfraction)

/-- A numeral has a character. -/
theorem chars_ne_nil {n : Numeral} (h : n.WellFormed) : n.chars ≠ [] := by
  intro hnil
  rw [chars, List.append_eq_nil_iff, List.append_eq_nil_iff, List.append_eq_nil_iff] at hnil
  exact h.whole_ne_nil hnil.1.1.2

namespace FiniteDouble

/-- The numeral of the plain text of a double. -/
def plain (x : FiniteDouble) : Numeral :=
  let d := shortestDecimal .upward x.units
  let (whole, fraction) := if x.units = 0 then (['0'], []) else positional d.digits d.leading
  ⟨x.negative, whole, fraction, none⟩

/-- The text of a finite double is that of its plain numeral. -/
theorem toList_text (x : FiniteDouble) : x.text.toList = x.plain.chars := by
  rw [text, plain, String.toList_ofList]

/-- Zero is written as one digit. -/
theorem plain_of_zero {x : FiniteDouble} (h : x.units = 0) :
    x.plain = ⟨x.negative, ['0'], [], none⟩ := by
  rw [plain, if_pos h]

/-- Any other finite double is written with the digits of its shortest decimal around the point. -/
theorem plain_of_ne_zero {x : FiniteDouble} (h : x.units ≠ 0) :
    x.plain = ⟨x.negative,
      (positional (shortestDecimal .upward x.units).digits
        (shortestDecimal .upward x.units).leading).1,
      (positional (shortestDecimal .upward x.units).digits
        (shortestDecimal .upward x.units).leading).2, none⟩ := by
  rw [plain, if_neg h]

theorem exponent_plain (x : FiniteDouble) : x.plain.exponent = none := rfl

/-- The plain numeral is well formed. -/
theorem wellFormed_plain (x : FiniteDouble) : x.plain.WellFormed := by
  by_cases h : x.units = 0
  · rw [plain_of_zero h]
    exact ⟨List.cons_ne_nil _ _, allDigits_replicate_zero 1, fun _ => rfl, fun _ hc => by cases hc⟩
  · rw [plain_of_ne_zero h]
    exact wellFormed_positional (denotes_shortestDecimal h .upward).coefficient_ne_zero x.negative

theorem scaled_plain_of_zero {x : FiniteDouble} (h : x.units = 0) : x.plain.scaled = 0 := by
  rw [plain_of_zero h, Numeral.scaled]
  exact Nat.zero_mul _

/-- Any plain numeral but zero has the value of the shortest decimal. -/
theorem scaled_plain_of_ne_zero {x : FiniteDouble} (h : x.units ≠ 0) :
    x.plain.scaled = (shortestDecimal .upward x.units).scaled := by
  rw [plain_of_ne_zero h]
  exact scaled_positional (denotes_shortestDecimal h .upward).whole x.negative

/-- The plain numeral is zero for zero only. -/
theorem scaled_plain_eq_zero_iff {x : FiniteDouble} : x.plain.scaled = 0 ↔ x.units = 0 := by
  refine ⟨fun hzero => Decidable.byContradiction fun hne => ?_, scaled_plain_of_zero⟩
  rw [scaled_plain_of_ne_zero hne] at hzero
  exact (denotes_shortestDecimal hne .upward).scaled_ne_zero hzero

/-- The value of the plain numeral determines the absolute value of the double. -/
theorem units_eq_of_scaled_plain {x y : FiniteDouble} (h : x.plain.scaled = y.plain.scaled) :
    x.units = y.units := by
  by_cases hx : x.units = 0
  · have hy : y.units = 0 := scaled_plain_eq_zero_iff.mp (h ▸ scaled_plain_of_zero hx)
    rw [hx, hy]
  · have hy : y.units ≠ 0 := fun hy =>
      hx (scaled_plain_eq_zero_iff.mp (h.trans (scaled_plain_of_zero hy)))
    rw [scaled_plain_of_ne_zero hx, scaled_plain_of_ne_zero hy] at h
    exact (denotes_shortestDecimal hx .upward).units_eq (denotes_shortestDecimal hy .upward) h
      x.representable y.representable

/-- Different doubles have different plain texts; the two zeros differ in their sign. -/
theorem text_injective {x y : FiniteDouble} (h : x.text = y.text) : x = y := by
  have hchars : x.plain.chars = y.plain.chars := by
    rw [← toList_text, ← toList_text, h]
  have hread := ofChars?_chars x.wellFormed_plain
  rw [hchars, ofChars?_chars y.wellFormed_plain] at hread
  have hplain : x.plain = y.plain := (Option.some.inj hread).symm
  have hnegative : x.negative = y.negative := congrArg Numeral.negative hplain
  have hunits : x.units = y.units := units_eq_of_scaled_plain (congrArg Numeral.scaled hplain)
  obtain ⟨_, _, _⟩ := x
  obtain ⟨_, _, _⟩ := y
  cases hnegative
  cases hunits
  rfl

/-- The text of a finite double is made of digits, a point and a sign. -/
theorem isNumberChar_of_mem_text (x : FiniteDouble) {c : Char} (hc : c ∈ x.text.toList) :
    isNumberChar c = true :=
  isNumberChar_of_mem_chars x.wellFormed_plain x.exponent_plain (x.toList_text ▸ hc)

/-- No finite double has an empty text. -/
theorem toList_text_ne_nil (x : FiniteDouble) : x.text.toList ≠ [] :=
  x.toList_text ▸ chars_ne_nil x.wellFormed_plain

/-- The text of a finite double is not that of an infinity. -/
theorem text_ne_infinite (x : FiniteDouble) (negative : Bool) :
    x.text ≠ (Double.infinite negative).text := by
  intro h
  have hletter : 'i' ∈ x.text.toList := by
    rw [h]
    cases negative <;> decide
  exact absurd (x.isNumberChar_of_mem_text hletter) (by decide)

end FiniteDouble

/-- Different doubles have different texts. -/
theorem Double.text_injective {x y : Double} (h : x.text = y.text) : x = y := by
  cases x with
  | finite x =>
    cases y with
    | finite y => rw [FiniteDouble.text_injective h]
    | infinite b => exact absurd h (x.text_ne_infinite b)
  | infinite a =>
    cases y with
    | finite y => exact absurd h.symm (y.text_ne_infinite a)
    | infinite b =>
      have hsign : a = b := by
        revert h
        cases a <;> cases b <;> decide
      rw [hsign]

end ClassContract
