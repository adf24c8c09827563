import ClassContract.Json.Numeral
import ClassContract.Proofs.Shortest

/-!
# Numerals are read as they are written

A numeral is well formed when its digits are digits and a leading zero stands alone. Such a numeral
is read from its own characters, `ofChars?_chars`, and the numeral of every double is well formed,
`wellFormed_numeral`. Neither says which double a numeral denotes: that is `Double.ReadsBack`, which
holds of a double when it is finite and its own numeral denotes it.
-/

namespace ClassContract

/-- The numeral written for a finite double is read as that double. -/
def FiniteDouble.ReadsBack (x : FiniteDouble) : Prop := x.numeral.toFinite? = some x

/-- Whether a finite double reads back can be decided from its sign and its units. -/
theorem FiniteDouble.readsBack_iff {x : FiniteDouble} :
    x.ReadsBack ↔
      x.numeral.toFinite?.map (fun y => (y.negative, y.units)) = some (x.negative, x.units) := by
  unfold ReadsBack
  cases x.numeral.toFinite? with
  | none => simp
  | some y =>
    obtain ⟨_, _, _⟩ := x
    obtain ⟨_, _, _⟩ := y
    simp

instance (x : FiniteDouble) : Decidable x.ReadsBack :=
  decidable_of_iff _ FiniteDouble.readsBack_iff.symm

/-- What is written for a double is read as that double. Nothing is written for an infinity that
could be read as a number. -/
def Double.ReadsBack : Double → Prop
  | .finite x => x.ReadsBack
  | .infinite _ => False

instance : (x : Double) → Decidable x.ReadsBack
  | .finite x => inferInstanceAs (Decidable x.ReadsBack)
  | .infinite _ => inferInstanceAs (Decidable False)

-- Not every double does: the reader scales the digits of this one and loses the last.
example : ¬ FiniteDouble.ReadsBack ⟨false, 9007199254740991 * twoPow 1074, by decide +kernel⟩ := by
  decide +kernel

/-- All characters of a list are decimal digits. -/
def AllDigits (cs : List Char) : Prop := ∀ c ∈ cs, c.isDigit = true

/-- Digits may follow digits. -/
theorem AllDigits.append {cs ds : List Char} (hc : AllDigits cs) (hd : AllDigits ds) :
    AllDigits (cs ++ ds) := fun c h => (List.mem_append.mp h).elim (hc c) (hd c)

theorem allDigits_replicate_zero (n : Nat) : AllDigits (List.replicate n '0') := by
  intro c hc
  rw [List.eq_of_mem_replicate hc]
  rfl

/-- The digits of a number are digits. -/
theorem allDigits_toDigits (n : Nat) : AllDigits (Nat.toDigits 10 n) :=
  fun _ hc => Nat.isDigit_of_mem_toDigits (by omega) (by omega) hc

/-- A positive number does not begin with a zero. -/
theorem head?_toDigits_ne_zero {n : Nat} (h : n ≠ 0) : (Nat.toDigits 10 n).head? ≠ some '0' := by
  induction n using Nat.strongRecOn with
  | _ n ih =>
    by_cases hn : n < 10
    · rw [Nat.toDigits_of_lt_base hn, List.head?_cons, ne_eq, Option.some.injEq]
      intro hzero
      have hvalue := Nat.toNat_digitChar_of_lt_ten hn
      rw [hzero] at hvalue
      have : ('0'.toNat : Nat) = 48 := rfl
      omega
    · have hle : 10 ≤ n := by omega
      have hrest := ih (n / 10) (by omega) (by omega)
      rw [Nat.toDigits_of_base_le (by omega) hle, List.head?_append]
      cases hdigits : Nat.toDigits 10 (n / 10) with
      | nil => exact absurd hdigits Nat.toDigits_ne_nil
      | cons c cs =>
        rw [hdigits] at hrest
        exact hrest

namespace Numeral

/-- The digits of a number have its value. -/
theorem digitsValue_toDigits (n : Nat) : digitsValue (Nat.toDigits 10 n) = n :=
  Nat.ofDigitChars_toDigits (by omega) (by omega)

/-- A numeral whose digits are digits and whose whole part has no needless zero. -/
structure WellFormed (n : Numeral) : Prop where
  /-- There is a digit before the point. -/
  whole_ne_nil : n.whole ≠ []
  /-- The characters before the point are digits. -/
  whole : AllDigits n.whole
  /-- A leading zero stands alone. -/
  leading : n.whole.head? = some '0' → n.whole.length = 1
  /-- The characters after the point are digits. -/
  fraction : AllDigits n.fraction

/-- A text that does not go on with a digit. -/
def NoDigit (cs : List Char) : Prop := ∀ c, cs.head? = some c → c.isDigit = false

/-- The digits in front are taken where none follow. -/
theorem takeWhile_digits {ds rest : List Char} (hd : AllDigits ds) (hr : NoDigit rest) :
    (ds ++ rest).takeWhile Char.isDigit = ds := by
  rw [List.takeWhile_append_of_pos hd]
  cases rest with
  | nil => simp
  | cons c rest => simp [hr c rfl]

/-- The digits in front are dropped where none follow. -/
theorem dropWhile_digits {ds rest : List Char} (hd : AllDigits ds) (hr : NoDigit rest) :
    (ds ++ rest).dropWhile Char.isDigit = rest := by
  rw [List.dropWhile_append_of_pos hd]
  cases rest with
  | nil => rfl
  | cons c rest => simp [hr c rfl]

/-- An exponent is read from the characters after its mark. -/
theorem exponentOfChars?_digits (e : Int) :
    exponentOfChars? ((if e < 0 then '-' else '+') :: Nat.toDigits 10 e.natAbs) = some e := by
  have hempty : (Nat.toDigits 10 e.natAbs).isEmpty = false :=
    List.isEmpty_eq_false_iff.mpr Nat.toDigits_ne_nil
  have hall : (Nat.toDigits 10 e.natAbs).all Char.isDigit = true :=
    List.all_eq_true.mpr (allDigits_toDigits _)
  split
  · next hneg =>
    have hvalue : -(e.natAbs : Int) = e := by omega
    simp only [exponentOfChars?, hempty, hall, digitsValue_toDigits]
    exact congrArg some hvalue
  · next hneg =>
    have hvalue : (e.natAbs : Int) = e := by omega
    simp only [exponentOfChars?, hempty, hall, digitsValue_toDigits]
    exact congrArg some hvalue

/-- What follows the digits of a numeral. -/
def tailChars (exponent : Option Int) : List Char := (exponent.map exponentChars).getD []

/-- An exponent does not begin with a digit. -/
theorem noDigit_tailChars (exponent : Option Int) : NoDigit (tailChars exponent) := by
  intro c hc
  cases exponent with
  | none => cases hc
  | some e =>
    cases hc
    rfl

/-- The exponent of a numeral is read from its characters. -/
theorem tailOfChars?_tailChars (negative : Bool) (whole fraction : List Char)
    (exponent : Option Int) :
    tailOfChars? ⟨negative, whole, fraction, none⟩ (tailChars exponent) =
      some ⟨negative, whole, fraction, exponent⟩ := by
  cases exponent with
  | none => rfl
  | some e =>
    simp only [tailChars, Option.map_some, Option.getD_some, exponentChars, tailOfChars?, true_or,
      if_true, exponentOfChars?_digits]

/-- The unsigned part of a well-formed numeral is read from its characters. -/
theorem unsignedOfChars?_chars {n : Numeral} (h : n.WellFormed) :
    unsignedOfChars? n.negative
      (n.whole ++ ((if n.fraction.isEmpty then [] else '.' :: n.fraction) ++ tailChars n.exponent)) =
      some n := by
  have hzero : (n.whole.isEmpty || (n.whole.head? == some '0' && 1 < n.whole.length)) = false := by
    have hne := List.isEmpty_eq_false_iff.mpr h.whole_ne_nil
    by_cases hhead : n.whole.head? = some '0'
    · have hlen := h.leading hhead
      simp [hne, hlen]
    · simp [hne, hhead]
  have htail := noDigit_tailChars n.exponent
  obtain ⟨negative, whole, fraction, exponent⟩ := n
  cases fraction with
  | nil =>
    dsimp only at hzero htail h ⊢
    rw [List.isEmpty_nil, if_pos rfl, List.nil_append, unsignedOfChars?,
      takeWhile_digits h.whole htail, dropWhile_digits h.whole htail]
    dsimp only
    rw [hzero, if_neg Bool.false_ne_true]
    have hpoint : ∀ rest, tailChars exponent ≠ '.' :: rest := by
      intro rest hrest
      cases exponent with
      | none => cases hrest
      | some e => exact absurd (List.cons.inj hrest).1 (by decide)
    split
    · next rest hrest => exact absurd hrest (hpoint rest)
    · exact tailOfChars?_tailChars ..
  | cons d ds =>
    have hpoint : NoDigit ('.' :: (d :: ds ++ tailChars exponent)) := by
      intro c hc
      cases hc
      rfl
    have hfraction : AllDigits (d :: ds) := h.fraction
    dsimp only at hzero htail ⊢
    rw [List.isEmpty_cons, if_neg Bool.false_ne_true, unsignedOfChars?, List.cons_append,
      takeWhile_digits h.whole hpoint, dropWhile_digits h.whole hpoint]
    dsimp only
    rw [hzero, if_neg Bool.false_ne_true]
    split
    · next rest hrest =>
      rw [← (List.cons.inj hrest).2, takeWhile_digits hfraction htail,
        dropWhile_digits hfraction htail, List.isEmpty_cons, if_neg Bool.false_ne_true]
      exact tailOfChars?_tailChars ..
    · next hother => exact absurd rfl (hother _)

/-- A well-formed numeral is read from its own characters. -/
theorem ofChars?_chars {n : Numeral} (h : n.WellFormed) : ofChars? n.chars = some n := by
  have hread := unsignedOfChars?_chars h
  have hchars : n.chars = (if n.negative then ['-'] else []) ++ (n.whole
      ++ ((if n.fraction.isEmpty then [] else '.' :: n.fraction) ++ tailChars n.exponent)) := by
    simp only [chars, tailChars, List.append_assoc]
  rw [hchars]
  cases hneg : n.negative with
  | true =>
    rw [hneg] at hread
    exact hread
  | false =>
    rw [hneg] at hread
    rw [if_neg Bool.false_ne_true, List.nil_append]
    cases hwhole : n.whole with
    | nil => exact absurd hwhole h.whole_ne_nil
    | cons c cs =>
      have hc : c.isDigit = true := h.whole c (hwhole ▸ List.mem_cons_self)
      have hsign : c ≠ '-' := by
        rintro rfl
        cases hc
      rw [hwhole, List.cons_append] at hread
      rw [List.cons_append, ofChars?]
      · exact hread
      · rintro _ heq
        exact hsign (List.cons.inj heq).1

end Numeral

namespace Decimal

/-- A decimal is made of digits. -/
theorem allDigits_digits (d : Decimal) : AllDigits d.digits := allDigits_toDigits _

/-- A decimal has a digit. -/
theorem digits_ne_nil (d : Decimal) : d.digits ≠ [] := Nat.toDigits_ne_nil

end Decimal

/-- The digits of a positive decimal around the point. -/
theorem wellFormed_positional {d : Decimal} (h : d.coefficient ≠ 0) (negative : Bool) :
    Numeral.WellFormed ⟨negative, (positional d.digits d.leading).1,
      (positional d.digits d.leading).2, none⟩ := by
  have hdigits := d.allDigits_digits
  unfold positional
  split
  · exact ⟨List.cons_ne_nil _ _, allDigits_replicate_zero 1, fun _ => rfl,
      (allDigits_replicate_zero _).append hdigits⟩
  · cases hlist : d.digits with
    | nil => exact absurd hlist d.digits_ne_nil
    | cons c cs =>
      have hhead : c ≠ '0' := by
        have hne := head?_toDigits_ne_zero h
        rintro rfl
        exact hne (congrArg List.head? hlist)
      rw [hlist] at hdigits
      dsimp only
      refine ⟨by simp, ?_, ?_, fun x hx => hdigits x (List.mem_of_mem_drop hx)⟩
      · exact AllDigits.append (fun x hx => hdigits x (List.mem_of_mem_take hx))
          (allDigits_replicate_zero _)
      · intro hc
        rw [List.take_succ_cons, List.cons_append, List.head?_cons] at hc
        exact absurd (Option.some.inj hc) hhead

/-- A fraction may be added where there is none. -/
theorem Numeral.WellFormed.padded {n : Numeral} (h : n.WellFormed) :
    WellFormed { n with fraction := if n.fraction.isEmpty then ['0'] else n.fraction } := by
  refine ⟨h.whole_ne_nil, h.whole, h.leading, ?_⟩
  dsimp only
  split
  · exact allDigits_replicate_zero 1
  · exact h.fraction

/-- One digit before the point and an exponent. -/
theorem wellFormed_scientific (d : Decimal) (negative : Bool) :
    Numeral.WellFormed ⟨negative, d.digits.take 1, d.digits.drop 1, some d.leading⟩ := by
  have hdigits := d.allDigits_digits
  cases hlist : d.digits with
  | nil => exact absurd hlist d.digits_ne_nil
  | cons c cs =>
    rw [hlist] at hdigits
    exact ⟨by simp, fun x hx => hdigits x (List.mem_of_mem_take hx), fun _ => by simp,
      fun x hx => hdigits x (List.mem_of_mem_drop hx)⟩

/-- The numeral of every double is well formed. -/
theorem FiniteDouble.wellFormed_numeral (x : FiniteDouble) : x.numeral.WellFormed := by
  unfold numeral
  split
  · exact ⟨List.cons_ne_nil _ _, allDigits_replicate_zero 1, fun _ => rfl, allDigits_replicate_zero 1⟩
  · next hunits =>
    dsimp only
    split
    · have hpos := (denotes_shortestDecimal hunits .toEven).coefficient_ne_zero
      exact (wellFormed_positional hpos x.negative).padded
    · exact wellFormed_scientific _ x.negative

end ClassContract
