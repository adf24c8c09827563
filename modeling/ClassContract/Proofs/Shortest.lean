import ClassContract.Double.Shortest

/-!
# Shortest decimals round to their doubles

The rounding ranges of two doubles have no number in common (`units_eq_of_contains`): between
neighbours of equal gaps lies one half, which goes to the even one, and at a power of two the gap
below is half as wide as the gap above. Each range is wide enough to hold a decimal of seventeen
digits (`exists_standsFor`), so that the search for the shortest decimal ends with one that rounds to
the number, `denotes_shortestDecimal`.
-/

namespace ClassContract

/-- The gap between a number of units and the next larger one. -/
def gapAbove (units : Nat) : Nat := twoPow (lostBits units)

/-- The gap between a number of units and the next smaller one. -/
def gapBelow (units : Nat) : Nat :=
  if 0 < lostBits units && units == twoPow (52 + lostBits units) then gapAbove units / 2
  else gapAbove units

theorem roundingRange_eq (units : Nat) :
    roundingRange units =
      ⟨4 * units - 2 * gapBelow units, 4 * units + 2 * gapAbove units,
        units / gapAbove units % 2 == 0⟩ := rfl

theorem gapAbove_pos (units : Nat) : 0 < gapAbove units := twoPow_pos _

/-- A number has at most 53 binary digits above the lost ones. -/
theorem units_lt (units : Nat) : units < twoPow 53 * gapAbove units := by
  have hlen : bitLength units ≤ 53 + lostBits units := by unfold lostBits; omega
  calc units < twoPow (bitLength units) := lt_twoPow_bitLength units
    _ ≤ twoPow (53 + lostBits units) := twoPow_le hlen
    _ = twoPow 53 * gapAbove units := twoPow_add _ _

/-- A number that loses digits has no fewer than 53 of them left. -/
theorem le_units {units : Nat} (h : 0 < lostBits units) : twoPow 52 * gapAbove units ≤ units := by
  have hlen : bitLength units = 53 + lostBits units := by unfold lostBits at h ⊢; omega
  have hne : units ≠ 0 := by
    rintro rfl
    exact absurd hlen (by unfold bitLength; simp; omega)
  have hlog : units.log2 = 52 + lostBits units := by
    rw [bitLength, if_neg hne] at hlen
    omega
  calc twoPow 52 * gapAbove units = twoPow (52 + lostBits units) := (twoPow_add _ _).symm
    _ = twoPow units.log2 := by rw [hlog]
    _ ≤ units := Nat.log2_self_le hne

/-- Larger numbers lose no fewer bits. -/
theorem lostBits_le {u v : Nat} (h : u ≤ v) : lostBits u ≤ lostBits v := by
  have hlen : bitLength u ≤ bitLength v :=
    bitLength_le_of_lt (Nat.lt_of_le_of_lt h (lt_twoPow_bitLength v))
  unfold lostBits
  omega

/-- The gap below is that above, except at a power of two that loses digits, where it is half of
it. -/
theorem gapBelow_cases (units : Nat) :
    gapBelow units = gapAbove units
        ∧ (0 < lostBits units → units ≠ twoPow 52 * gapAbove units)
      ∨ 2 * gapBelow units = gapAbove units ∧ units = twoPow 52 * gapAbove units := by
  have hpower : twoPow (52 + lostBits units) = twoPow 52 * gapAbove units := twoPow_add _ _
  unfold gapBelow
  split
  · next h =>
    obtain ⟨hlost, heq⟩ := Bool.and_eq_true_iff.mp h
    right
    have heven : gapAbove units = 2 * twoPow (lostBits units - 1) := by
      have hsplit : lostBits units = 1 + (lostBits units - 1) := by
        have := of_decide_eq_true hlost
        omega
      rw [gapAbove]
      conv => lhs; rw [hsplit, twoPow_add]
      rfl
    refine ⟨by omega, ?_⟩
    rw [← hpower]
    exact beq_iff_eq.mp heq
  · next h =>
    left
    refine ⟨rfl, fun hlost heq => h ?_⟩
    rw [Bool.and_eq_true_iff, beq_iff_eq, hpower]
    exact ⟨decide_eq_true hlost, heq⟩

namespace RoundingRange

/-- What a range contains is between its bounds. -/
theorem bounds_of_contains {r : RoundingRange} {num den : Nat} (h : r.contains num den = true) :
    r.low * den ≤ num ∧ num ≤ r.high * den := by
  unfold contains at h
  split at h
  · simpa using h
  · simp only [Bool.and_eq_true, decide_eq_true_eq] at h
    omega

/-- The ends belong to a range only if it is closed. -/
theorem closed_of_contains {r : RoundingRange} {num den : Nat} (h : r.contains num den = true)
    (hend : num = r.low * den ∨ num = r.high * den) : r.closed = true := by
  unfold contains at h
  split at h
  · assumption
  · simp only [Bool.and_eq_true, decide_eq_true_eq] at h
    omega

/-- A range contains what is strictly between its bounds. -/
theorem contains_of_lt {r : RoundingRange} {num den : Nat} (hlow : r.low * den < num)
    (hhigh : num < r.high * den) : r.contains num den = true := by
  unfold contains
  split
  · simp only [Bool.and_eq_true, decide_eq_true_eq]
    omega
  · simp only [Bool.and_eq_true, decide_eq_true_eq]
    exact ⟨hlow, hhigh⟩

end RoundingRange

/-- A number that can be represented is a multiple of the gap above it. -/
theorem Representable.dvd {units : Nat} (h : Representable units) : gapAbove units ∣ units :=
  Nat.dvd_of_mod_eq_zero h.2

/-- Two different multiples of a gap are at least that gap apart. -/
theorem add_le_of_dvd {gap a b : Nat} (ha : gap ∣ a) (hb : gap ∣ b) (h : a < b) : a + gap ≤ b := by
  have hle := Nat.le_of_dvd (by omega) (Nat.dvd_sub hb ha)
  omega

/-- Where the gap grows, the range of the smaller double ends before a power of two that the larger
one has reached. If it ends there, its own last digit is odd. -/
theorem high_le_low_of_lostBits_lt {u v : Nat} (hu : Representable u) (hv : Representable v)
    (h : lostBits u < lostBits v) :
    (roundingRange u).high ≤ (roundingRange v).low
      ∧ ((roundingRange u).high = (roundingRange v).low → ¬(roundingRange u).closed = true) := by
  have hdouble : 2 * gapAbove u ≤ gapAbove v := by
    have hpow := twoPow_le (Nat.succ_le_of_lt h)
    rwa [Nat.succ_eq_one_add, twoPow_add] at hpow
  have h53 : twoPow 53 * gapAbove u = twoPow 52 * (2 * gapAbove u) := by rw [← Nat.mul_assoc]; rfl
  have hlast : u + gapAbove u ≤ twoPow 53 * gapAbove u :=
    add_le_of_dvd hu.dvd (Nat.dvd_mul_left _ _) (units_lt u)
  have hpower : twoPow 53 * gapAbove u + (gapAbove v - 2 * gapAbove u) ≤
      twoPow 52 * gapAbove v := by
    have hsplit : gapAbove v = 2 * gapAbove u + (gapAbove v - 2 * gapAbove u) := by omega
    have hone : gapAbove v - 2 * gapAbove u ≤ twoPow 52 * (gapAbove v - 2 * gapAbove u) :=
      Nat.le_mul_of_pos_left _ (twoPow_pos 52)
    calc twoPow 53 * gapAbove u + (gapAbove v - 2 * gapAbove u)
        ≤ twoPow 52 * (2 * gapAbove u) + twoPow 52 * (gapAbove v - 2 * gapAbove u) := by omega
      _ = twoPow 52 * gapAbove v := by rw [← Nat.mul_add, ← hsplit]
  have hreached : twoPow 52 * gapAbove v ≤ v := le_units (by omega)
  have hgap := gapAbove_pos u
  simp only [roundingRange_eq, beq_iff_eq]
  rcases gapBelow_cases v with ⟨hbelow, hbeyond⟩ | ⟨hbelow, hat⟩
  · have hnext : twoPow 52 * gapAbove v + gapAbove v ≤ v :=
      add_le_of_dvd (Nat.dvd_mul_left _ _) hv.dvd (by have := hbeyond (by omega); omega)
    omega
  · refine ⟨by omega, fun heq heven => ?_⟩
    have hu : u = (twoPow 53 - 1) * gapAbove u := by
      rw [Nat.sub_mul]
      omega
    rw [Nat.div_eq_of_eq_mul_left hgap hu] at heven
    exact absurd heven (by decide)

/-- Between two doubles with the same gap is at least one gap, and neighbours are not both even. -/
theorem high_le_low_of_lostBits_eq {u v : Nat} (hu : Representable u) (hv : Representable v)
    (h : lostBits u = lostBits v) (hlt : u < v) :
    (roundingRange u).high ≤ (roundingRange v).low
      ∧ ((roundingRange u).high = (roundingRange v).low →
        ¬((roundingRange u).closed = true ∧ (roundingRange v).closed = true)) := by
  have hsame : gapAbove v = gapAbove u := by rw [gapAbove, gapAbove, h]
  have hnext : u + gapAbove u ≤ v := add_le_of_dvd hu.dvd (hsame ▸ hv.dvd) hlt
  have hgap := gapAbove_pos u
  have hbelow := gapBelow_cases v
  simp only [roundingRange_eq, beq_iff_eq, hsame] at hbelow ⊢
  refine ⟨by omega, fun heq ⟨heven, heven'⟩ => ?_⟩
  have hv : v = u + gapAbove u := by omega
  rw [hv, Nat.add_div_right _ hgap] at heven'
  omega

/-- The range of the smaller of two doubles ends where that of the larger one begins, or before, and
if it ends there one of them is open. -/
theorem high_le_low {u v : Nat} (hu : Representable u) (hv : Representable v) (h : u < v) :
    (roundingRange u).high ≤ (roundingRange v).low
      ∧ ((roundingRange u).high = (roundingRange v).low →
        ¬((roundingRange u).closed = true ∧ (roundingRange v).closed = true)) := by
  rcases Nat.lt_or_eq_of_le (lostBits_le (Nat.le_of_lt h)) with hlost | hlost
  · obtain ⟨hle, hopen⟩ := high_le_low_of_lostBits_lt hu hv hlost
    exact ⟨hle, fun heq hclosed => hopen heq hclosed.1⟩
  · exact high_le_low_of_lostBits_eq hu hv hlost h

/-- No number rounds to two doubles. -/
theorem units_eq_of_contains {u v num den : Nat} (hu : Representable u) (hv : Representable v)
    (hden : 0 < den) (hcu : (roundingRange u).contains num den = true)
    (hcv : (roundingRange v).contains num den = true) : u = v := by
  have hapart : ∀ {u v : Nat}, Representable u → Representable v →
      (roundingRange u).contains num den = true → (roundingRange v).contains num den = true →
      ¬u < v := by
    intro u v hu hv hcu hcv hlt
    obtain ⟨hle, hopen⟩ := high_le_low hu hv hlt
    have hbu := RoundingRange.bounds_of_contains hcu
    have hbv := RoundingRange.bounds_of_contains hcv
    have hmul := Nat.mul_le_mul_right den hle
    have hends : num = (roundingRange u).high * den ∧ num = (roundingRange v).low * den := by omega
    refine hopen (Nat.eq_of_mul_eq_mul_right hden (hends.1.symm.trans hends.2)) ⟨?_, ?_⟩
    · exact RoundingRange.closed_of_contains hcu (.inr hends.1)
    · exact RoundingRange.closed_of_contains hcv (.inl hends.2)
  have := hapart hu hv hcu hcv
  have := hapart hv hu hcv hcu
  omega

theorem tenPow_pos (k : Nat) : 0 < tenPow k := Nat.pow_pos (by omega)

theorem tenPow_add (a b : Nat) : tenPow (a + b) = tenPow a * tenPow b := Nat.pow_add 10 a b

/-- A number has at least the power of ten of its length. -/
theorem tenPow_le_of_decimalLength {n : Nat} (h : n ≠ 0) : tenPow (decimalLength n - 1) ≤ n := by
  by_cases hone : decimalLength n - 1 = 0
  · rw [hone]
    exact Nat.one_le_iff_ne_zero.mpr h
  · have hlen := Nat.length_toDigits_le_iff (b := 10) (n := n) (by omega) (Nat.pos_of_ne_zero hone)
    have hlong : ¬ (Nat.toDigits 10 n).length ≤ decimalLength n - 1 := by
      unfold decimalLength at hone ⊢
      omega
    exact Nat.not_lt.mp (mt hlen.mpr hlong)

/-- After scaling, more than seventeen digits stand before the point. -/
theorem tenPow_le_scaledWhole {units : Nat} (h : units ≠ 0) : tenPow 17 ≤ scaledWhole units := by
  have hscale : tenPow 17 * twoPow fractionBits ≤ tenPow decimalScale := by decide +kernel
  have hle : tenPow 17 * twoPow fractionBits ≤ units * tenPow decimalScale :=
    Nat.le_trans hscale (Nat.le_mul_of_pos_left _ (Nat.pos_of_ne_zero h))
  exact (Nat.le_div_iff_mul_le (twoPow_pos _)).mpr hle

/-- Scaling leaves nothing but zero at zero. -/
theorem scaledWhole_ne_zero {units : Nat} (h : units ≠ 0) : scaledWhole units ≠ 0 := by
  have hpos := tenPow_pos 17
  have hle := tenPow_le_scaledWhole h
  omega

/-- A scaled number has more than seventeen digits. -/
theorem seventeen_lt_decimalLength {units : Nat} (h : units ≠ 0) :
    17 < decimalLength (scaledWhole units) := by
  have hle := tenPow_le_scaledWhole h
  have hlen := Nat.length_toDigits_le_iff (b := 10) (n := scaledWhole units) (k := 17) (by omega)
    (by omega)
  exact Nat.not_le.mp fun hshort => absurd (hlen.mp hshort) (Nat.not_lt.mpr hle)

/-- The multiples of a grid on both sides of a number of units. -/
theorem grid_bounds (units : Nat) {grid : Nat} (hgrid : 0 < grid) :
    scaledWhole units / grid * grid * twoPow fractionBits ≤ units * tenPow decimalScale
      ∧ units * tenPow decimalScale <
        (scaledWhole units / grid + 1) * grid * twoPow fractionBits := by
  have hunit := twoPow_pos fractionBits
  constructor
  · calc scaledWhole units / grid * grid * twoPow fractionBits
        ≤ scaledWhole units * twoPow fractionBits :=
          Nat.mul_le_mul_right _ (Nat.div_mul_le_self _ _)
      _ ≤ units * tenPow decimalScale := Nat.div_mul_le_self _ _
  · have hwhole : scaledWhole units + 1 ≤ (scaledWhole units / grid + 1) * grid := by
      have hmod := Nat.div_add_mod (scaledWhole units) grid
      have hlt := Nat.mod_lt (scaledWhole units) hgrid
      rw [Nat.succ_mul, Nat.mul_comm _ grid]
      omega
    calc units * tenPow decimalScale
        < (scaledWhole units + 1) * twoPow fractionBits :=
          Nat.lt_mul_of_div_lt (Nat.lt_succ_self _) hunit
      _ ≤ (scaledWhole units / grid + 1) * grid * twoPow fractionBits :=
          Nat.mul_le_mul_right _ hwhole

/-- A grid of seventeen digits is finer than the range that rounds to a number of units, even where
the gap below is half of the gap above. -/
theorem grid_lt_gaps {units : Nat} (h : units ≠ 0) :
    4 * (tenPow (decimalLength (scaledWhole units) - 17) * twoPow fractionBits) <
      2 * gapBelow units * tenPow decimalScale + 2 * gapAbove units * tenPow decimalScale := by
  have hlen := seventeen_lt_decimalLength h
  have hsplit : decimalLength (scaledWhole units) - 1 =
      16 + (decimalLength (scaledWhole units) - 17) := by omega
  have hwhole := tenPow_le_of_decimalLength (scaledWhole_ne_zero h)
  rw [hsplit, tenPow_add] at hwhole
  generalize tenPow (decimalLength (scaledWhole units) - 17) = grid at hwhole ⊢
  have hfine : tenPow 16 * (grid * twoPow fractionBits) ≤ units * tenPow decimalScale := by
    calc tenPow 16 * (grid * twoPow fractionBits)
        = tenPow 16 * grid * twoPow fractionBits := (Nat.mul_assoc _ _ _).symm
      _ ≤ scaledWhole units * twoPow fractionBits := Nat.mul_le_mul_right _ hwhole
      _ ≤ units * tenPow decimalScale := Nat.div_mul_le_self _ _
  have hten : tenPow 16 = 10000000000000000 := rfl
  have hpos : 0 < gapAbove units * tenPow decimalScale :=
    Nat.mul_pos (gapAbove_pos units) (tenPow_pos _)
  rw [hten] at hfine
  rcases gapBelow_cases units with ⟨hbelow, _⟩ | ⟨hbelow, hunits⟩
  · have hwide : units * tenPow decimalScale ≤
        9007199254740992 * (gapAbove units * tenPow decimalScale) := by
      rw [← Nat.mul_assoc]
      exact Nat.mul_le_mul_right _ (Nat.le_of_lt (units_lt units))
    rw [hbelow, Nat.mul_assoc 2]
    omega
  · have hwide : units * tenPow decimalScale ≤
        4503599627370496 * (gapAbove units * tenPow decimalScale) := by
      rw [← Nat.mul_assoc]
      exact Nat.mul_le_mul_right _ (Nat.le_of_eq hunits)
    rw [hbelow, Nat.mul_assoc 2]
    omega

/-- The neighbours on a grid are the multiples below and above, in one order or the other. -/
theorem neighbours_cases (tie : TieRule) (units grid : Nat) :
    neighbours tie units grid = (scaledWhole units / grid + 1, scaledWhole units / grid) ∨
      neighbours tie units grid = (scaledWhole units / grid, scaledWhole units / grid + 1) :=
  (Classical.em _).elim (fun h => .inl (if_pos h)) (fun h => .inr (if_neg h))

/-- A multiple of the grid that lies strictly between the ends of the range of a number rounds to
it. -/
theorem standsFor_of_lt {units grid c : Nat}
    (hlow : 4 * (units * tenPow decimalScale) <
      4 * (c * grid * twoPow fractionBits) + 2 * gapBelow units * tenPow decimalScale)
    (hhigh : 4 * (c * grid * twoPow fractionBits) <
      4 * (units * tenPow decimalScale) + 2 * gapAbove units * tenPow decimalScale)
    (hpos : 0 < c * grid * twoPow fractionBits) : standsFor units grid c = true := by
  have hnum : 4 * c * grid * twoPow fractionBits = 4 * (c * grid * twoPow fractionBits) := by
    simp only [Nat.mul_assoc]
  rw [standsFor, hnum]
  apply RoundingRange.contains_of_lt
  · rw [roundingRange_eq, Nat.sub_mul, Nat.mul_assoc 4]
    omega
  · rw [roundingRange_eq, Nat.add_mul, Nat.mul_assoc 4]
    omega

/-- One of the two neighbours with seventeen digits rounds to the number. -/
theorem exists_standsFor {units : Nat} (h : units ≠ 0) :
    let grid := tenPow (decimalLength (scaledWhole units) - 17)
    standsFor units grid (scaledWhole units / grid) = true
      ∨ standsFor units grid (scaledWhole units / grid + 1) = true := by
  have hgaps := grid_lt_gaps h
  have hbelow : 0 < scaledWhole units / tenPow (decimalLength (scaledWhole units) - 17) := by
    refine Nat.div_pos (Nat.le_trans ?_ (tenPow_le_of_decimalLength (scaledWhole_ne_zero h)))
      (tenPow_pos _)
    exact Nat.pow_le_pow_right (by omega) (by omega)
  have hgrid := tenPow_pos (decimalLength (scaledWhole units) - 17)
  dsimp only
  generalize tenPow (decimalLength (scaledWhole units) - 17) = grid at hgaps hbelow hgrid ⊢
  obtain ⟨hlow, hhigh⟩ := grid_bounds units hgrid
  generalize scaledWhole units / grid = c at hbelow hlow hhigh ⊢
  have hnext : (c + 1) * grid * twoPow fractionBits =
      c * grid * twoPow fractionBits + grid * twoPow fractionBits := by
    rw [Nat.succ_mul, Nat.add_mul]
  have hpos : 0 < c * grid * twoPow fractionBits :=
    Nat.mul_pos (Nat.mul_pos hbelow hgrid) (twoPow_pos _)
  have hgap : 0 < 2 * gapAbove units * tenPow decimalScale :=
    Nat.mul_pos (Nat.mul_pos (by omega) (gapAbove_pos units)) (tenPow_pos _)
  by_cases hnear : 4 * (units * tenPow decimalScale) <
      4 * (c * grid * twoPow fractionBits) + 2 * gapBelow units * tenPow decimalScale
  · exact .inl (standsFor_of_lt hnear (by omega) hpos)
  · exact .inr (standsFor_of_lt (by omega) (by omega) (by omega))

/-- The value of a decimal multiplied by `10 ^ decimalScale`. -/
def Decimal.scaled (d : Decimal) : Nat := d.coefficient * tenPow (d.exponent + decimalScale).toNat

/-- A positive decimal that rounds to a number of units. -/
structure Decimal.Denotes (d : Decimal) (units : Nat) : Prop where
  /-- It is not zero. -/
  coefficient_ne_zero : d.coefficient ≠ 0
  /-- It is whole after scaling. -/
  whole : 0 ≤ d.exponent + decimalScale
  /-- It is in the range of the number. -/
  rounds : (roundingRange units).contains (4 * d.scaled * twoPow fractionBits)
    (tenPow decimalScale) = true

/-- Two doubles that a decimal rounds to are one. -/
theorem Decimal.Denotes.units_eq {d e : Decimal} {u v : Nat} (hd : d.Denotes u) (he : e.Denotes v)
    (h : d.scaled = e.scaled) (hu : Representable u) (hv : Representable v) : u = v :=
  units_eq_of_contains hu hv (tenPow_pos _) hd.rounds (h ▸ he.rounds)

/-- Moving zeros into the exponent does not change what a decimal denotes. -/
theorem Decimal.Denotes.dropZeros {d : Decimal} {units : Nat} (h : d.Denotes units) (fuel : Nat) :
    (d.dropZeros fuel).Denotes units := by
  induction fuel generalizing d with
  | zero => exact h
  | succ fuel ih =>
    rw [Decimal.dropZeros]
    split
    · next hmod =>
      have hten : d.coefficient = d.coefficient / 10 * 10 := by omega
      have hscaled : Decimal.scaled ⟨d.coefficient / 10, d.exponent + 1⟩ = d.scaled := by
        have hexp : (d.exponent + 1 + decimalScale).toNat =
            1 + (d.exponent + decimalScale).toNat := by
          have := h.whole
          omega
        rw [Decimal.scaled, Decimal.scaled, hexp, tenPow_add, ← Nat.mul_assoc]
        conv => rhs; rw [hten]
        rfl
      refine ih ⟨?_, ?_, hscaled ▸ h.rounds⟩
      · have := h.coefficient_ne_zero
        dsimp only
        omega
      · have := h.whole
        dsimp only
        omega
    · exact h

/-- A multiple that stands for a double denotes it as a decimal. -/
theorem denotes_of_standsFor {units n c : Nat} (hunits : units ≠ 0) (hn : n ≤ 17) (hc : c ≠ 0)
    (h : standsFor units (tenPow (decimalLength (scaledWhole units) - n)) c = true) :
    Decimal.Denotes ⟨c, (decimalLength (scaledWhole units) : Int) - n - decimalScale⟩ units := by
  have hlen := seventeen_lt_decimalLength hunits
  have hexp : ((decimalLength (scaledWhole units) : Int) - n - decimalScale + decimalScale).toNat =
      decimalLength (scaledWhole units) - n := by omega
  refine ⟨hc, by dsimp only; omega, ?_⟩
  rw [Decimal.scaled, hexp, ← Nat.mul_assoc]
  exact h

/-- The neighbours of a number on a grid of at most its own size are positive. -/
theorem neighbours_ne_zero {units grid : Nat} (hgrid : 0 < grid) (h : grid ≤ scaledWhole units)
    (tie : TieRule) : (neighbours tie units grid).1 ≠ 0 ∧ (neighbours tie units grid).2 ≠ 0 := by
  have hbelow : 0 < scaledWhole units / grid := Nat.div_pos h hgrid
  rcases neighbours_cases tie units grid with heq | heq
  · rw [heq]
    exact ⟨Nat.succ_ne_zero _, Nat.ne_of_gt hbelow⟩
  · rw [heq]
    exact ⟨Nat.ne_of_gt hbelow, Nat.succ_ne_zero _⟩

/-- A decimal of any length that is chosen for a double denotes it. -/
theorem denotes_of_decimalOfLength {units n : Nat} (hunits : units ≠ 0) (hpos : 0 < n) (hn : n ≤ 17)
    {tie : TieRule} {d : Decimal}
    (h : decimalOfLength tie units (decimalLength (scaledWhole units)) n = some d) :
    d.Denotes units := by
  have hgrid : tenPow (decimalLength (scaledWhole units) - n) ≤ scaledWhole units :=
    Nat.le_trans (Nat.pow_le_pow_right (by omega) (by omega))
      (tenPow_le_of_decimalLength (scaledWhole_ne_zero hunits))
  obtain ⟨hnear, hfar⟩ := neighbours_ne_zero (tenPow_pos _) hgrid tie
  unfold decimalOfLength at h
  dsimp only at h
  split at h
  · next hstands =>
    cases h
    exact denotes_of_standsFor hunits hn hnear hstands
  · split at h
    · next hstands =>
      cases h
      exact denotes_of_standsFor hunits hn hfar hstands
    · cases h

/-- The search fails for a number of digits only where neither neighbour rounds to the number. -/
theorem not_standsFor_of_eq_none {tie : TieRule} {units size n : Nat}
    (h : decimalOfLength tie units size n = none) :
    let grid := tenPow (size - n)
    ¬(standsFor units grid (scaledWhole units / grid) = true
      ∨ standsFor units grid (scaledWhole units / grid + 1) = true) := by
  unfold decimalOfLength at h
  dsimp only at h ⊢
  split at h
  · cases h
  · next hnear =>
    split at h
    · cases h
    · next hfar =>
      rcases neighbours_cases tie units (tenPow (size - n)) with heq | heq
      · rw [heq] at hnear hfar
        exact fun hstands => hstands.elim hfar hnear
      · rw [heq] at hnear hfar
        exact fun hstands => hstands.elim hnear hfar

/-- The shortest decimal of a number rounds to it. -/
theorem denotes_shortestDecimal {units : Nat} (h : units ≠ 0) (tie : TieRule) :
    (shortestDecimal tie units).Denotes units := by
  rw [shortestDecimal, if_neg h]
  dsimp only
  cases hfound : (List.range 17).findSome? fun i =>
      decimalOfLength tie units (decimalLength (scaledWhole units)) (i + 1) with
  | none =>
    have hnone := List.findSome?_eq_none_iff.mp hfound 16 (List.mem_range.mpr (by omega))
    exact absurd (exists_standsFor h) (not_standsFor_of_eq_none hnone)
  | some d =>
    obtain ⟨i, hi, hd⟩ := List.exists_of_findSome?_eq_some hfound
    have hlt := List.mem_range.mp hi
    exact (denotes_of_decimalOfLength h (by omega) (by omega) hd).dropZeros 18

end ClassContract
