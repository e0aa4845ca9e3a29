import Mathlib.Data.Rat.Cast.Order
import Mathlib.Order.Monotone.Basic
import Mathlib.Tactic.FieldSimp
import Mathlib.Tactic.Positivity
import Mathlib.Tactic.Ring
import Workflow.Double.Round
import Workflow.Proofs.Digits

/-!
# Numbers that round to a rank

A magnitude rounds to a rank when it is nearer to that of the rank than to the neighbouring ones,
or as near and the rank is even. Magnitudes are counted in units of the least positive number.

## Main definitions

* `Format.RoundsTo`: a magnitude rounds to a positive rank
* `Decimal.value`: the number that a decimal number is

## Main results

* `Format.scaled_strictMono`: magnitudes grow with their rank
* `Format.scaled_floorRank`: the rank below a magnitude
* `Format.nearest_eq`: a quotient is rounded to the rank it rounds to
* `Double.isFinite_ofInt`: whole numbers of 64 bits round to finite ones
* `Decimal.nearest_eq`: so is a decimal number
-/

namespace Workflow

namespace Double.Format

variable {f : Format}

theorem block_eq (f : Format) : f.block = 2 ^ f.fractionBits := by
  rw [block, Nat.shiftLeft_eq, Nat.one_mul]

/-- The magnitudes of a block behind the first one are evenly spaced. -/
theorem scaled_block (f : Format) {q : ℕ} (shift : ℕ) (h : q < f.block) :
    f.scaled ((shift + 1) * f.block + q) = (f.block + q) * 2 ^ shift := by
  have hb := f.block_pos
  have behind : ¬(shift + 1) * f.block + q < f.block := by
    rw [Nat.succ_mul]
    omega
  have hdiv : ((shift + 1) * f.block + q) / f.block = shift + 1 := by
    rw [Nat.mul_comm, Nat.mul_add_div hb, Nat.div_eq_of_lt h, Nat.add_zero]
  have hmod : ((shift + 1) * f.block + q) % f.block = q := by
    rw [Nat.mul_comm, Nat.mul_add_mod, Nat.mod_eq_of_lt h]
  rw [scaled, if_neg behind, hdiv, hmod, Nat.shiftLeft_eq, Nat.add_sub_cancel]

/-- The first rank of the next block goes on with the same spacing. -/
theorem scaled_block_le (f : Format) {q : ℕ} (shift : ℕ) (h : q ≤ f.block) :
    f.scaled ((shift + 1) * f.block + q) = (f.block + q) * 2 ^ shift := by
  rcases h.lt_or_eq with h | rfl
  · exact f.scaled_block shift h
  · have next := f.scaled_block (shift + 1) f.block_pos
    have same : (shift + 1 + 1) * f.block + 0 = (shift + 1) * f.block + f.block := by
      rw [Nat.add_zero, Nat.succ_mul (shift + 1)]
    rw [same] at next
    rw [next, Nat.pow_succ]
    ring

/-- Up to the end of the second block ranks are their own magnitudes. -/
theorem scaled_of_le (f : Format) {k : ℕ} (h : k ≤ 2 * f.block) : f.scaled k = k := by
  by_cases hlt : k < f.block
  · exact scaled_of_lt hlt
  · obtain ⟨q, rfl⟩ := Nat.exists_eq_add_of_le (Nat.le_of_not_lt hlt)
    have first := f.scaled_block_le 0 (q := q) (by omega)
    rw [Nat.zero_add, Nat.one_mul, Nat.pow_zero, Nat.mul_one] at first
    exact first

/-- A rank is in the first block, or has its place in a block behind it. -/
theorem exists_block (f : Format) (k : ℕ) :
    k < f.block ∨ ∃ shift q, q < f.block ∧ k = (shift + 1) * f.block + q := by
  rcases Nat.lt_or_ge k f.block with first | behind
  · exact .inl first
  · have one : 1 ≤ k / f.block := (Nat.one_le_div_iff f.block_pos).mpr behind
    refine .inr ⟨k / f.block - 1, k % f.block, Nat.mod_lt _ f.block_pos, ?_⟩
    rw [Nat.sub_add_cancel one, Nat.mul_comm, Nat.div_add_mod]

/-- A larger rank has a larger magnitude. -/
theorem scaled_strictMono (f : Format) : StrictMono f.scaled := by
  refine strictMono_nat_of_lt_succ fun k => ?_
  rcases f.exists_block k with first | ⟨shift, q, hq, rfl⟩
  · rw [scaled_of_lt first, f.scaled_of_le (by omega)]
    exact k.lt_add_one
  · rw [Nat.add_assoc, f.scaled_block shift hq, f.scaled_block_le shift hq]
    exact Nat.mul_lt_mul_of_pos_right (by omega) (Nat.two_pow_pos _)

/-- The neighbours of a rank are not nearer than a certain part of its magnitude. -/
theorem exists_gap (f : Format) {k : ℕ} (hk : 0 < k) :
    ∃ gap, f.scaled (k - 1) + gap ≤ f.scaled k ∧ f.scaled k + gap ≤ f.scaled (k + 1) ∧
      f.scaled k ≤ gap * (2 * f.block) := by
  have hb := f.block_pos
  by_cases h : k < 2 * f.block
  · refine ⟨1, ?_⟩
    rw [f.scaled_of_le (show k - 1 ≤ _ by omega), f.scaled_of_le h.le, f.scaled_of_le h]
    omega
  · obtain ⟨shift, q, hq, rfl⟩ :
        ∃ shift q, q < f.block ∧ k = (shift + 1 + 1) * f.block + q := by
      rcases f.exists_block k with first | ⟨_ | shift, q, hq, rfl⟩
      · omega
      · omega
      · exact ⟨shift, q, hq, rfl⟩
    have here := f.scaled_block (shift + 1) hq
    have next := f.scaled_block_le (shift + 1) (show q + 1 ≤ f.block by omega)
    rw [← Nat.add_assoc, ← Nat.add_assoc, Nat.succ_mul (f.block + q)] at next
    rcases q with _ | q
    · -- the first rank of a block is nearer to the one before it than to the one behind it
      have last := f.scaled_block shift (show f.block - 1 < f.block by omega)
      have same : (shift + 1 + 1) * f.block + 0 - 1 = (shift + 1) * f.block + (f.block - 1) := by
        rw [Nat.succ_mul (shift + 1)]
        omega
      have whole : f.block + (f.block - 1) + 1 = 2 * f.block := by omega
      rw [Nat.add_zero f.block, Nat.pow_succ', ← Nat.mul_assoc, Nat.mul_comm f.block] at here
      refine ⟨2 ^ shift, ?_, ?_, ?_⟩
      · rw [same, last, here, ← Nat.succ_mul, Nat.succ_eq_add_one, whole]
      · rw [next, here, Nat.add_zero f.block, Nat.pow_succ', ← Nat.mul_assoc, Nat.mul_comm f.block]
        omega
      · rw [here, Nat.mul_comm]
    · have last := f.scaled_block (shift + 1) (show q < f.block by omega)
      refine ⟨2 ^ (shift + 1), ?_, ?_, ?_⟩
      · rw [← Nat.add_assoc, Nat.add_sub_cancel, last, Nat.add_assoc _ q, here, ← Nat.add_assoc,
          Nat.succ_mul]
      · rw [next, here]
      · rw [here, Nat.mul_comm]
        exact Nat.mul_le_mul_left _ (by omega)

/-- The first rank of a block has a power of two for its magnitude. -/
theorem scaled_mul_block (f : Format) (shift : ℕ) :
    f.scaled ((shift + 1) * f.block) = 2 ^ (f.fractionBits + shift) := by
  have first := f.scaled_block shift f.block_pos
  simp only [Nat.add_zero] at first
  rw [first, Nat.pow_add, ← f.block_eq]

/-- The rank below a magnitude, when the spacing there is more than one unit. -/
theorem floorRank_of_le (f : Format) {units : ℕ} (h : ¬units < 2 * f.block) :
    ∃ shift q, q < f.block ∧ f.floorRank units = (shift + 1) * f.block + q ∧
      units / 2 ^ shift = f.block + q := by
  have hb := f.block_eq
  have hu : units ≠ 0 := by
    have := f.block_pos
    omega
  have hlog : f.fractionBits + 1 ≤ units.log2 := by
    rw [Nat.le_log2 hu, Nat.pow_succ, ← hb]
    omega
  have low : f.block ≤ units / 2 ^ (units.log2 - f.fractionBits) := by
    rw [Nat.le_div_iff_mul_le (Nat.two_pow_pos _), hb, ← Nat.pow_add,
      Nat.add_sub_cancel' (by omega)]
    exact Nat.log2_self_le hu
  have high : units / 2 ^ (units.log2 - f.fractionBits) < 2 * f.block := by
    rw [Nat.div_lt_iff_lt_mul (Nat.two_pow_pos _), hb, ← Nat.pow_succ', ← Nat.pow_add]
    refine (Nat.lt_log2_self).trans_le (Nat.pow_le_pow_right (by norm_num) ?_)
    omega
  refine ⟨units.log2 - f.fractionBits, units / 2 ^ (units.log2 - f.fractionBits) - f.block,
    by omega, ?_, by omega⟩
  simp only [floorRank, if_neg h, Nat.shiftRight_eq_div_pow]
  rw [Nat.succ_mul]
  omega

theorem scaled_floorRank (f : Format) (units : ℕ) :
    f.scaled (f.floorRank units) ≤ units ∧ units < f.scaled (f.floorRank units + 1) := by
  have hb := f.block_pos
  by_cases h : units < 2 * f.block
  · rw [floorRank, if_pos h, f.scaled_of_le h.le, f.scaled_of_le h]
    omega
  · obtain ⟨shift, q, hq, hr, hdiv⟩ := f.floorRank_of_le h
    have hp := Nat.two_pow_pos shift
    have next : f.block + q.succ = units / 2 ^ shift + 1 := by omega
    rw [hr, Nat.add_assoc, f.scaled_block shift hq, f.scaled_block_le shift hq, next, ← hdiv]
    exact ⟨Nat.div_mul_le_self _ _, Nat.lt_mul_of_div_lt (Nat.lt_succ_self _) hp⟩

/-! ### Rounding a quotient -/

/-- A magnitude, in units of the least positive number, rounds to a positive rank: it is not beyond
the middle between the rank and either neighbour, and in a middle only if the rank is even. -/
structure RoundsTo (f : Format) (k : ℕ) (x : ℚ) : Prop where
  lower : (f.scaled (k - 1) + f.scaled k : ℕ) ≤ 2 * x
  upper : 2 * x ≤ (f.scaled k + f.scaled (k + 1) : ℕ)
  lower_odd : k % 2 = 1 → (f.scaled (k - 1) + f.scaled k : ℕ) < 2 * x
  upper_odd : k % 2 = 1 → 2 * x < (f.scaled k + f.scaled (k + 1) : ℕ)

/-- The rank below a quotient that rounds to a rank is that rank or the one before it. -/
theorem floorRank_of_between {k units den : ℕ} (hk : 0 < k) (hd : 0 < den)
    (hl : (f.scaled (k - 1) + f.scaled k) * den ≤ 2 * units)
    (hr : 2 * units ≤ (f.scaled k + f.scaled (k + 1)) * den) :
    f.floorRank (units / den) = k ∨ f.floorRank (units / den) + 1 = k := by
  have mono := f.scaled_strictMono
  obtain ⟨low, high⟩ := f.scaled_floorRank (units / den)
  rw [Nat.le_div_iff_mul_le hd] at low
  rw [Nat.div_lt_iff_lt_mul hd] at high
  rw [Nat.add_mul] at hl hr
  -- the quotient is less than the rank behind and not less than the one before
  have not_above : f.floorRank (units / den) < k + 1 := by
    have step := Nat.mul_lt_mul_of_pos_right (mono k.lt_add_one) hd
    exact mono.lt_iff_lt.mp (Nat.lt_of_mul_lt_mul_right (a := den) (by omega))
  have not_below : k - 1 < f.floorRank (units / den) + 1 := by
    have step := Nat.mul_lt_mul_of_pos_right (mono (Nat.sub_lt hk Nat.one_pos)) hd
    exact mono.lt_iff_lt.mp (Nat.lt_of_mul_lt_mul_right (a := den) (by omega))
  omega

/-- **A quotient is rounded to the rank it rounds to.** -/
theorem nearest_eq {k num den : ℕ} (hk : 0 < k) (hd : 0 < den)
    (h : f.RoundsTo k ((num : ℚ) / den * 2 ^ f.unitExponent)) : f.nearest num den = k := by
  obtain ⟨units, hu⟩ : ∃ units, num <<< f.unitExponent = units := ⟨_, rfl⟩
  have hx : (num : ℚ) / den * 2 ^ f.unitExponent = units / den := by
    rw [← hu, Nat.shiftLeft_eq]
    push_cast
    ring
  have hden : (0 : ℚ) < den := Nat.cast_pos.mpr hd
  obtain ⟨hl, hr, hl', hr'⟩ := h
  simp only [hx, mul_div_assoc', le_div_iff₀ hden, div_le_iff₀ hden, lt_div_iff₀ hden,
    div_lt_iff₀ hden] at hl hr hl' hr'
  norm_cast at hl hr hl' hr'
  have floor := floorRank_of_between hk hd hl hr
  obtain ⟨below, hb⟩ : ∃ below, f.floorRank (units / den) = below := ⟨_, rfl⟩
  simp only [nearest, hu, hb]
  rw [hb] at floor
  -- the rank is the one below the quotient or the one above, and a tie goes to the even one
  rcases floor with rfl | rfl
  · split
    · rfl
    split
    · omega
    split
    · rfl
    · next hodd =>
      have := hr' (by omega)
      omega
  · rw [Nat.add_sub_cancel] at hl hl'
    split
    · omega
    split
    · rfl
    split
    · next heven =>
      have := hl' (by omega)
      omega
    · rfl

/-- A magnitude that rounds to a positive rank is at least half a unit. -/
theorem RoundsTo.one_le {k : ℕ} {x : ℚ} (h : f.RoundsTo k x) (hk : 0 < k) : 1 ≤ 2 * x := by
  have above := f.scaled_strictMono.le_apply (x := k)
  refine le_trans ?_ h.lower
  exact_mod_cast (show 1 ≤ f.scaled (k - 1) + f.scaled k by omega)

/-- A magnitude that rounds to a rank is not beyond that of a greater one. -/
theorem RoundsTo.le_scaled {k l : ℕ} {x : ℚ} (h : f.RoundsTo k x) (hl : k < l) :
    x ≤ f.scaled l := by
  have mono := f.scaled_strictMono.monotone
  have here := mono hl.le
  have next := mono (Nat.add_one_le_iff.mpr hl)
  have sum : ((f.scaled k + f.scaled (k + 1) : ℕ) : ℚ) ≤ 2 * f.scaled l := by
    exact_mod_cast (show f.scaled k + f.scaled (k + 1) ≤ 2 * f.scaled l by omega)
  exact le_of_mul_le_mul_left (h.upper.trans sum) two_pos

/-- A number of so many bits rounds to a rank in one of the first blocks, or to the one behind
them. -/
theorem nearest_le {num bits blocks : ℕ} (h : num < 2 ^ bits)
    (hb : bits + f.unitExponent ≤ f.fractionBits + blocks) :
    f.nearest num 1 ≤ (blocks + 1) * f.block := by
  have far : num <<< f.unitExponent / 1 < f.scaled ((blocks + 1) * f.block) := by
    rw [f.scaled_mul_block, Nat.div_one, Nat.shiftLeft_eq]
    calc num * 2 ^ f.unitExponent < 2 ^ bits * 2 ^ f.unitExponent :=
          Nat.mul_lt_mul_of_pos_right h (Nat.two_pow_pos _)
      _ = 2 ^ (bits + f.unitExponent) := (Nat.pow_add ..).symm
      _ ≤ 2 ^ (f.fractionBits + blocks) := Nat.pow_le_pow_right (by decide) hb
  have below := f.scaled_strictMono.lt_iff_lt.mp ((f.scaled_floorRank _).1.trans_lt far)
  unfold nearest
  dsimp only
  split_ifs <;> omega

end Double.Format

/-- A whole number of 64 bits, with or without a sign, rounds to a finite one. -/
theorem Double.isFinite_ofInt {n : ℤ} (h : n.natAbs < 2 ^ 65) : (ofInt n).isFinite = true := by
  have rank := @Format.nearest_le .double _ 65 1087 h (by decide)
  have size : (1087 + 1) * Format.double.block < Format.double.size := by decide +kernel
  rw [ofInt, ofRatio, ofRank, dif_pos (rank.trans_lt size)]
  rfl

namespace Decimal

/-- The number that a decimal number is. -/
def value (d : Decimal) : ℚ := d.digits * (10 : ℚ) ^ d.exponent

theorem value_eq_ratio (d : Decimal) : d.value = (d.ratio.1 : ℚ) / d.ratio.2 := by
  unfold value ratio
  split
  · next h =>
    obtain ⟨n, hn⟩ := Int.eq_ofNat_of_zero_le h
    simp [hn]
  · next h =>
    obtain ⟨n, hn⟩ := Int.eq_ofNat_of_zero_le (Int.neg_nonneg.mpr (Int.le_of_not_le h))
    have he : d.exponent = -n := by omega
    simp [he, div_eq_mul_inv]

theorem value_nonneg (d : Decimal) : 0 ≤ d.value :=
  mul_nonneg (Nat.cast_nonneg _) (zpow_nonneg (by norm_num) _)

theorem ratio_pos (d : Decimal) : 0 < d.ratio.2 := by
  unfold ratio
  split
  · exact Nat.one_pos
  · exact Nat.pow_pos (by norm_num)

/-- The place of the point bounds a number. -/
theorem value_lt (d : Decimal) : d.value < (10 : ℚ) ^ d.place := by
  rw [value, place, zpow_add₀ (by norm_num), zpow_natCast]
  refine mul_lt_mul_of_pos_right ?_ (zpow_pos (by norm_num) _)
  exact_mod_cast Text.lt_pow_length_toDigits d.digits

theorem le_value {d : Decimal} (h : d.digits ≠ 0) : (10 : ℚ) ^ (d.place - 1) ≤ d.value := by
  have split : d.place - 1 = ((Nat.toDigits 10 d.digits).length - 1 : ℕ) + d.exponent := by
    have := @Nat.length_toDigits_pos 10 d.digits
    rw [place]
    omega
  rw [split, value, zpow_add₀ (by norm_num), zpow_natCast]
  refine mul_le_mul_of_nonneg_right ?_ (zpow_pos (by norm_num) _).le
  exact_mod_cast Text.pow_length_toDigits_le h

open Double.Format (double)

/-- Four hundred places are more than the doubles need. -/
theorem pow_places : (2 : ℚ) ^ 1300 ≤ 10 ^ 400 := by
  calc (2 : ℚ) ^ 1300 = (2 ^ 13) ^ 100 := by rw [← pow_mul]
    _ ≤ (10 ^ 4) ^ 100 := pow_le_pow_left₀ (by norm_num) (by norm_num) _
    _ = 10 ^ 400 := by rw [← pow_mul]

/-- A number that is at least half a unit of the doubles is not too far behind the point. -/
theorem le_place {d : Decimal} (h : 1 ≤ d.value * 2 ^ (double.unitExponent + 1)) :
    -400 ≤ d.place := by
  by_contra hp
  have small : d.value < ((10 : ℚ) ^ 400)⁻¹ := by
    rw [← zpow_natCast, ← zpow_neg]
    exact d.value_lt.trans_le (zpow_le_zpow_right₀ (by norm_num) (Int.not_le.mp hp).le)
  have units : (2 : ℚ) ^ (double.unitExponent + 1) ≤ 10 ^ 400 :=
    (pow_le_pow_right₀ (by norm_num) (by decide)).trans pow_places
  have less : d.value * 10 ^ 400 < 1 := by
    rw [← lt_div_iff₀ (pow_pos (by norm_num) _), one_div]
    exact small
  have more := mul_le_mul_of_nonneg_left units d.value_nonneg
  exact less.not_ge (h.trans more)

/-- A number that is not beyond the doubles is not too far before the point. -/
theorem place_le {d : Decimal} (hd : d.digits ≠ 0) (h : d.value ≤ 2 ^ 1299) : d.place ≤ 400 := by
  by_contra hp
  have large : (10 : ℚ) ^ (400 : ℕ) ≤ d.value := by
    rw [← zpow_natCast]
    exact (zpow_le_zpow_right₀ (by norm_num) (by omega)).trans (le_value hd)
  have more : (2 : ℚ) ^ 1299 < 2 ^ 1300 := pow_lt_pow_right₀ (by norm_num) (by norm_num)
  exact absurd ((more.trans_le pow_places).trans_le large) h.not_gt

/-- **A decimal number is rounded to the rank it rounds to.** Its place is never so far from the
point that the quotient is not formed. -/
theorem nearest_eq {d : Decimal} {k : ℕ} (hk : 0 < k) (hs : k < double.size)
    (h : double.RoundsTo k (d.value * 2 ^ double.unitExponent)) : d.nearest double = k := by
  have positive : 1 ≤ d.value * 2 ^ (double.unitExponent + 1) := by
    rw [pow_succ, ← mul_assoc, mul_comm]
    exact h.one_le hk
  have bounded : d.value ≤ 2 ^ 1299 := by
    have top : double.scaled double.size = 2 ^ (double.fractionBits + 2046) :=
      double.scaled_mul_block 2046
    have room : (2 : ℚ) ^ (double.fractionBits + 2046) ≤ 2 ^ (1299 + double.unitExponent) :=
      pow_le_pow_right₀ (by norm_num) (by decide)
    have upper := h.le_scaled hs
    rw [top] at upper
    push_cast at upper
    refine le_of_mul_le_mul_right ?_ (pow_pos two_pos double.unitExponent)
    rw [← pow_add]
    exact upper.trans room
  have hd : d.digits ≠ 0 := by
    intro h0
    rw [value, h0, Nat.cast_zero, zero_mul, zero_mul] at positive
    exact absurd positive (by norm_num)
  -- the number of places is within both bounds, so the quotient is formed
  have near : ¬d.place < -400 := Int.not_lt.mpr (le_place positive)
  have far : ¬400 < d.place := Int.not_lt.mpr (place_le hd bounded)
  rw [nearest, if_neg (by simp [hd, near]), if_neg far]
  refine Double.Format.nearest_eq hk d.ratio_pos ?_
  rw [← value_eq_ratio]
  exact h

end Decimal

end Workflow
