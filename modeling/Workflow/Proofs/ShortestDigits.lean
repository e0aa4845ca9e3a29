import Mathlib.Data.List.TakeWhile
import Workflow.Double.Shortest
import Workflow.Proofs.Rounding

/-!
# The shortest digits read back

The digits that are written for a double round to it: a decimal number is taken only if it lies in
the interval of the rank. There is always one to take, since the numbers with seventeen digits are
so close together that one of them lies in every interval.

## Main results

* `roundsTo_of_onGrid`: what is taken from a grid rounds to the rank
* `exists_onGrid`: with seventeen digits something is taken
* `shortest_spec`: the shortest digits of a rank round to it
-/

namespace Workflow.Double

open Format (double)

/-! ### What is taken from a grid -/

/-- By how much all magnitudes are multiplied, so that the grid of an exponent has whole ones. -/
def gridFactor (exponent : ℤ) : ℕ :=
  if 0 ≤ exponent then 1 else Nat.pow 10 (-exponent).toNat

/-- The spacing of the grid of an exponent, in halves of a unit taken that often. -/
def gridStep (exponent : ℤ) : ℕ :=
  if 0 ≤ exponent then Nat.pow 10 exponent.toNat * (1 <<< (double.unitExponent + 1))
  else 1 <<< (double.unitExponent + 1)

theorem gridFactor_pos (exponent : ℤ) : 0 < gridFactor exponent := by
  unfold gridFactor
  split
  · exact Nat.one_pos
  · exact Nat.pow_pos (by norm_num)

theorem gridStep_eq (exponent : ℤ) :
    (gridStep exponent : ℚ) =
      10 ^ exponent * 2 ^ (double.unitExponent + 1) * gridFactor exponent := by
  unfold gridStep gridFactor
  rw [Nat.shiftLeft_eq]
  generalize double.unitExponent + 1 = units
  split
  · next h =>
    obtain ⟨n, rfl⟩ := Int.eq_ofNat_of_zero_le h
    simp
  · next h =>
    obtain ⟨n, hn⟩ := Int.eq_ofNat_of_zero_le (Int.neg_nonneg.mpr (Int.le_of_not_le h))
    have he : exponent = -n := by omega
    have hp : (10 : ℚ) ^ n ≠ 0 := pow_ne_zero _ (by norm_num)
    simp only [he, neg_neg, Int.toNat_natCast, zpow_neg, zpow_natCast, Nat.pow_eq, Nat.cast_pow,
      Nat.cast_ofNat, one_mul]
    rw [mul_right_comm, inv_mul_cancel₀ hp, one_mul]

theorem gridStep_pos (exponent : ℤ) : 0 < gridStep exponent := by
  unfold gridStep
  rw [Nat.shiftLeft_eq, Nat.one_mul]
  split
  · exact Nat.mul_pos (Nat.pow_pos (by norm_num)) (Nat.two_pow_pos _)
  · exact Nat.two_pow_pos _

/-- Whether a number of the grid lies in the interval of a rank. -/
def within (rank : ℕ) (exponent : ℤ) (n : ℕ) : Bool :=
  let lower := (double.scaled (rank - 1) + double.scaled rank) * gridFactor exponent
  let upper := (double.scaled rank + double.scaled (rank + 1)) * gridFactor exponent
  if rank % 2 = 0 then lower ≤ n * gridStep exponent && n * gridStep exponent ≤ upper
  else lower < n * gridStep exponent && n * gridStep exponent < upper

/-- The number of the grid below a rank. -/
def gridBelow (rank : ℕ) (exponent : ℤ) : ℕ :=
  2 * double.scaled rank * gridFactor exponent / gridStep exponent

/-- One of two neighbours on the grid is taken, if one of them lies in the interval. -/
theorem onGrid_eq (tie : Tie) (rank : ℕ) (exponent : ℤ) :
    ∃ preferred : Bool, onGrid tie rank exponent =
      if within rank exponent (gridBelow rank exponent) &&
        (preferred || !within rank exponent (gridBelow rank exponent + 1))
      then some (gridBelow rank exponent)
      else if within rank exponent (gridBelow rank exponent + 1)
      then some (gridBelow rank exponent + 1)
      else none :=
  ⟨_, rfl⟩

theorem within_of_onGrid {tie : Tie} {rank : ℕ} {exponent : ℤ} {n : ℕ}
    (h : onGrid tie rank exponent = some n) : within rank exponent n = true := by
  obtain ⟨preferred, he⟩ := onGrid_eq tie rank exponent
  rw [he] at h
  split at h
  · next hb =>
    obtain rfl := Option.some.inj h
    exact (Bool.and_eq_true_iff.mp hb).1
  split at h
  · next ha =>
    obtain rfl := Option.some.inj h
    exact ha
  · cases h

theorem exists_onGrid_of_within {tie : Tie} {rank : ℕ} {exponent : ℤ}
    (h : within rank exponent (gridBelow rank exponent) = true ∨
      within rank exponent (gridBelow rank exponent + 1) = true) :
    ∃ n, onGrid tie rank exponent = some n := by
  obtain ⟨preferred, he⟩ := onGrid_eq tie rank exponent
  rw [he]
  split
  · exact ⟨_, rfl⟩
  split
  · exact ⟨_, rfl⟩
  · next hb ha =>
    simp only [Bool.not_eq_true] at ha
    simp [ha] at hb h
    simp [h] at hb

/-- The interval of a rank is the set of numbers that round to it. -/
theorem within_iff {rank n : ℕ} {exponent : ℤ} : within rank exponent n = true ↔
    double.RoundsTo rank (n * 10 ^ exponent * 2 ^ double.unitExponent) := by
  have hf : (0 : ℚ) < gridFactor exponent := Nat.cast_pos.mpr (gridFactor_pos exponent)
  -- the factor makes every point of the grid a whole number
  have hx : (n * gridStep exponent : ℚ) =
      2 * (n * 10 ^ exponent * 2 ^ double.unitExponent) * gridFactor exponent := by
    rw [gridStep_eq, pow_succ]
    ring
  have le (a : ℕ) : a * gridFactor exponent ≤ n * gridStep exponent ↔
      (a : ℚ) ≤ 2 * (n * 10 ^ exponent * 2 ^ double.unitExponent) := by
    rw [← mul_le_mul_iff_of_pos_right hf, ← hx]
    exact_mod_cast Iff.rfl
  have ge (a : ℕ) : n * gridStep exponent ≤ a * gridFactor exponent ↔
      2 * (n * 10 ^ exponent * 2 ^ double.unitExponent) ≤ (a : ℚ) := by
    rw [← mul_le_mul_iff_of_pos_right hf, ← hx]
    exact_mod_cast Iff.rfl
  unfold within
  split
  · next heven =>
    rw [Bool.and_eq_true, decide_eq_true_eq, decide_eq_true_eq, le, ge]
    constructor
    · rintro ⟨hl, hu⟩
      exact ⟨hl, hu, fun h => by omega, fun h => by omega⟩
    · exact fun h => ⟨h.lower, h.upper⟩
  · next hodd =>
    rw [Bool.and_eq_true, decide_eq_true_eq, decide_eq_true_eq, ← Nat.not_le, ← Nat.not_le, ge, le,
      not_le, not_le]
    constructor
    · rintro ⟨hl, hu⟩
      exact ⟨hl.le, hu.le, fun _ => hl, fun _ => hu⟩
    · exact fun h => ⟨h.lower_odd (by omega), h.upper_odd (by omega)⟩

/-- **What is taken from a grid rounds to the rank.** -/
theorem roundsTo_of_onGrid {tie : Tie} {rank n : ℕ} {exponent : ℤ}
    (h : onGrid tie rank exponent = some n) :
    double.RoundsTo rank (n * 10 ^ exponent * 2 ^ double.unitExponent) :=
  within_iff.mp (within_of_onGrid h)

/-! ### Seventeen digits -/

theorem within_of_lt {rank n : ℕ} {exponent : ℤ}
    (hl : (double.scaled (rank - 1) + double.scaled rank) * gridFactor exponent <
      n * gridStep exponent)
    (hu : n * gridStep exponent <
      (double.scaled rank + double.scaled (rank + 1)) * gridFactor exponent) :
    within rank exponent n = true := by
  unfold within
  split
  · rw [Bool.and_eq_true, decide_eq_true_eq, decide_eq_true_eq]
    exact ⟨hl.le, hu.le⟩
  · rw [Bool.and_eq_true, decide_eq_true_eq, decide_eq_true_eq]
    exact ⟨hl, hu⟩

/-- The leading exponent is not too large: the power of ten is at most the magnitude. -/
theorem le_scaled_of_leadingExponent {rank : ℕ} (h : 0 < rank) :
    (10 : ℚ) ^ leadingExponent rank * 2 ^ double.unitExponent ≤ double.scaled rank := by
  obtain ⟨places, hp⟩ : ∃ places, places = 400 := ⟨_, rfl⟩
  obtain ⟨enlarged, he⟩ : ∃ enlarged,
    (double.scaled rank * Nat.pow 10 places) >>> double.unitExponent = enlarged := ⟨_, rfl⟩
  have hle : leadingExponent rank = ((Nat.toDigits 10 enlarged).length : ℤ) - 401 := by
    unfold leadingExponent
    rw [← he, ← hp]
  -- the power of ten is large enough for the least magnitude to have a digit
  have room : 2 ^ double.unitExponent ≤ 10 ^ places := by
    have enough : (2 : ℚ) ^ double.unitExponent ≤ 10 ^ places := by
      subst hp
      exact (pow_le_pow_right₀ (by norm_num) (by decide)).trans Decimal.pow_places
    exact_mod_cast enough
  rw [Nat.shiftRight_eq_div_pow, Nat.pow_eq] at he
  have some : enlarged ≠ 0 := by
    have above := double.scaled_strictMono.le_apply (x := rank)
    rw [← he]
    refine (Nat.div_pos (room.trans ?_) (Nat.two_pow_pos _)).ne'
    exact Nat.le_mul_of_pos_left _ (by omega)
  have low : 10 ^ ((Nat.toDigits 10 enlarged).length - 1) * 2 ^ double.unitExponent ≤
      double.scaled rank * 10 ^ places := by
    refine (Nat.mul_le_mul_right _ (Text.pow_length_toDigits_le some)).trans ?_
    rw [← he]
    exact Nat.div_mul_le_self _ _
  have split : leadingExponent rank = ((Nat.toDigits 10 enlarged).length - 1 : ℕ) - places := by
    have := @Nat.length_toDigits_pos 10 enlarged
    omega
  have hpow : (0 : ℚ) < 10 ^ places := pow_pos (by norm_num) _
  rw [split, zpow_sub₀ (by norm_num), zpow_natCast, zpow_natCast, div_mul_eq_mul_div,
    div_le_iff₀ hpow]
  exact_mod_cast low

/-- The numbers with seventeen digits are closer together than the doubles. -/
theorem gridStep_lt {rank gap : ℕ} (h : 0 < rank)
    (hg : double.scaled rank ≤ gap * (2 * double.block)) :
    gridStep (leadingExponent rank - 16) < 2 * (gap * gridFactor (leadingExponent rank - 16)) := by
  have hf := gridFactor_pos (leadingExponent rank - 16)
  have leading := le_scaled_of_leadingExponent h
  have block : (double.block : ℚ) = 2 ^ 52 := by
    rw [double.block_eq, Nat.cast_pow]
    rfl
  have gap' : (double.scaled rank : ℚ) ≤ gap * (2 * 2 ^ 52) := by
    rw [← block]
    exact_mod_cast hg
  have positive : (0 : ℚ) < gap := by
    have above := double.scaled_strictMono.le_apply (x := rank)
    refine Nat.cast_pos.mpr (Nat.pos_of_ne_zero fun h0 => ?_)
    rw [h0, Nat.zero_mul] at hg
    omega
  -- seventeen digits are finer than the 53 bits of a double
  have spacing : (10 : ℚ) ^ (leadingExponent rank - 16) * 2 ^ (double.unitExponent + 1) <
      2 * gap := by
    rw [zpow_sub₀ (by norm_num), pow_succ, div_mul_eq_mul_div, ← mul_assoc,
      div_lt_iff₀ (by norm_num)]
    calc (10 : ℚ) ^ leadingExponent rank * 2 ^ double.unitExponent * 2
        ≤ gap * (2 * 2 ^ 52) * 2 := mul_le_mul_of_nonneg_right (leading.trans gap') two_pos.le
      _ < 2 * gap * 10 ^ (16 : ℤ) := by
        norm_num
        linarith
  have scaled := mul_lt_mul_of_pos_right spacing (Nat.cast_pos (α := ℚ).mpr hf)
  rw [← gridStep_eq, mul_assoc] at scaled
  exact_mod_cast scaled

/-- **With seventeen digits something is taken**, since the nearest of them is not farther from the
double than half their spacing. -/
theorem exists_onGrid (tie : Tie) {rank : ℕ} (h : 0 < rank) :
    ∃ n, onGrid tie rank (leadingExponent rank - 16) = some n := by
  obtain ⟨gap, before, behind, hg⟩ := double.exists_gap h
  have step := gridStep_lt h hg
  obtain ⟨e, he⟩ : ∃ e, leadingExponent rank - 16 = e := ⟨_, rfl⟩
  rw [he] at step ⊢
  have before' := Nat.mul_le_mul_right (gridFactor e) before
  have behind' := Nat.mul_le_mul_right (gridFactor e) behind
  have whole := Nat.div_add_mod' (2 * double.scaled rank * gridFactor e) (gridStep e)
  have rest := Nat.mod_lt (2 * double.scaled rank * gridFactor e) (gridStep_pos e)
  rw [Nat.add_mul] at before' behind'
  rw [← gridBelow, Nat.mul_assoc] at whole
  rw [Nat.mul_assoc] at rest
  apply exists_onGrid_of_within
  -- the nearer of the two points around the magnitude is less than half a gap away
  by_cases near : 2 * (2 * (double.scaled rank * gridFactor e) % gridStep e) ≤ gridStep e
  · left
    apply within_of_lt <;> rw [Nat.add_mul] <;> omega
  · right
    apply within_of_lt
    · rw [Nat.add_mul, Nat.succ_mul]
      omega
    · rw [Nat.add_mul (double.scaled rank), Nat.succ_mul]
      omega

/-! ### The digits that are written -/

/-- The digits of a rank, with the exponent of the first: they begin with no zero, and the number
they write rounds to the rank. -/
structure Written (rank : ℕ) (digits : List Char) (exponent : ℤ) : Prop where
  nonempty : digits ≠ []
  allDigits : Text.AllDigits digits
  leading : digits.head? ≠ some '0'
  roundsTo : double.RoundsTo rank
    (Text.digitsValue digits * 10 ^ (exponent + 1 - digits.length) * 2 ^ double.unitExponent)

/-- Leaving out the zeros at the end of digits. -/
theorem exists_append_zeros (digits : List Char) :
    ∃ zeros, digits = (digits.reverse.dropWhile (· = '0')).reverse ++ List.replicate zeros '0' := by
  refine ⟨(digits.reverse.takeWhile (· = '0')).length, ?_⟩
  have zeros : digits.reverse.takeWhile (· = '0') =
      List.replicate (digits.reverse.takeWhile (· = '0')).length '0' :=
    List.eq_replicate_of_mem fun c hc => by simpa using List.mem_takeWhile_imp hc
  have whole := congrArg List.reverse
    (List.takeWhile_append_dropWhile (p := (· = '0')) (l := digits.reverse))
  rw [List.reverse_append, List.reverse_reverse, zeros, List.reverse_replicate] at whole
  exact whole.symm

theorem Written.of_roundsTo {rank n : ℕ} {exponent : ℤ} (h : 0 < rank)
    (hr : double.RoundsTo rank (n * 10 ^ exponent * 2 ^ double.unitExponent)) :
    Written rank (((Nat.toDigits 10 n).reverse.dropWhile (· = '0')).reverse)
      (exponent + (Nat.toDigits 10 n).length - 1) := by
  have some : n ≠ 0 := by
    rintro rfl
    have above := double.scaled_strictMono.le_apply (x := rank)
    have lower := hr.lower
    rw [Nat.cast_zero, zero_mul, zero_mul, mul_zero] at lower
    norm_cast at lower
    omega
  -- zeros at the end only change the place of the last digit
  obtain ⟨zeros, whole⟩ := exists_append_zeros (Nat.toDigits 10 n)
  obtain ⟨digits, hd⟩ : ∃ digits,
    ((Nat.toDigits 10 n).reverse.dropWhile (· = '0')).reverse = digits := ⟨_, rfl⟩
  rw [hd] at whole ⊢
  have value : n = Text.digitsValue digits * 10 ^ zeros := by
    have := Text.digitsValue_toDigits n
    rw [whole, Text.digitsValue_append, Text.digitsValue_replicate_zero, List.length_replicate]
      at this
    exact this.symm
  have all := Text.allDigits_toDigits n
  have first := Text.head?_toDigits some
  rw [whole] at all first
  have nonempty : digits ≠ [] := by
    rintro rfl
    rw [value] at some
    simp [Text.digitsValue] at some
  refine ⟨nonempty, fun c hc => all c (List.mem_append_left _ hc), ?_, ?_⟩
  · obtain ⟨d, ds, rfl⟩ := List.exists_cons_of_ne_nil nonempty
    exact first
  · have place : exponent + (Nat.toDigits 10 n).length - 1 + 1 - digits.length =
        exponent + zeros := by
      rw [whole, List.length_append, List.length_replicate]
      omega
    have same : (n : ℚ) * 10 ^ exponent =
        Text.digitsValue digits * 10 ^ (exponent + zeros) := by
      rw [zpow_add₀ (by norm_num), zpow_natCast, value, Nat.cast_mul, Nat.cast_pow,
        Nat.cast_ofNat]
      ring
    rw [place, ← same]
    exact hr

theorem shortest_spec (tie : Tie) {rank : ℕ} (h : 0 < rank) :
    Written rank (shortest tie rank).1 (shortest tie rank).2 := by
  unfold shortest
  dsimp only
  split
  · next hnone =>
    obtain ⟨n, hn⟩ := exists_onGrid tie h
    have none := List.findSome?_eq_none_iff.mp hnone (leadingExponent rank - (16 : ℕ))
      (List.mem_map_of_mem (List.mem_range.mpr (by norm_num)))
    simp [hn] at none
  · next n exponent hsome =>
    obtain ⟨e, -, he⟩ := List.exists_of_findSome?_eq_some hsome
    obtain ⟨n', hn, hpair⟩ := Option.map_eq_some_iff.mp he
    obtain ⟨rfl, rfl⟩ := Prod.mk.inj hpair
    exact .of_roundsTo h (roundsTo_of_onGrid hn)

end Workflow.Double
