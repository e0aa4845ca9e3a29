import Mathlib.Data.Nat.Digits.Defs
import Mathlib.Tactic.IntervalCases
import Workflow.Text.Digits

/-!
# Digits that are written and read

Writing a number in decimal digits and reading them gives the number back, with or without zeros
in front.

## Main results

* `digitsValue_toDigits`, `digitsValue_padded`: the digits of a number have its value
* `lt_pow_length_toDigits`, `pow_length_toDigits_le`: how many digits a number has
-/

namespace Workflow.Text

theorem digitsValue_eq (digits : List Char) :
    digitsValue digits = Nat.ofDigitChars 10 digits 0 := by
  simp [digitsValue, Nat.ofDigitChars_eq_foldl]

@[simp]
theorem digitsValue_toDigits (n : Nat) : digitsValue (Nat.toDigits 10 n) = n := by
  rw [digitsValue_eq, Nat.ofDigitChars_ten_toDigits]

theorem digitsValue_append (s t : List Char) :
    digitsValue (s ++ t) = digitsValue s * 10 ^ t.length + digitsValue t := by
  rw [digitsValue_eq, Nat.ofDigitChars_append, Nat.ofDigitChars_eq_ofDigitChars_zero,
    digitsValue_eq, digitsValue_eq, Nat.mul_comm]

@[simp]
theorem digitsValue_replicate_zero (n : Nat) : digitsValue (List.replicate n '0') = 0 := by
  rw [digitsValue_eq, Nat.ofDigitChars_replicate_zero, Nat.mul_zero]

theorem lt_pow_length_toDigits (n : Nat) : n < 10 ^ (Nat.toDigits 10 n).length :=
  (Nat.length_toDigits_le_iff (by omega) Nat.length_toDigits_pos).mp (Nat.le_refl _)

theorem pow_length_toDigits_le {n : Nat} (h : n ≠ 0) :
    10 ^ ((Nat.toDigits 10 n).length - 1) ≤ n := by
  by_cases hl : (Nat.toDigits 10 n).length - 1 = 0
  · rw [hl]
    omega
  · have shorter := @Nat.length_toDigits_le_iff 10 n _ (by omega) (Nat.pos_of_ne_zero hl)
    omega

/-- The digits of a positive number begin with no zero. -/
theorem head?_toDigits {n : Nat} (h : n ≠ 0) : (Nat.toDigits 10 n).head? ≠ some '0' := by
  induction n using Nat.strongRecOn with
  | ind n ih =>
    rw [Nat.toDigits_eq_if (by omega)]
    split
    · next hlt => interval_cases n <;> simp_all [Nat.digitChar]
    · next hge =>
      have first := ih (n / 10) (by omega) (by omega)
      obtain ⟨d, ds, hd⟩ := List.exists_cons_of_ne_nil (@Nat.toDigits_ne_nil (n / 10) 10)
      rw [hd] at first ⊢
      exact first

/-- Every character of a text is a decimal digit. -/
def AllDigits (text : List Char) : Prop := ∀ c ∈ text, c.isDigit = true

theorem allDigits_toDigits (n : Nat) : AllDigits (Nat.toDigits 10 n) :=
  fun _ hc => Nat.isDigit_of_mem_toDigits (by omega) (by omega) hc

theorem allDigits_replicate_zero (n : Nat) : AllDigits (List.replicate n '0') := by
  intro c hc
  obtain rfl := List.eq_of_mem_replicate hc
  rfl

theorem AllDigits.append {s t : List Char} (hs : AllDigits s) (ht : AllDigits t) :
    AllDigits (s ++ t) :=
  fun c hc => (List.mem_append.mp hc).elim (hs c) (ht c)

theorem allDigits_padded (width n : Nat) : AllDigits (padded width n) :=
  (allDigits_replicate_zero _).append (allDigits_toDigits n)

@[simp]
theorem digitsValue_padded (width n : Nat) : digitsValue (padded width n) = n := by
  simp [padded, digitsValue_append]

theorem length_padded {width n : Nat} (hw : 0 < width) (hn : n < 10 ^ width) :
    (padded width n).length = width := by
  have hl := Nat.toDigits_length 10 n width hw hn
  simp only [padded, List.length_append, List.length_replicate]
  omega

theorem digitsValue_cons (c : Char) (digits : List Char) :
    digitsValue (c :: digits) =
      (c.toNat - '0'.toNat) * 10 ^ digits.length + digitsValue digits := by
  have h := digitsValue_append [c] digits
  rwa [List.singleton_append, show digitsValue [c] = c.toNat - '0'.toNat by simp [digitsValue]] at h

theorem toNat_of_isDigit {c : Char} (h : c.isDigit = true) : 48 ≤ c.toNat ∧ c.toNat ≤ 57 := by
  simpa [Char.isDigit, UInt32.le_iff_toNat_le] using h

theorem digitsValue_lt {digits : List Char} (h : AllDigits digits) :
    digitsValue digits < 10 ^ digits.length := by
  induction digits with
  | nil => decide
  | cons c digits ih =>
    have hc := toNat_of_isDigit (h c List.mem_cons_self)
    have hd := ih fun d hd => h d (List.mem_cons_of_mem c hd)
    have hle : (c.toNat - '0'.toNat) * 10 ^ digits.length ≤ 9 * 10 ^ digits.length :=
      Nat.mul_le_mul_right _ (by rw [show '0'.toNat = 48 from rfl]; omega)
    rw [digitsValue_cons, List.length_cons, Nat.pow_succ]
    omega

/-- As many digits of the same value are the same digits. -/
theorem eq_of_digitsValue_eq {s t : List Char} (hs : AllDigits s) (ht : AllDigits t)
    (hl : s.length = t.length) (hv : digitsValue s = digitsValue t) : s = t := by
  induction s generalizing t with
  | nil => exact (List.length_eq_zero_iff.mp hl.symm).symm
  | cons c s ih =>
    obtain ⟨d, t, rfl⟩ := List.exists_cons_of_length_eq_add_one hl.symm
    have hc := toNat_of_isDigit (hs c List.mem_cons_self)
    have hd := toNat_of_isDigit (ht d List.mem_cons_self)
    have hs' : AllDigits s := fun e he => hs e (List.mem_cons_of_mem c he)
    have ht' : AllDigits t := fun e he => ht e (List.mem_cons_of_mem d he)
    have hl' : s.length = t.length := Nat.succ.inj hl
    have hlt := digitsValue_lt hs'
    have hlt' := digitsValue_lt ht'
    rw [digitsValue_cons, digitsValue_cons, hl'] at hv
    rw [hl'] at hlt
    -- what follows is less than one of the first place, so division leaves the first digits
    have hfirst : c.toNat - '0'.toNat = d.toNat - '0'.toNat := by
      have hdiv := congrArg (· / 10 ^ t.length) hv
      simpa [Nat.mul_comm _ (10 ^ t.length), Nat.mul_add_div (Nat.pow_pos (by omega : 0 < 10)),
        Nat.div_eq_of_lt hlt, Nat.div_eq_of_lt hlt'] using hdiv
    rw [hfirst] at hv
    have hrest : digitsValue s = digitsValue t := Nat.add_left_cancel hv
    rw [show '0'.toNat = 48 from rfl] at hfirst
    rw [ih hs' ht' hl' hrest, Char.toNat_inj.mp (by omega : c.toNat = d.toNat)]

/-- Digits are those of their value, filled up to their number. -/
theorem padded_digitsValue {digits : List Char} (h : AllDigits digits) (hne : digits ≠ []) :
    padded digits.length (digitsValue digits) = digits := by
  apply eq_of_digitsValue_eq (allDigits_padded _ _) h
  · exact length_padded (List.length_pos_iff.mpr hne) (digitsValue_lt h)
  · exact digitsValue_padded _ _

theorem byteLength_of_allDigits {digits : List Char} (h : AllDigits digits) :
    byteLength digits = digits.length := by
  induction digits with
  | nil => rfl
  | cons c digits ih =>
    have hc := toNat_of_isDigit (h c List.mem_cons_self)
    have hsize : c.utf8Size = 1 := by
      rw [Char.utf8Size, if_pos]
      simp only [UInt32.le_iff_toNat_le]
      exact Nat.le_trans hc.2 (by decide)
    rw [byteLength, hsize, ih fun d hd => h d (List.mem_cons_of_mem c hd), List.length_cons,
      Nat.add_comm]

end Workflow.Text
