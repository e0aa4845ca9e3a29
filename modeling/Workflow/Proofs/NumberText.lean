import Workflow.Double.Text
import Workflow.Json.Token
import Workflow.Proofs.Readers
import Workflow.Proofs.ShortestDigits

/-!
# The text of a number reads back

A number that is written for data is read as the number it was written for, whatever comes behind
it, as long as that does not go on like a number.

## Main definitions

* `numberChar`: the characters that go on with a number

## Main results

* `Double.ofDecimal_eq`: a decimal number with the digits of a double is that double
* `Json.scanMagnitude_magnitudeText`: the text of a double is read as the double
* `Json.scanMagnitude_toDigits`: the text of a whole number is read as the whole number
-/

namespace Workflow

open Text (Rest Tail Leaves LeavesWith Stops AllDigits digitsValue)

/-! ### Decimal numbers -/

namespace Double

/-- **A decimal number with the digits of a double is that double.** -/
theorem ofDecimal_eq {rank : Fin Format.double.size} {digits : List Char} {exponent : ℤ}
    (h0 : 0 < rank.val) (h : Written rank digits exponent) (negative : Bool) {d : Decimal}
    (hd : d.value = digitsValue digits * 10 ^ (exponent + 1 - digits.length)) :
    ofDecimal negative d = .finite ⟨negative, rank⟩ := by
  have nearest : d.nearest Format.double = rank :=
    Decimal.nearest_eq h0 rank.isLt (hd ▸ h.roundsTo)
  rw [ofDecimal, nearest, ofRank, dif_pos rank.isLt]

end Double

namespace Json

/-! ### The parts of a number -/

/-- The characters that go on with a number. -/
def numberChar (c : Char) : Bool :=
  c.isDigit || c == '.' || c == 'e' || c == 'E'

theorem scanDigits_append {digits rest : List Char} (hn : digits ≠ []) (hd : AllDigits digits)
    (hs : Stops Char.isDigit rest) : LeavesWith (scanDigits (digits ++ rest)) digits rest := by
  obtain ⟨c, more, rfl⟩ := List.exists_cons_of_ne_nil hn
  obtain ⟨hc, hm⟩ := List.forall_mem_cons.mp hd
  simp only [List.cons_append, scanDigits, hc, if_true, Text.leavesWith_ok,
    Text.takeWhile_append hm hs, true_and]
  exact Text.dropWhile_append hm hs

/-- A whole part has no zeros in front. -/
theorem scanWholePart_append {digits rest : List Char} (hn : digits ≠ []) (hd : AllDigits digits)
    (hz : digits = ['0'] ∨ digits.head? ≠ some '0') (hs : Stops Char.isDigit rest) :
    LeavesWith (scanWholePart (digits ++ rest)) digits rest := by
  obtain ⟨left, hr, hl⟩ := scanDigits_append hn hd hs
  refine ⟨left, ?_, hl⟩
  simp only [scanWholePart, hr, ok_bind]
  split
  · simp at hz
  · rfl

theorem scanFraction_none {text : List Char} (hs : Stops (· == '.') text) :
    LeavesWith (scanFraction text) none text := by
  cases text with
  | nil => exact ⟨_, rfl, rfl⟩
  | cons c text =>
    have no_point : c ≠ '.' := by simpa using hs c rfl
    exact ⟨Tail.whole _, by rw [scanFraction, if_neg no_point], rfl⟩

theorem scanFraction_some {digits rest : List Char} (hn : digits ≠ []) (hd : AllDigits digits)
    (hs : Stops Char.isDigit rest) :
    LeavesWith (scanFraction ('.' :: (digits ++ rest))) (some digits) rest := by
  obtain ⟨left, hr, hl⟩ := scanDigits_append hn hd hs
  refine ⟨Rest.toTail (Tail.after '.' (Rest.toTail left)), ?_, hl⟩
  simp only [scanFraction, if_true, hr, ok_bind]

theorem scanExponent_none {text : List Char} (hs : Stops (fun c => c == 'e' || c == 'E') text) :
    LeavesWith (scanExponent text) none text := by
  cases text with
  | nil => exact ⟨_, rfl, rfl⟩
  | cons c text =>
    have no_mark : ¬(c = 'e' ∨ c = 'E') := by simpa using hs c rfl
    exact ⟨Tail.whole _, by rw [scanExponent, if_neg no_mark], rfl⟩

theorem scanExponent_mark {text digits unsigned rest : List Char} {negative : Bool}
    (hn : (scanSign text).1 = negative) (hu : (scanSign text).2.1 = unsigned)
    (h : LeavesWith (scanDigits unsigned) digits rest) : LeavesWith (scanExponent ('e' :: text))
      (some (if negative then -digitsValue digits else digitsValue digits)) rest := by
  subst hn hu
  obtain ⟨left, hr, hl⟩ := h
  refine ⟨Rest.toTail (Tail.after 'e' ((scanSign text).2.trans (Rest.toTail left))), ?_, hl⟩
  simp only [scanExponent, true_or, if_true, hr, ok_bind]

/-- An exponent is written with its sign. -/
theorem scanExponent_some (exponent : ℤ) {rest : List Char} (hs : Stops Char.isDigit rest) :
    LeavesWith (scanExponent ('e' :: (if exponent < 0 then '-' else '+') ::
      (Nat.toDigits 10 exponent.natAbs ++ rest))) (some exponent) rest := by
  have read := scanDigits_append Nat.toDigits_ne_nil (Text.allDigits_toDigits exponent.natAbs) hs
  by_cases h : exponent < 0
  · have exponent' := @scanExponent_mark ('-' :: _) _ _ _ true rfl rfl read
    rw [Text.digitsValue_toDigits, if_pos rfl, Int.ofNat_natAbs_of_nonpos h.le, neg_neg]
      at exponent'
    rw [if_pos h]
    exact exponent'
  · have exponent' := @scanExponent_mark ('+' :: _) _ _ _ false rfl rfl read
    rw [Text.digitsValue_toDigits, if_neg Bool.false_ne_true,
      Int.natAbs_of_nonneg (Int.not_lt.mp h)] at exponent'
    rw [if_neg h]
    exact exponent'

/-- A number is read part by part. -/
theorem scanMagnitude_parts {negative : Bool}
    {text digits afterWhole afterFraction rest : List Char} {fraction : Option (List Char)}
    {exponent : Option ℤ} {value : Number}
    (hw : LeavesWith (scanWholePart text) digits afterWhole)
    (hf : LeavesWith (scanFraction afterWhole) fraction afterFraction)
    (he : LeavesWith (scanExponent afterFraction) exponent rest)
    (hv : (match fraction, exponent with
      | none, none => wholeNumber negative digits
      | fraction, exponent => realNumber negative digits (fraction.getD []) (exponent.getD 0)) =
        .ok value) :
    LeavesWith (scanMagnitude negative text) value rest := by
  obtain ⟨whole, hw, rfl⟩ := hw
  obtain ⟨fractional, hf, rfl⟩ := hf
  obtain ⟨left, he, rfl⟩ := he
  refine ⟨Rest.trans whole (Tail.trans fractional left), ?_, rfl⟩
  -- only where both are missing is the number a whole one
  rcases fraction with _ | fraction <;> rcases exponent with _ | exponent <;>
    simp only [Option.getD_none, Option.getD_some] at hv <;>
    simp [scanMagnitude, hw, hf, he, hv]

theorem Stops.of_numberChar {rest : List Char} (h : Stops numberChar rest) :
    Stops Char.isDigit rest ∧ Stops (· == '.') rest ∧
      Stops (fun c => c == 'e' || c == 'E') rest := by
  have each (c : Char) (hc : c ∈ rest.head?) :
      c.isDigit = false ∧ (c == '.') = false ∧ (c == 'e' || c == 'E') = false := by
    simpa [numberChar, and_assoc] using h c hc
  exact ⟨fun c hc => (each c hc).1, fun c hc => (each c hc).2.1, fun c hc => (each c hc).2.2⟩

/-- A number of a whole part alone. -/
theorem scanMagnitude_whole {negative : Bool} {digits rest : List Char} {value : Number}
    (hn : digits ≠ []) (hd : AllDigits digits) (hz : digits = ['0'] ∨ digits.head? ≠ some '0')
    (hs : Stops numberChar rest) (hv : wholeNumber negative digits = .ok value) :
    LeavesWith (scanMagnitude negative (digits ++ rest)) value rest := by
  obtain ⟨no_digit, no_point, no_mark⟩ := Stops.of_numberChar hs
  exact scanMagnitude_parts (scanWholePart_append hn hd hz no_digit) (scanFraction_none no_point)
    (scanExponent_none no_mark) hv

/-- The text of a whole number is read as the whole number. -/
theorem scanMagnitude_toDigits (n : Whole) {rest : List Char} (hs : Stops numberChar rest) :
    LeavesWith (scanMagnitude (n.val < 0) (Nat.toDigits 10 n.val.natAbs ++ rest)) (.whole n)
      rest := by
  have zero : Nat.toDigits 10 n.val.natAbs = ['0'] ∨
      (Nat.toDigits 10 n.val.natAbs).head? ≠ some '0' := by
    by_cases h : n.val.natAbs = 0
    · exact .inl (by rw [h]; rfl)
    · exact .inr (Text.head?_toDigits h)
  refine scanMagnitude_whole Nat.toDigits_ne_nil (Text.allDigits_toDigits _) zero hs ?_
  have held : Whole.ofInt? n.val = some n := dif_pos ⟨n.lower, n.upper⟩
  by_cases h : n.val < 0
  · have abs : -(n.val.natAbs : ℤ) = n.val := by omega
    -- minus zero would be a double
    have nonzero : n.val.natAbs ≠ 0 := by omega
    simp only [wholeNumber, Text.digitsValue_toDigits, h, decide_true, if_true, abs, held, nonzero,
      and_false, if_false]
  · have abs : (n.val.natAbs : ℤ) = n.val := by omega
    simp only [wholeNumber, Text.digitsValue_toDigits, h, decide_false, Bool.false_eq_true, abs,
      held, false_and, if_false]

/-! ### The text of a double -/

/-- A number that has a fraction or an exponent is the double whose digits it has. -/
theorem scanMagnitude_written {rank : Fin Double.Format.double.size} {digits : List Char}
    {first : ℤ} (h0 : 0 < rank.val) (h : Double.Written rank digits first) {negative : Bool}
    {text whole afterWhole afterFraction rest : List Char} {fraction : Option (List Char)}
    {exponent : Option ℤ} (hw : LeavesWith (scanWholePart text) whole afterWhole)
    (hf : LeavesWith (scanFraction afterWhole) fraction afterFraction)
    (he : LeavesWith (scanExponent afterFraction) exponent rest)
    (marked : fraction ≠ none ∨ exponent ≠ none)
    (hv : (digitsValue (whole ++ fraction.getD []) : ℚ) *
        10 ^ (exponent.getD 0 - (fraction.getD []).length) =
      digitsValue digits * 10 ^ (first + 1 - digits.length)) :
    LeavesWith (scanMagnitude negative text) (.real ⟨negative, rank⟩) rest := by
  refine scanMagnitude_parts hw hf he ?_
  have read := Double.ofDecimal_eq h0 h negative
    (d := ⟨digitsValue (whole ++ fraction.getD []), exponent.getD 0 - (fraction.getD []).length⟩) hv
  have real : realNumber negative whole (fraction.getD []) (exponent.getD 0) =
      .ok (.real ⟨negative, rank⟩) := by
    simp only [realNumber, read]
  split
  · simp at marked
  · exact real

/-- A number below one is written with zeros behind the point. -/
theorem scanMagnitude_below_one {rank : Fin Double.Format.double.size} {digits : List Char}
    {first : ℤ} (h0 : 0 < rank.val) (h : Double.Written rank digits first) (negative : Bool)
    (hf : first < 0) {rest : List Char} (hs : Stops numberChar rest) :
    LeavesWith (scanMagnitude negative
        (['0', '.'] ++ List.replicate (-first - 1).toNat '0' ++ digits ++ rest))
      (.real ⟨negative, rank⟩) rest := by
  obtain ⟨no_digit, -, no_mark⟩ := Stops.of_numberChar hs
  have whole := @scanWholePart_append ['0']
    ('.' :: (List.replicate (-first - 1).toNat '0' ++ digits ++ rest)) (by simp)
    (by simp [AllDigits]) (.inl rfl) (.cons rfl _)
  have fraction := scanFraction_some (List.append_ne_nil_of_right_ne_nil _ h.nonempty)
    ((Text.allDigits_replicate_zero (-first - 1).toNat).append h.allDigits) no_digit
  rw [List.append_assoc ['0', '.'], List.append_assoc ['0', '.']]
  refine scanMagnitude_written h0 h whole fraction (scanExponent_none no_mark)
    (.inl (Option.some_ne_none _)) ?_
  -- the zeros behind the point change the places and not the digits
  · have value : digitsValue (['0'] ++ (List.replicate (-first - 1).toNat '0' ++ digits)) =
        digitsValue digits := by
      rw [Text.digitsValue_append, Text.digitsValue_append, Text.digitsValue_replicate_zero]
      simp [digitsValue]
    have place : (0 : ℤ) - (List.replicate (-first - 1).toNat '0' ++ digits).length =
        first + 1 - digits.length := by
      rw [List.length_append, List.length_replicate]
      omega
    simp only [Option.getD_some, Option.getD_none, value, place]

/-- A whole number is written with zeros up to the point, and one behind it. -/
theorem scanMagnitude_integral {rank : Fin Double.Format.double.size} {digits : List Char}
    {first : ℤ} (h0 : 0 < rank.val) (h : Double.Written rank digits first) (negative : Bool)
    {zeros : ℕ} (hz : (digits.length : ℤ) + zeros = first + 1) {rest : List Char}
    (hs : Stops numberChar rest) :
    LeavesWith (scanMagnitude negative (digits ++ List.replicate zeros '0' ++ ['.', '0'] ++ rest))
      (.real ⟨negative, rank⟩) rest := by
  obtain ⟨no_digit, -, no_mark⟩ := Stops.of_numberChar hs
  have fraction := @scanFraction_some ['0'] rest (by simp) (by simp [AllDigits]) no_digit
  have leading : (digits ++ List.replicate zeros '0').head? ≠ some '0' := by
    obtain ⟨d, ds, rfl⟩ := List.exists_cons_of_ne_nil h.nonempty
    exact h.leading
  have whole := @scanWholePart_append _ ('.' :: ('0' :: rest))
    (List.append_ne_nil_of_left_ne_nil h.nonempty _)
    (h.allDigits.append (Text.allDigits_replicate_zero zeros)) (.inr leading) (.cons rfl _)
  rw [List.append_assoc _ ['.', '0']]
  refine scanMagnitude_written h0 h whole fraction (scanExponent_none no_mark)
    (.inl (Option.some_ne_none _)) ?_
  · have value : digitsValue (digits ++ List.replicate zeros '0' ++ ['0']) =
        digitsValue digits * 10 ^ zeros * 10 := by
      rw [Text.digitsValue_append, Text.digitsValue_append, Text.digitsValue_replicate_zero,
        List.length_replicate]
      simp [digitsValue]
    have place : first + 1 - digits.length = zeros := by omega
    simp only [Option.getD_some, Option.getD_none, value, place, List.length_singleton]
    push_cast
    rw [zpow_natCast, zpow_neg_one]
    ring

/-- Other numbers of a moderate size have the point between two of their digits. -/
theorem scanMagnitude_mixed {rank : Fin Double.Format.double.size} {digits : List Char}
    {first : ℤ} (h0 : 0 < rank.val) (h : Double.Written rank digits first) (negative : Bool)
    {count : ℕ} (hc : (count : ℤ) = first + 1) (hp : 0 < count) (hl : count < digits.length)
    {rest : List Char} (hs : Stops numberChar rest) :
    LeavesWith (scanMagnitude negative (digits.take count ++ '.' :: digits.drop count ++ rest))
      (.real ⟨negative, rank⟩) rest := by
  obtain ⟨no_digit, -, no_mark⟩ := Stops.of_numberChar hs
  have fraction := scanFraction_some (List.drop_eq_nil_iff.not.mpr (Nat.not_le.mpr hl))
    (fun c hc => h.allDigits c (List.mem_of_mem_drop hc)) no_digit
  have leading : (digits.take count).head? ≠ some '0' := by
    rw [List.head?_take, if_neg hp.ne']
    exact h.leading
  have whole := @scanWholePart_append _ ('.' :: (digits.drop count ++ rest))
    (by simpa [hp.ne'] using h.nonempty)
    (fun c hc => h.allDigits c (List.mem_of_mem_take hc)) (.inr leading) (.cons rfl _)
  rw [List.append_assoc]
  refine scanMagnitude_written h0 h whole fraction (scanExponent_none no_mark)
    (.inl (Option.some_ne_none _)) ?_
  · have place : (0 : ℤ) - (digits.drop count).length = first + 1 - digits.length := by
      rw [List.length_drop]
      omega
    simp only [Option.getD_some, Option.getD_none, List.take_append_drop, place]

/-- Very large and very small numbers have the point behind their first digit. -/
theorem scanMagnitude_scientificText {rank : Fin Double.Format.double.size} {digits : List Char}
    {first : ℤ} (h0 : 0 < rank.val) (h : Double.Written rank digits first) (negative : Bool)
    {rest : List Char} (hs : Stops numberChar rest) :
    LeavesWith (scanMagnitude negative (Double.scientificText digits first ++ rest))
      (.real ⟨negative, rank⟩) rest := by
  obtain ⟨no_digit, -, -⟩ := Stops.of_numberChar hs
  have exponent := scanExponent_some first no_digit
  obtain ⟨d, ds, rfl⟩ := List.exists_cons_of_ne_nil h.nonempty
  obtain ⟨hd, hds⟩ := List.forall_mem_cons.mp h.allDigits
  have leading : [d].head? ≠ some '0' := h.leading
  have whole {after : List Char} (ha : Stops Char.isDigit after) :=
    scanWholePart_append (by simp) (by simpa [AllDigits] using hd) (.inr leading) ha
  cases ds with
  | nil =>
    have text : Double.scientificText [d] first ++ rest = [d] ++ 'e' ::
        (if first < 0 then '-' else '+') :: (Nat.toDigits 10 first.natAbs ++ rest) := rfl
    rw [text]
    refine scanMagnitude_written h0 h (whole (.cons rfl _)) (scanFraction_none (.cons rfl _))
      exponent (.inr (Option.some_ne_none _)) ?_
    simp
  | cons d' ds =>
    have text : Double.scientificText (d :: d' :: ds) first ++ rest = [d] ++ '.' :: (d' :: ds ++
        'e' :: (if first < 0 then '-' else '+') :: (Nat.toDigits 10 first.natAbs ++ rest)) := by
      simp [Double.scientificText]
    rw [text]
    have fraction := @scanFraction_some (d' :: ds)
      ('e' :: (if first < 0 then '-' else '+') :: (Nat.toDigits 10 first.natAbs ++ rest))
      (by simp) hds (.cons rfl _)
    refine scanMagnitude_written h0 h (whole (.cons rfl _)) fraction exponent
      (.inl (Option.some_ne_none _)) ?_
    have place : first - (d' :: ds).length = first + 1 - (d :: d' :: ds).length := by
      simp only [List.length_cons]
      omega
    simp only [Option.getD_some, List.singleton_append, place]

theorem scanMagnitude_positionalText {rank : Fin Double.Format.double.size} {digits : List Char}
    {first : ℤ} (h0 : 0 < rank.val) (h : Double.Written rank digits first) (negative : Bool)
    {rest : List Char} (hs : Stops numberChar rest) :
    LeavesWith (scanMagnitude negative (Double.positionalText ['.', '0'] digits first ++ rest))
      (.real ⟨negative, rank⟩) rest := by
  by_cases hf : first < 0
  · have text : Double.positionalText ['.', '0'] digits first =
        ['0', '.'] ++ List.replicate (-first - 1).toNat '0' ++ digits := if_pos hf
    rw [text]
    exact scanMagnitude_below_one h0 h negative hf hs
  by_cases hl : digits.length ≤ first.toNat + 1
  · have text : Double.positionalText ['.', '0'] digits first =
        digits ++ List.replicate (first.toNat + 1 - digits.length) '0' ++ ['.', '0'] :=
      (if_neg hf).trans (if_pos hl)
    rw [text]
    exact scanMagnitude_integral h0 h negative (by omega) hs
  · have text : Double.positionalText ['.', '0'] digits first =
        digits.take (first.toNat + 1) ++ '.' :: digits.drop (first.toNat + 1) :=
      (if_neg hf).trans (if_neg hl)
    rw [text]
    exact scanMagnitude_mixed h0 h negative (by omega) (by omega) (by omega) hs

/-- Zero has no digit to begin with. -/
theorem scanMagnitude_zero (negative : Bool) {rest : List Char} (hs : Stops numberChar rest) :
    LeavesWith (scanMagnitude negative (Double.magnitudeText .data 0 ++ rest))
      (.real ⟨negative, ⟨0, by decide⟩⟩) rest := by
  obtain ⟨no_digit, -, no_mark⟩ := Stops.of_numberChar hs
  have whole := @scanWholePart_append ['0'] ('.' :: '0' :: rest) (by simp) (by simp [AllDigits])
    (.inl rfl) (.cons rfl _)
  have fraction := @scanFraction_some ['0'] rest (by simp) (by simp [AllDigits]) no_digit
  exact scanMagnitude_parts whole fraction (scanExponent_none no_mark) rfl

/-- **The text of a double is read as the double.** -/
theorem scanMagnitude_magnitudeText (x : Finite) {rest : List Char} (hs : Stops numberChar rest) :
    LeavesWith (scanMagnitude x.negative (Double.magnitudeText .data x.rank ++ rest))
      (.real x) rest := by
  obtain ⟨negative, rank⟩ := x
  by_cases hr : rank.val = 0
  · obtain rfl : rank = ⟨0, by decide⟩ := Fin.ext hr
    exact scanMagnitude_zero negative hs
  have h0 : 0 < rank.val := Nat.pos_of_ne_zero hr
  have written := Double.shortest_spec .even h0
  by_cases hp : Double.Layout.data.positional (Double.shortest .even rank.val).2
  · have text : Double.magnitudeText .data rank.val =
        Double.positionalText ['.', '0'] (Double.shortest .even rank.val).1
          (Double.shortest .even rank.val).2 := by
      unfold Double.magnitudeText
      rw [if_neg hr]
      exact if_pos hp
    rw [text]
    exact scanMagnitude_positionalText h0 written negative hs
  · have text : Double.magnitudeText .data rank.val =
        Double.scientificText (Double.shortest .even rank.val).1
          (Double.shortest .even rank.val).2 := by
      unfold Double.magnitudeText
      rw [if_neg hr]
      exact if_neg hp
    rw [text]
    exact scanMagnitude_scientificText h0 written negative hs

end Json

end Workflow
