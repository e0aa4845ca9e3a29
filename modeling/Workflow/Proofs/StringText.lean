import Mathlib.Tactic.IntervalCases
import Workflow.Json.Text
import Workflow.Json.Token
import Workflow.Proofs.Readers

/-!
# The text of a string reads back

Every character is written as itself, as a letter behind a backslash or by its number, and each of
the three is read as the character. So what is between the quotes of a string is read as the
string.

## Main results

* `scanEscape_short`, `scanEscape_control`: the two forms of an escape
* `scanString_escapeChar`: one character of a string, however it is written
* `scanString_flatMap`: the characters of a string up to its closing quote
-/

namespace Workflow.Json

open Text (Rest Tail LeavesWith)

/-! ### Escapes -/

theorem hexDigit?_digitChar {n : ℕ} (h : n < 16) : hexDigit? (Nat.digitChar n) = some n := by
  interval_cases n <;> rfl

/-- A letter behind a backslash is read as the character that it stands for. -/
theorem scanEscape_short {letter c : Char} (hu : letter ≠ 'u') (h : shortEscape? letter = some c)
    (rest : List Char) : LeavesWith (scanEscape (letter :: rest)) c rest := by
  rw [scanEscape, if_neg hu, h]
  exact Text.leavesWith_ok.mpr ⟨rfl, rfl⟩

/-- Four digits are read as a number. -/
theorem scanHex_digits {high low : ℕ} (hh : high < 16) (hl : low < 16) (rest : List Char) :
    LeavesWith (scanHex ('0' :: '0' :: Nat.digitChar high :: Nat.digitChar low :: rest))
      (high * 16 + low) rest := by
  have zero : hexDigit? '0' = some 0 := rfl
  simp only [scanHex, zero, hexDigit?_digitChar hh, hexDigit?_digitChar hl]
  exact Text.leavesWith_ok.mpr ⟨by omega, rfl⟩

/-- A control character is written by its number. -/
theorem scanEscape_control {c : Char} (h : c < ' ') (rest : List Char) :
    LeavesWith (scanEscape ('u' :: '0' :: '0' :: Nat.digitChar (c.toNat / 16) ::
      Nat.digitChar (c.toNat % 16) :: rest)) c rest := by
  have small : c.toNat < 32 := h
  obtain ⟨left, hr, hl⟩ := @scanHex_digits (c.toNat / 16) (c.toNat % 16) (by omega)
    (by omega) rest
  have code : c.toNat / 16 * 16 + c.toNat % 16 = c.toNat := Nat.div_add_mod' c.toNat 16
  rw [code] at hr
  refine ⟨Tail.after 'u' left, ?_, hl⟩
  have no_low : ¬(0xDC00 ≤ c.toNat ∧ c.toNat ≤ 0xDFFF) := by omega
  have no_high : ¬(0xD800 ≤ c.toNat ∧ c.toNat ≤ 0xDBFF) := by omega
  rw [scanEscape, if_pos rfl, scanCode, hr]
  simp only [ok_bind, if_neg no_low, if_neg no_high, Char.ofNat_toNat]

/-! ### Strings -/

/-- An escape and the characters behind it. -/
theorem scanString_escape {text afterEscape cs rest : List Char} {c : Char}
    (he : LeavesWith (scanEscape text) c afterEscape)
    (hs : LeavesWith (scanString afterEscape) cs rest) :
    LeavesWith (scanString ('\\' :: text)) (c :: cs) rest := by
  obtain ⟨escape, he, rfl⟩ := he
  obtain ⟨left, hs, rfl⟩ := hs
  rw [scanString, if_neg (by decide), if_pos rfl, he]
  simp only [ok_bind, hs]
  exact Text.leavesWith_ok.mpr ⟨rfl, rfl⟩

/-- A character that stands for itself and the characters behind it. -/
theorem scanString_plain {text cs rest : List Char} {c : Char} (hq : c ≠ '\x22') (hb : c ≠ '\\')
    (hc : ¬c < ' ') (hs : LeavesWith (scanString text) cs rest) :
    LeavesWith (scanString (c :: text)) (c :: cs) rest := by
  obtain ⟨left, hs, rfl⟩ := hs
  rw [scanString, if_neg hq, if_neg hb, if_neg hc]
  simp only [ok_bind, hs]
  exact Text.leavesWith_ok.mpr ⟨rfl, rfl⟩

/-- However a character is written, it is read as itself. -/
theorem scanString_escapeChar (c : Char) {text cs rest : List Char}
    (hs : LeavesWith (scanString text) cs rest) :
    LeavesWith (scanString (escapeChar c ++ text)) (c :: cs) rest := by
  have short (letter : Char) (hu : letter ≠ 'u') (h : shortEscape? letter = some c) :
      LeavesWith (scanString (['\\', letter] ++ text)) (c :: cs) rest :=
    scanString_escape (scanEscape_short hu h text) hs
  -- one case for each branch of `escapeChar`, in its order
  by_cases hq : c = '\x22'
  · subst hq
    exact short '\x22' (by simp) rfl
  by_cases hb : c = '\\'
  · subst hb
    exact short '\\' (by simp) rfl
  by_cases h8 : c = '\x08'
  · subst h8
    exact short 'b' (by simp) rfl
  by_cases hf : c = '\x0c'
  · subst hf
    exact short 'f' (by simp) rfl
  by_cases hn : c = '\n'
  · subst hn
    exact short 'n' (by simp) rfl
  by_cases hr : c = '\r'
  · subst hr
    exact short 'r' (by simp) rfl
  by_cases ht : c = '\t'
  · subst ht
    exact short 't' (by simp) rfl
  rw [escapeChar, if_neg hq, if_neg hb, if_neg h8, if_neg hf, if_neg hn, if_neg hr, if_neg ht]
  by_cases hc : c < ' '
  · rw [if_pos hc]
    exact scanString_escape (scanEscape_control hc text) hs
  · rw [if_neg hc]
    exact scanString_plain hq hb hc hs

/-- **The characters of a string are read up to its closing quote.** -/
theorem scanString_flatMap (cs rest : List Char) :
    LeavesWith (scanString (cs.flatMap escapeChar ++ '\x22' :: rest)) cs rest := by
  induction cs with
  | nil =>
    rw [List.flatMap_nil, List.nil_append, scanString, if_pos rfl]
    exact Text.leavesWith_ok.mpr ⟨rfl, rfl⟩
  | cons c cs ih =>
    rw [List.flatMap_cons, List.append_assoc]
    exact scanString_escapeChar c ih

end Workflow.Json
