import Workflow.Json.Basic
import Workflow.Json.Fault
import Workflow.Text.Digits
import Workflow.Text.Rest

/-!
# Tokens of JSON text

A text is cut into tokens from left to right. The first piece that is no token is kept as a broken
one and ends the list: whatever stands behind it is never looked at.

## Main definitions

* `Token`: the pieces of a text
* `scanString`, `scanNumber`, `scanWord`: the tokens that are more than one character
* `tokens`: the tokens of a text
-/

namespace Workflow.Json

open Text (Rest Tail byteLength digitsValue)

/-- A piece of JSON text. A broken piece knows whether it begins as a string. -/
inductive Token where
  | openArray
  | closeArray
  | openObject
  | closeObject
  | comma
  | colon
  | null
  | bool (value : Bool)
  | number (value : Number)
  | string (value : String)
  | broken (quoted : Bool) (fault : Fault)

/-- Whether a character may separate tokens. -/
def isSpace (c : Char) : Bool :=
  c == ' ' || c == '\t' || c == '\n' || c == '\r'

/-! ### Words -/

/-- Reads the characters of a word. -/
def scanWord : (word text : List Char) → Except Fault (Tail text)
  | [], text => .ok (Tail.whole text)
  | _ :: _, [] => .error .endOfValue
  | w :: word, c :: text =>
    if w = c then do
      let rest ← scanWord word text
      .ok (Tail.after c rest).toTail
    else .error .wordExpected

/-! ### Strings -/

/-- The value of a hexadecimal digit. -/
def hexDigit? (c : Char) : Option Nat :=
  if '0' ≤ c ∧ c ≤ '9' then some (c.toNat - '0'.toNat)
  else if 'a' ≤ c ∧ c ≤ 'f' then some (c.toNat - 'a'.toNat + 10)
  else if 'A' ≤ c ∧ c ≤ 'F' then some (c.toNat - 'A'.toNat + 10)
  else none

/-- Reads the four digits of an escape by number. Fewer than four bytes of text count as its end,
whatever they are. -/
def scanHex : (text : List Char) → Except Fault (Nat × Tail text)
  | a :: b :: c :: d :: text =>
    match hexDigit? a, hexDigit? b, hexDigit? c, hexDigit? d with
    | some w, some x, some y, some z =>
      .ok (((w * 16 + x) * 16 + y) * 16 + z, Tail.drop 4 (a :: b :: c :: d :: text))
    | _, _, _, _ => .error .invalidEscape
  | text => if byteLength text < 4 then .error .endOfString else .error .invalidEscape

/-- The character that a letter stands for after a backslash. -/
def shortEscape? (c : Char) : Option Char :=
  if c = '\x22' ∨ c = '\\' ∨ c = '/' then some c
  else if c = 'b' then some '\x08'
  else if c = 'f' then some '\x0c'
  else if c = 'n' then some '\n'
  else if c = 'r' then some '\r'
  else if c = 't' then some '\t'
  else none

/-- Reads the backslash and the letter that begin an escape by number. -/
def scanEscapeMark : (text : List Char) → Except Fault (Rest text)
  | [] => .error .endOfString
  | [c] => .error (if c = '\\' then .endOfString else .endOfEscape)
  | c :: d :: text =>
    if c = '\\' ∧ d = 'u' then .ok (Tail.after c (Tail.behind d text)) else .error .endOfEscape

/-- Reads the second half of a surrogate pair, and gives the pair's character. -/
def scanLowSurrogate (high : Nat) (text : List Char) : Except Fault (Char × Rest text) := do
  let digits ← scanEscapeMark text
  let (low, rest) ← scanHex digits.1
  if low < 0xDC00 ∨ 0xDFFF < low then .error .loneSurrogate
  else .ok (Char.ofNat (0x10000 + (high - 0xD800) * 0x400 + (low - 0xDC00)), digits.trans rest)

/-- Reads the character of an escape by number, which may take two escapes. -/
def scanCode (text : List Char) : Except Fault (Char × Tail text) := do
  let (code, rest) ← scanHex text
  if 0xDC00 ≤ code ∧ code ≤ 0xDFFF then .error .loneSurrogate
  else if 0xD800 ≤ code ∧ code ≤ 0xDBFF then
    let (c, last) ← scanLowSurrogate code rest.1
    .ok (c, rest.trans last.toTail)
  else .ok (Char.ofNat code, rest)

/-- Reads what follows a backslash. -/
def scanEscape : (text : List Char) → Except Fault (Char × Rest text)
  | [] => .error .endOfString
  | c :: text =>
    if c = 'u' then do
      let (code, rest) ← scanCode text
      .ok (code, Tail.after c rest)
    else
      match shortEscape? c with
      | some escaped => .ok (escaped, Rest.behind c text)
      | none => .error .invalidEscape

/-- Reads a string up to its closing quote. -/
def scanString (text : List Char) : Except Fault (List Char × Rest text) :=
  match text with
  | [] => .error .endOfString
  | c :: text =>
    if c = '\x22' then .ok ([], Rest.behind c text)
    else if c = '\\' then do
      let (escaped, rest) ← scanEscape text
      let (cs, last) ← scanString rest.1
      .ok (escaped :: cs, Tail.after c (rest.trans last.toTail).toTail)
    else if c < ' ' then .error .controlCharacter
    else do
      let (cs, rest) ← scanString text
      .ok (c :: cs, Tail.after c rest.toTail)
termination_by text.length
decreasing_by
  · exact Nat.lt_succ_of_lt rest.2
  · exact Nat.lt_succ_self _

/-! ### Numbers -/

/-- The number of a whole part alone. Minus zero and what is out of range become doubles. -/
def wholeNumber (negative : Bool) (digits : List Char) : Except Fault Number :=
  let n := digitsValue digits
  let exact := if negative then Whole.ofInt? (-n) else Whole.ofInt? n
  match exact with
  | some whole =>
    if negative ∧ n = 0 then .ok (.real .negativeZero) else .ok (.whole whole)
  | none =>
    match Double.ofDecimal negative ⟨n, 0⟩ with
    | .finite x => .ok (.real x)
    | _ => .error .numberOutOfRange

/-- The number of a whole part, a fraction and an exponent. -/
def realNumber (negative : Bool) (digits fraction : List Char) (exponent : Int) :
    Except Fault Number :=
  let magnitude : Decimal := ⟨digitsValue (digits ++ fraction), exponent - fraction.length⟩
  match Double.ofDecimal negative magnitude with
  | .finite x => .ok (.real x)
  | _ => .error .numberOutOfRange

/-- Reads all digits at the start of a text, of which there must be one. -/
def scanDigits : (text : List Char) → Except Fault (List Char × Rest text)
  | [] => .error .endOfValue
  | c :: text =>
    if c.isDigit then
      .ok (c :: text.takeWhile Char.isDigit,
        Tail.after c (Tail.dropWhile Char.isDigit text))
    else .error .invalidNumber

/-- Reads a sign, if there is one, and tells whether it is a minus. -/
def scanSign : (text : List Char) → Bool × Tail text
  | [] => (false, Tail.whole [])
  | c :: text =>
    if c = '-' then (true, Tail.behind c text)
    else if c = '+' then (false, Tail.behind c text)
    else (false, Tail.whole (c :: text))

/-- Reads an exponent, if there is one. -/
def scanExponent : (text : List Char) → Except Fault (Option Int × Tail text)
  | [] => .ok (none, Tail.whole [])
  | c :: text =>
    if c = 'e' ∨ c = 'E' then do
      let (negative, unsigned) := scanSign text
      let (digits, rest) ← scanDigits unsigned.1
      let value : Int := digitsValue digits
      .ok (some (if negative then -value else value),
        (Tail.after c (unsigned.trans rest.toTail)).toTail)
    else .ok (none, Tail.whole (c :: text))

/-- Reads a fraction, if there is one. -/
def scanFraction : (text : List Char) → Except Fault (Option (List Char) × Tail text)
  | [] => .ok (none, Tail.whole [])
  | c :: text =>
    if c = '.' then do
      let (digits, rest) ← scanDigits text
      .ok (some digits, (Tail.after c rest.toTail).toTail)
    else .ok (none, Tail.whole (c :: text))

/-- Reads the whole part of a number: a zero stands alone. -/
def scanWholePart (text : List Char) : Except Fault (List Char × Rest text) := do
  let (digits, rest) ← scanDigits text
  match digits with
  | '0' :: _ :: _ => .error .invalidNumber
  | digits => .ok (digits, rest)

/-- Reads a number after its sign. -/
def scanMagnitude (negative : Bool) (text : List Char) : Except Fault (Number × Rest text) := do
  let (digits, whole) ← scanWholePart text
  let (fraction, fractional) ← scanFraction whole.1
  let (exponent, rest) ← scanExponent fractional.1
  let value ← match fraction, exponent with
    | none, none => wholeNumber negative digits
    | fraction, exponent => realNumber negative digits (fraction.getD []) (exponent.getD 0)
  .ok (value, whole.trans (fractional.trans rest))

/-! ### Tokens -/

/-- Reads the token that begins with `c`. -/
def scan (c : Char) (text : List Char) : Except Token (Token × Tail text) :=
  let here := Tail.whole text
  let word (letters : List Char) (token : Token) : Except Token (Token × Tail text) :=
    match scanWord letters text with
    | .ok rest => .ok (token, rest)
    | .error fault => .error (.broken false fault)
  if c = '[' then .ok (.openArray, here)
  else if c = ']' then .ok (.closeArray, here)
  else if c = '\x7b' then .ok (.openObject, here)
  else if c = '\x7d' then .ok (.closeObject, here)
  else if c = ',' then .ok (.comma, here)
  else if c = ':' then .ok (.colon, here)
  else if c = 'n' then word ['u', 'l', 'l'] .null
  else if c = 't' then word ['r', 'u', 'e'] (.bool true)
  else if c = 'f' then word ['a', 'l', 's', 'e'] (.bool false)
  else if c = '\x22' then
    match scanString text with
    | .ok (cs, rest) => .ok (.string (String.ofList cs), rest.toTail)
    | .error fault => .error (.broken true fault)
  else if c = '-' then
    match scanMagnitude true text with
    | .ok (value, rest) => .ok (.number value, rest.toTail)
    | .error fault => .error (.broken false fault)
  else if c.isDigit then
    match scanMagnitude false (c :: text) with
    | .ok (value, rest) => .ok (.number value, rest.within)
    | .error fault => .error (.broken false fault)
  else .error (.broken false .valueExpected)

/-- The tokens of a text, up to the first broken one. -/
def tokens (text : List Char) : List Token :=
  match text with
  | [] => []
  | c :: text =>
    if isSpace c then tokens text
    else
      match scan c text with
      | .ok (token, rest) => token :: tokens rest.1
      | .error token => [token]
termination_by text.length
decreasing_by
  · exact Nat.lt_succ_self _
  · exact Nat.lt_succ_of_le rest.2

end Workflow.Json
