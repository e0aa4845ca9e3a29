import Workflow.Text.Invisible

/-!
# Quoted text

The form in which a message shows a string it has met: between double quotes, with quotes,
backslashes and every character that would not be seen written as escapes.

## Main definitions

* `escape`: how one character is written
* `quoted`: how a string is written
-/

namespace Workflow.Text

/-- One character inside double quotes. Characters without a short escape that have no visible
form are written by their code point, in hexadecimal without leading zeros. -/
def escape (c : Char) : String :=
  if c = '\x00' then "\\0"
  else if c = '\t' then "\\t"
  else if c = '\r' then "\\r"
  else if c = '\n' then "\\n"
  else if c = '\\' then "\\\\"
  else if c = '\x22' then "\\\x22"
  else if isInvisible c then
    "\\u\x7b" ++ String.ofList (Nat.toDigits 16 c.toNat) ++ "\x7d"
  else c.toString

/-- A string between double quotes, each character written by `escape`. -/
def quoted (s : String) : String :=
  "\x22" ++ s.toList.foldl (fun text c => text ++ escape c) "" ++ "\x22"

end Workflow.Text
