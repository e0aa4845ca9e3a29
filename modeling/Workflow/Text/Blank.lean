/-!
# White space

The characters that separate words, in the sense of the Unicode property White_Space. They may
not stand in a member name of a path, and they are skipped before the numbers of a date.

## Main definitions

* `isBlank`: whether a character is white space
-/

namespace Workflow.Text

/-- Whether a character has the Unicode property White_Space. -/
def isBlank (c : Char) : Bool :=
  let n := c.toNat
  (9 ≤ n && n ≤ 13) || n == 0x20 || n == 0x85 || n == 0xA0 || n == 0x1680 ||
    (0x2000 ≤ n && n ≤ 0x200A) || n == 0x2028 || n == 0x2029 || n == 0x202F || n == 0x205F ||
    n == 0x3000

end Workflow.Text
