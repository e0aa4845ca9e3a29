import Workflow.Json.Basic
import Workflow.Double.Text

/-!
# JSON as text

Two layouts of one document. The compact one has no spaces; the pretty one puts every item and
every member on a line of its own, indented by two spaces for each container around it. Empty
containers are written alike in both.

## Main definitions

* `Json.compact`, `Json.pretty`: the text of a value
-/

namespace Workflow.Json

/-- One character inside a string. Only quotes, backslashes and control characters are
escaped. -/
def escapeChar (c : Char) : List Char :=
  if c = '\x22' then ['\\', '\x22']
  else if c = '\\' then ['\\', '\\']
  else if c = '\x08' then ['\\', 'b']
  else if c = '\x0c' then ['\\', 'f']
  else if c = '\n' then ['\\', 'n']
  else if c = '\r' then ['\\', 'r']
  else if c = '\t' then ['\\', 't']
  else if c < ' ' then
    ['\\', 'u', '0', '0', Nat.digitChar (c.toNat / 16), Nat.digitChar (c.toNat % 16)]
  else [c]

/-- A string between quotes. -/
def stringText (s : String) : List Char :=
  '\x22' :: s.toList.flatMap escapeChar ++ ['\x22']

/-- The text of a number: whole numbers in full, doubles in their form for data. -/
def Number.text : Number → List Char
  | whole n => (toString n.val).toList
  | real x => x.text Double.Layout.data

/-- How the parts of a container are set off: what stands before every part, what stands before
the closing bracket, and what stands behind the colon of a member. -/
structure Layout where
  partBreak : Nat → List Char
  closeBreak : Nat → List Char
  afterColon : List Char

/-- The layout without spaces. -/
def Layout.compact : Layout := ⟨fun _ => [], fun _ => [], []⟩

/-- The layout with one part a line. -/
def Layout.pretty : Layout :=
  ⟨fun depth => '\n' :: List.replicate (2 * (depth + 1)) ' ',
    fun depth => '\n' :: List.replicate (2 * depth) ' ', [' ']⟩

mutual

/-- The text of a value inside `depth` containers. -/
def text (layout : Layout) (depth : Nat) : Json → List Char
  | null => ['n', 'u', 'l', 'l']
  | bool value => if value then ['t', 'r', 'u', 'e'] else ['f', 'a', 'l', 's', 'e']
  | number value => value.text
  | string value => stringText value
  | array [] => ['[', ']']
  | array (item :: items) =>
    '[' :: layout.partBreak depth ++ text layout (depth + 1) item ++
      itemsText layout depth items ++ layout.closeBreak depth ++ [']']
  | object [] => ['\x7b', '\x7d']
  | object ((key, value) :: members) =>
    '\x7b' :: layout.partBreak depth ++ stringText key ++ ':' :: layout.afterColon ++
      text layout (depth + 1) value ++ membersText layout depth members ++
      layout.closeBreak depth ++ ['\x7d']

/-- The text of the items behind the first one. -/
def itemsText (layout : Layout) (depth : Nat) : List Json → List Char
  | [] => []
  | item :: items =>
    ',' :: layout.partBreak depth ++ text layout (depth + 1) item ++ itemsText layout depth items

/-- The text of the members behind the first one. -/
def membersText (layout : Layout) (depth : Nat) : List (String × Json) → List Char
  | [] => []
  | (key, value) :: members =>
    ',' :: layout.partBreak depth ++ stringText key ++ ':' :: layout.afterColon ++
      text layout (depth + 1) value ++ membersText layout depth members

end

/-- The text of a value without spaces. -/
def compact (value : Json) : String :=
  String.ofList (value.text .compact 0)

/-- The text of a value with one item or member a line. -/
def pretty (value : Json) : String :=
  String.ofList (value.text .pretty 0)

end Workflow.Json
