import Workflow.Json.Token

/-!
# Written values

What a text says, as far as it can be read: every member of an object is kept, repeated keys
included, and where the text stops being JSON the fault stands in the place where it was met. A
value can so be examined in the order of the text, and what is wrong with its shape before the
fault is found before the fault.

Reading is one pass over the tokens with the containers that are still open on a stack, so it ends
because the tokens do, and the limit on nesting is a limit on the height of the stack.

## Main definitions

* `Written`: what is written at a place where a value should be
* `Written.read`: what a list of tokens says
* `Written.ofText`: what a text says
* `Written.toJson`: the value, if nothing is wrong with it
* `Json.parse`: the value of a text
* `Json.written`: a value as it could be written
-/

namespace Workflow

/-- What is written where a value should be. The fault of a container is met after the items or
members that could be read. -/
inductive Written where
  | null
  | bool (value : Bool)
  | number (value : Json.Number)
  | string (value : String)
  | array (items : List Written) (fault : Option Json.Fault)
  | object (members : List (String × Written)) (fault : Option Json.Fault)
  | broken (fault : Json.Fault)

namespace Written

open Json (Fault Token)

/-- A container that waits for a value, with what it holds so far, last first. -/
inductive Frame where
  | array (items : List Written)
  | object (members : List (String × Written)) (key : String)

/-- What may come next. The places between the parts of a container hold what was read of it,
last first. -/
inductive Place where
  | value
  | arrayStart
  | afterItem (items : List Written)
  | objectStart
  | afterMember (members : List (String × Written))
  | key (members : List (String × Written))
  | colon (members : List (String × Written)) (key : String)
  | finished (value : Written)

/-- The containers that may be open at once. -/
def maxDepth : Nat := 127

/-- Puts a value that has been read in its place. -/
def deliver (value : Written) : List Frame → Place × List Frame
  | [] => (.finished value, [])
  | .array items :: stack => (.afterItem (value :: items), stack)
  | .object members key :: stack => (.afterMember ((key, value) :: members), stack)

/-- Closes every open container where the text went wrong. -/
def abandon (fault : Fault) (value : Written) : List Frame → Written
  | [] => value
  | .array items :: stack => abandon fault (.array (value :: items).reverse (some fault)) stack
  | .object members key :: stack =>
    abandon fault (.object ((key, value) :: members).reverse (some fault)) stack

/-- The value that is left when the text goes wrong at a place. -/
def Place.broken (fault : Fault) : Place → Written
  | value => .broken fault
  | arrayStart => .array [] (some fault)
  | afterItem items => .array items.reverse (some fault)
  | objectStart => .object [] (some fault)
  | afterMember members | key members => .object members.reverse (some fault)
  | colon members name => .object ((name, .broken fault) :: members).reverse (some fault)
  | finished result => result

/-- What is wrong when the text ends at a place. -/
def Place.endFault : Place → Fault
  | value | key _ | finished _ => .endOfValue
  | arrayStart | afterItem _ => .endOfList
  | objectStart | afterMember _ | colon _ _ => .endOfObject

/-- The place after a token that begins a value. -/
def begin (stack : List Frame) : Token → Except Fault (Place × List Frame)
  | .openArray => if stack.length < maxDepth then .ok (.arrayStart, stack) else .error .tooDeep
  | .openObject => if stack.length < maxDepth then .ok (.objectStart, stack) else .error .tooDeep
  | .null => .ok (deliver .null stack)
  | .bool value => .ok (deliver (.bool value) stack)
  | .number value => .ok (deliver (.number value) stack)
  | .string value => .ok (deliver (.string value) stack)
  | .broken _ fault => .error fault
  | .closeArray =>
    match stack with
    | .array _ :: _ => .error .trailingComma
    | _ => .error .valueExpected
  | .closeObject | .comma | .colon => .error .valueExpected

/-- The place after one more token. -/
def advance (stack : List Frame) : Place → Token → Except Fault (Place × List Frame)
  | .value, token => begin stack token
  | .arrayStart, .closeArray => .ok (deliver (.array [] none) stack)
  | .arrayStart, token => begin (.array [] :: stack) token
  | .afterItem items, .comma => .ok (.value, .array items :: stack)
  | .afterItem items, .closeArray => .ok (deliver (.array items.reverse none) stack)
  | .afterItem _, _ => .error .listSeparatorExpected
  | .objectStart, .string key => .ok (.colon [] key, stack)
  | .objectStart, .closeObject => .ok (deliver (.object [] none) stack)
  | .objectStart, .broken true fault => .error fault
  | .objectStart, _ => .error .keyNotString
  | .afterMember members, .comma => .ok (.key members, stack)
  | .afterMember members, .closeObject => .ok (deliver (.object members.reverse none) stack)
  | .afterMember _, _ => .error .objectSeparatorExpected
  | .key members, .string key => .ok (.colon members key, stack)
  | .key _, .closeObject => .error .trailingComma
  | .key _, .broken true fault => .error fault
  | .key _, _ => .error .keyNotString
  | .colon members key, .colon => .ok (.value, .object members key :: stack)
  | .colon _ _, _ => .error .colonExpected
  | .finished value, _ => .ok (.finished value, stack)

/-- Reads a value, and gives the tokens behind it. Nothing is read behind a fault. -/
def read (place : Place) (stack : List Frame) : List Token → Written × List Token
  | [] =>
    match place with
    | .finished value => (value, [])
    | place => (abandon place.endFault (place.broken place.endFault) stack, [])
  | token :: tokens =>
    match place with
    | .finished value => (value, token :: tokens)
    | place =>
      match advance stack place token with
      | .ok (place, stack) => read place stack tokens
      | .error fault => (abandon fault (place.broken fault) stack, [])

/-- What a text says, and what is wrong behind its value. -/
def ofText (text : String) : Written × Option Fault :=
  match read .value [] (Json.tokens text.toList) with
  | (value, []) => (value, none)
  | (value, _ :: _) => (value, some .trailingCharacters)

mutual

/-- The value that is written, or the first fault in it. A repeated key keeps its first place and
its last value. -/
def toJson : Written → Except Fault Json
  | null => .ok .null
  | bool value => .ok (.bool value)
  | number value => .ok (.number value)
  | string value => .ok (.string value)
  | array items fault => do
    let items ← toItems items
    match fault with
    | none => .ok (.array items)
    | some fault => .error fault
  | object members fault => do
    let members ← toMembers members
    match fault with
    | none => .ok (.object (Json.merge members))
    | some fault => .error fault
  | broken fault => .error fault

/-- The values of items, or the first fault in them. -/
def toItems : List Written → Except Fault (List Json)
  | [] => .ok []
  | item :: items => do
    let item ← toJson item
    let items ← toItems items
    .ok (item :: items)

/-- The members as they are written, or the first fault in them. -/
def toMembers : List (String × Written) → Except Fault (List (String × Json))
  | [] => .ok []
  | (key, value) :: members => do
    let value ← toJson value
    let members ← toMembers members
    .ok ((key, value) :: members)

end

end Written

namespace Json

/-- The value of a text, or the first thing that is wrong with it. -/
def parse (text : String) : Except Fault Json := do
  let (value, behind) := Written.ofText text
  let value ← value.toJson
  match behind with
  | none => .ok value
  | some fault => .error fault

mutual

/-- A value as it could be written. -/
def written : Json → Written
  | null => .null
  | bool value => .bool value
  | number value => .number value
  | string value => .string value
  | array items => .array (writtenItems items) none
  | object members => .object (writtenMembers members) none

/-- Items as they could be written. -/
def writtenItems : List Json → List Written
  | [] => []
  | item :: items => written item :: writtenItems items

/-- Members as they could be written. -/
def writtenMembers : List (String × Json) → List (String × Written)
  | [] => []
  | (key, value) :: members => (key, written value) :: writtenMembers members

end

end Json

end Workflow
