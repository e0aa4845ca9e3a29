import Workflow.Json.Basic

/-!
# Data that may become JSON

A fixed result may be given as data of any shape. Numbers that JSON text could not give back
exactly, and keys that are no text, cannot be represented.

## Main definitions

* `Datum`: data of any shape
* `Datum.ofIntegerMap`: an ordered map with integers for keys
* `Datum.toJson`: the JSON value of data
-/

namespace Workflow

/-- The key of an entry. -/
inductive Datum.Key where
  | integer (n : Int)
  | text (s : String)
  | list
  deriving DecidableEq

/-- Data of any shape. -/
inductive Datum where
  | absent
  | integer (n : Int)
  | double (x : Double)
  | text (s : String)
  | list (items : List Datum)
  | keyed (entries : List (Datum.Key × Datum))

/-- Why data cannot be represented as JSON. -/
inductive Unrepresentable where
  | numberOutOfRange
  | keyNotText
  deriving DecidableEq

instance : Alike Unrepresentable := .ofEq Unrepresentable

/-- The message of a reason. -/
def Unrepresentable.message : Unrepresentable → String
  | numberOutOfRange => "number out of range"
  | keyNotText => "key must be a string"

namespace Datum

/-- Gives an integer a value in entries that ascend by their keys. -/
def insertInteger (key : Int) (value : String) :
    List (Int × String) → List (Int × String)
  | [] => [(key, value)]
  | (k, v) :: entries =>
    if key < k then (key, value) :: (k, v) :: entries
    else if key = k then (key, value) :: entries
    else (k, v) :: insertInteger key value entries

/-- A map from integers to text, ascending by its keys; of two values of a key the last one
counts. -/
def ofIntegerMap (entries : List (Int × String)) : Datum :=
  let ascending := entries.foldl (fun map entry => insertInteger entry.1 entry.2 map) []
  keyed (ascending.map fun entry => (.integer entry.1, .text entry.2))

/-- The text of a key, if it has one. -/
def Key.text? : Key → Option String
  | .integer n => some (toString n)
  | .text s => some s
  | .list => none

/-- The JSON value of an integer. -/
def ofInteger (n : Int) : Except Unrepresentable Json :=
  match Json.Whole.ofInt? n with
  | some whole => .ok (.number (.whole whole))
  | none => .error .numberOutOfRange

/-- The JSON value of a double; what is not finite is written as null. -/
def ofDouble : Double → Json
  | .finite x => .number (.real x)
  | _ => .null

mutual

/-- The JSON value of data. -/
def toJson : Datum → Except Unrepresentable Json
  | absent => .ok .null
  | integer n => ofInteger n
  | double x => .ok (ofDouble x)
  | text s => .ok (.string s)
  | list items => do
    let items ← toItems items
    .ok (.array items)
  | keyed entries => do
    let members ← toMembers entries
    .ok (.object (Json.merge members))

/-- The JSON values of a list. -/
def toItems : List Datum → Except Unrepresentable (List Json)
  | [] => .ok []
  | item :: items => do
    let item ← toJson item
    let items ← toItems items
    .ok (item :: items)

/-- The members of keyed data. -/
def toMembers : List (Key × Datum) → Except Unrepresentable (List (String × Json))
  | [] => .ok []
  | (key, value) :: entries =>
    match key.text? with
    | none => .error .keyNotText
    | some key => do
      let value ← toJson value
      let members ← toMembers entries
      .ok ((key, value) :: members)

end

end Datum

end Workflow
