import Workflow.Json.Text
import Workflow.Json.Written
import Workflow.State.Basic
import Workflow.Text.Quoted

/-!
# Problems of shape

What can be wrong with a document as such, before anything is asked about the machine it defines:
values of the wrong kind, and keys that are unknown, repeated or missing.

## Main definitions

* `Found`, `Wanted`: what stands in a place, and what should
* `Problem`: what is wrong with a document
* `Problem.message`: how it is said
-/

namespace Workflow.Document

/-- What stands in a place where something else should. -/
inductive Found where
  | boolean (value : Bool)
  | integer (n : Int)
  | real (x : Finite)
  | string (text : String)
  | null
  | map
  | sequence
  deriving DecidableEq

/-- How a message names what it has found. -/
def Found.text : Found → String
  | boolean value => if value then "boolean `true`" else "boolean `false`"
  | integer n => "integer `" ++ toString n ++ "`"
  | real x => "floating point `" ++ String.ofList (x.text .data) ++ "`"
  | string text => "string " ++ Text.quoted text
  | null => "null"
  | map => "map"
  | sequence => "sequence"

/-- What should stand in a place. -/
inductive Wanted where
  | string
  | boolean
  | natural32
  | natural64
  | double
  | selector
  | list
  | rule
  | kind
  | states
  | state
  | structure (title : String)
  deriving DecidableEq

/-- How a message names what it wants. -/
def Wanted.text : Wanted → String
  | string => "a string"
  | boolean => "a boolean"
  | natural32 => "u32"
  | natural64 => "u64"
  | double => "f64"
  | selector => "a path string or null"
  | list => "a sequence"
  | rule => "a map"
  | kind => "variant identifier"
  | states => "an object mapping state names to states"
  | state => "internally tagged enum StateDocument"
  | .structure title => "struct " ++ title

/-- What is wrong with a document. -/
inductive Problem where
  | fault (fault : Json.Fault)
  | unknownField (name : String) (known : List String)
  | duplicateField (name : String)
  | missingField (name : String)
  | unknownKind (name : String)
  | kindNumber (n : Int)
  | wrongType (found : Found) (wanted : Wanted)
  | outOfRange (n : Int) (wanted : Wanted)
  | tooFew (count : Nat) (title : String) (size : Nat)
  | tooMany (count size : Nat)
  | tooManyItems (count : Nat)
  | inState (name : String) (problem : Problem)
  deriving DecidableEq

/-- The alternatives of a message. -/
def oneOf (names : List String) : String :=
  "one of " ++ ", ".intercalate (names.map fun name => "`" ++ name ++ "`")

/-- The message of a problem. -/
def Problem.message : Problem → String
  | .fault reason => reason.message
  | unknownField name known => "unknown field `" ++ name ++ "`, expected " ++ oneOf known
  | duplicateField name => "duplicate field `" ++ name ++ "`"
  | missingField name => "missing field `" ++ name ++ "`"
  | unknownKind name =>
    "unknown variant `" ++ name ++ "`, expected " ++ oneOf (StateKind.all.map StateKind.name)
  | kindNumber n =>
    "invalid value: integer `" ++ toString n ++ "`, expected variant index 0 <= i < 7"
  | wrongType found wanted => "invalid type: " ++ found.text ++ ", expected " ++ wanted.text
  | outOfRange n wanted =>
    "invalid value: integer `" ++ toString n ++ "`, expected " ++ wanted.text
  | tooFew count title size =>
    "invalid length " ++ toString count ++ ", expected struct " ++ title ++ " with " ++
      toString size ++ " elements"
  | tooMany count size =>
    "invalid length " ++ toString count ++ ", expected " ++ toString size ++
      " elements in sequence"
  | tooManyItems count =>
    "invalid length " ++ toString count ++ ", expected fewer elements in array"
  | .inState name problem => "state '" ++ name ++ "': " ++ problem.message

/-- The result of reading a part of a document. -/
abbrev Reading (α : Type) := Except Problem α

/-- The problem that a value is not what is wanted, or the fault that keeps it from being
read. -/
def unwanted (wanted : Wanted) : Written → Problem
  | .null => .wrongType .null wanted
  | .bool value => .wrongType (.boolean value) wanted
  | .number (.whole n) => .wrongType (.integer n.val) wanted
  | .number (.real x) => .wrongType (.real x) wanted
  | .string text => .wrongType (.string text) wanted
  | .array _ _ => .wrongType .sequence wanted
  | .object _ _ => .wrongType .map wanted
  | .broken fault => .fault fault

end Workflow.Document
