import Workflow.Draft.Field
import Workflow.Time.Reader

/-!
# Rules and conditions as JSON objects

A comparison is an object with the path under `Variable` and the expected value under the name of
its comparator. A combination has its parts under `And`, `Or` or `Not` and nothing else. A rule
is a condition with the name of a state under `Next`.

## Main definitions

* `Rule.toMembers`, `Condition.toMembers`: the objects that are written
* `RuleProblem`: what is wrong with an object
* `Draft.Rule.ofMembers`, `Draft.Condition.ofMembers`: the drafts that are read
-/

namespace Workflow

/-! ### Writing -/

/-- The value of an expected value. A number that is not finite has none and is written as
null. -/
def Expected.toJson : Expected → Json
  | string text => .string text
  | numeric (.integer n) => .number (.whole (.ofInt64 n))
  | numeric (.double x) => Datum.ofDouble x
  | timestamp instant => .string instant.text
  | boolean value => .bool value

namespace Condition

mutual

/-- The members of the object of a condition. -/
def toMembers : Condition → List (String × Json)
  | comparison c => [("Variable", .string c.path), (c.comparator.key, c.expected.toJson)]
  | and parts => [("And", .array (toItems parts))]
  | or parts => [("Or", .array (toItems parts))]
  | not part => [("Not", .object (toMembers part))]

/-- The objects of the parts of a combination. -/
def toItems : List Condition → List Json
  | [] => []
  | part :: parts => .object (toMembers part) :: toItems parts

end

end Condition

/-- The members of the object of a rule. -/
def Rule.toMembers (r : Rule) : List (String × Json) :=
  r.condition.toMembers ++
    (r.next?.map fun name => ("Next", Json.string name)).toList

/-! ### Reading -/

/-- What is wrong with the object of a rule or a condition. -/
inductive RuleProblem where
  | nextMissing
  | nextNotText (found : Json)
  | nothingAsked
  | severalAsked (keys : List String)
  | variableUnasked (key : String)
  | variableMissing (key : String)
  | variableNotText (found : Json)
  | unknownKey (key : String)
  | wrongValue (key : String) (family : Family) (found : Json)
  | partsNotList (key : String) (found : Json)
  | partNotObject (key : String) (index : Nat) (found : Json)
  | negatedNotObject (found : Json)
  | inPart (key : String) (index : Nat) (problem : RuleProblem)
  | inNegated (problem : RuleProblem)

/-- The message of a problem. -/
def RuleProblem.message : RuleProblem → String
  | nextMissing => "'Next' is required"
  | nextNotText found => "'Next' must be a string, found " ++ found.compact
  | nothingAsked => "expected a comparator, 'And', 'Or' or 'Not'"
  | severalAsked keys =>
    "expected exactly one comparator or combinator, found " ++ ", ".intercalate keys
  | variableUnasked key => "'Variable' cannot be used with '" ++ key ++ "'"
  | variableMissing key => "'Variable' is required with '" ++ key ++ "'"
  | variableNotText found => "'Variable' must be a string, found " ++ found.compact
  | unknownKey key => "unknown key '" ++ key ++ "'"
  | wrongValue key family found =>
    "'" ++ key ++ "' expects a " ++ family.name ++ " value, found " ++ found.compact
  | partsNotList key found => "'" ++ key ++ "' must be an array, found " ++ found.compact
  | partNotObject key index found =>
    key ++ "[" ++ toString index ++ "] must be an object, found " ++ found.compact
  | negatedNotObject found => "'Not' must be an object, found " ++ found.compact
  | inPart key index problem => key ++ "[" ++ toString index ++ "]: " ++ problem.message
  | inNegated problem => "Not: " ++ problem.message

/-- The expected value of a family that a value says. A whole number that is no integer of 64
bits is taken as a double. -/
def Expected.ofJson? : Family → Json → Option Expected
  | .string, .string text => some (.string text)
  | .numeric, .number (.whole n) =>
    match n.toInt64? with
    | some integer => some (.numeric (.integer integer))
    | none => some (.numeric (.double (.ofInt n.val)))
  | .numeric, .number (.real x) => some (.numeric (.double (.finite x)))
  | .timestamp, .string text =>
    match Timestamp.parse text with
    | .ok instant => some (.timestamp instant)
    | .error _ => none
  | .boolean, .bool value => some (.boolean value)
  | _, _ => none

namespace Draft

/-- What a key of a condition asks for. -/
inductive Asked where
  | and
  | or
  | not
  | comparison

/-- What a key asks for; all but three keys should be names of comparators. -/
def Asked.ofKey (key : String) : Asked :=
  if key = "And" then .and else if key = "Or" then .or else if key = "Not" then .not
  else .comparison

/-- The keys of an object besides the one of the path. -/
def askedKeys (members : List (String × Json)) : List String :=
  (members.map Prod.fst).filter (· ≠ "Variable")

/-- Looks at the path of an object that asks for exactly one thing. -/
def askedOnce {α : Type} (members : List (String × Json))
    (answer : Option Json → Except RuleProblem α) : Except RuleProblem α :=
  match askedKeys members with
  | [] => .error .nothingAsked
  | [_] => answer (Json.get? "Variable" members)
  | keys => .error (.severalAsked keys)

/-- Checks that a combination has no path. -/
def withoutVariable (key : String) : Option Json → Except RuleProblem Unit
  | none => .ok ()
  | some _ => .error (.variableUnasked key)

namespace Condition

/-- The comparison that a key and its value ask for. -/
def ofComparison (subject : Option Json) (key : String) (value : Json) :
    Except RuleProblem Condition := do
  let comparator ← match Comparator.ofKey? key with
    | none => throw (.unknownKey key)
    | some comparator => pure comparator
  let path ← match subject with
    | none => throw (.variableMissing key)
    | some (.string path) => pure path
    | some other => throw (.variableNotText other)
  match Expected.ofJson? comparator.family value with
  | none => throw (.wrongValue key comparator.family value)
  | some expected => return .comparison comparator.operator path expected

mutual

/-- The condition of an object that asks for exactly one thing. -/
def ofAsked (subject : Option Json) : List (String × Json) → Except RuleProblem Condition
  | [] => .error .nothingAsked
  | (key, value) :: members =>
    if key = "Variable" then ofAsked subject members
    else
      match Asked.ofKey key with
      | .and => do
        withoutVariable key subject
        let parts ← ofParts key value
        .ok (.and parts)
      | .or => do
        withoutVariable key subject
        let parts ← ofParts key value
        .ok (.or parts)
      | .not => do
        withoutVariable key subject
        let part ← ofNegated value
        .ok (.not part)
      | .comparison => ofComparison subject key value

/-- The parts of a combination. -/
def ofParts (key : String) : Json → Except RuleProblem (List Condition)
  | .array items => ofItems key 0 items
  | other => .error (.partsNotList key other)

/-- The parts of a combination from an index on. -/
def ofItems (key : String) (index : Nat) : List Json → Except RuleProblem (List Condition)
  | [] => .ok []
  | item :: items => do
    let part ← ofItem key index item
    let parts ← ofItems key (index + 1) items
    .ok (part :: parts)

/-- One part of a combination. -/
def ofItem (key : String) (index : Nat) : Json → Except RuleProblem Condition
  | .object members =>
    (askedOnce members fun subject => ofAsked subject members).mapError (.inPart key index)
  | other => .error (.partNotObject key index other)

/-- The negated part of a negation. -/
def ofNegated : Json → Except RuleProblem Condition
  | .object members =>
    (askedOnce members fun subject => ofAsked subject members).mapError .inNegated
  | other => .error (.negatedNotObject other)

end

/-- The condition of an object. -/
def ofMembers (members : List (String × Json)) : Except RuleProblem Condition :=
  askedOnce members fun subject => ofAsked subject members

end Condition

/-- The rule of an object. The name of the state is taken out first. -/
def Rule.ofMembers (members : List (String × Json)) : Except RuleProblem Rule := do
  let next ← match Json.get? "Next" members with
    | none => throw .nextMissing
    | some (.string next) => pure next
    | some other => throw (.nextNotText other)
  let condition ← Condition.ofMembers (Json.erase "Next" members)
  return ⟨some condition, some (.next next)⟩

end Draft

end Workflow
