import Workflow.Document.Schema

/-!
# Reading documents

The document that a value says, or the first problem with it. A machine and its states are
examined in the order of the text. A state is first read to its end, except that its kind is
looked at where it is met; only then are its other fields examined. A state given twice keeps its
first place and its last definition, but every definition of it is examined.

Inside the branches of a state, the kind of a state may also be given by its number, counted from
zero.

## Main definitions

* `kindOfMembers`, `body`: the kind of a state, and the rest of it
* `State.read`: the document of a state
* `Machine.ofWritten`: the document of a machine
-/

namespace Workflow.Document

variable {δ : Type}

/-! ### States -/

/-- The key of the kind of a state. -/
def kindKey : String := "Type"

/-- Reads the kind of a state. Inside branches it may be given by its number. -/
def readKind (nested : Bool) : Written → Reading StateKind
  | .string name =>
    match StateKind.all.find? fun kind => kind.name == name with
    | some kind => .ok kind
    | none => .error (.unknownKind name)
  | .number (.whole n) =>
    if nested && 0 ≤ n.val then
      match StateKind.all[n.val.toNat]? with
      | some kind => .ok kind
      | none => .error (.kindNumber n.val)
    else .error (.wrongType (.integer n.val) .kind)
  | written => .error (unwanted .kind written)

/-- Reads a value only to see that it is one. -/
def pass (written : Written) : Reading Unit :=
  (anything written).map fun _ => ()

/-- The kind of a state that is an object. All of it is read, and the kind is looked at where it
is met. -/
def kindOfMembers (nested : Bool) (kind : Option StateKind) :
    List (String × Written) → Option Json.Fault → Reading StateKind
  | [], some fault => .error (.fault fault)
  | [], none =>
    match kind with
    | some kind => .ok kind
    | none => .error (.missingField kindKey)
  | (key, value) :: members, fault =>
    if key = kindKey then
      if kind.isSome then .error (.duplicateField kindKey)
      else do
        let kind ← readKind nested value
        kindOfMembers nested (some kind) members fault
    else do
      pass value
      kindOfMembers nested kind members fault

/-- The fields of a state besides its kind. -/
inductive Body where
  | members (members : List (String × Written))
  | items (items : List Written)

/-- Reads a state to its end, and gives its kind and the other fields. In an array the kind comes
first. -/
def body (nested : Bool) : Written → Reading (StateKind × Body)
  | .object members fault => do
    let kind ← kindOfMembers nested none members fault
    .ok (kind, .members (members.filter fun member => member.1 ≠ kindKey))
  | .array [] none => .error (.missingField kindKey)
  | .array [] (some fault) => .error (.fault fault)
  | .array (first :: items) fault => do
    let kind ← readKind nested first
    pass (.array items fault)
    .ok (kind, .items items)
  | written => .error (unwanted .state written)

/-- A document of a shape from the fields of a state. -/
def Shape.ofBody (shape : Shape δ) : Body → Reading δ
  | .members members => shape.ofMembers members none
  | .items items => shape.ofItems shape.noExcess items none

/-- The document of a state of a kind, in whose branches states are read by `read`. -/
def State.ofBody (read : Written → Reading State) (body : Body) : StateKind → Reading State
  | .task => (taskShape.ofBody body).map .task
  | .pass => (passShape.ofBody body).map .pass
  | .wait => (waitShape.ofBody body).map .wait
  | .choice => (choiceShape.ofBody body).map .choice
  | .succeed => (succeedShape.ofBody body).map .succeed
  | .fail => (failShape.ofBody body).map .fail
  | .parallel => ((parallelShape read).ofBody body).map .parallel

/-- The document of a state that has at most `levels` states around one another. -/
def State.read (nested : Bool) : (levels : Nat) → Written → Reading State
  | 0, written => .error (unwanted .state written)
  | levels + 1, written => do
    let (kind, body) ← body nested written
    State.ofBody (State.read true levels) body kind

end Workflow.Document

namespace Workflow.Written

mutual

/-- The number of values around one another. -/
def height : Written → Nat
  | array items _ => heightOfItems items + 1
  | object members _ => heightOfMembers members + 1
  | _ => 1

/-- The greatest height of items. -/
def heightOfItems : List Written → Nat
  | [] => 0
  | item :: items => max (height item) (heightOfItems items)

/-- The greatest height of the values of members. -/
def heightOfMembers : List (String × Written) → Nat
  | [] => 0
  | (_, value) :: members => max (height value) (heightOfMembers members)

end

end Workflow.Written

namespace Workflow.Document

/-- Reads a state at the top of a machine. -/
def State.ofWritten (written : Written) : Reading State :=
  State.read false written.height written

/-! ### Machines -/

/-- Allows no items behind the fields of a machine in a text: there the array should end. -/
def endOfArray : List Written → Option Json.Fault → Reading Unit
  | [], none => .ok ()
  | [], some .endOfList => .error (.fault .endOfList)
  | .broken .trailingComma :: _, _ => .error (.fault .trailingComma)
  | _, _ => .error (.fault .trailingCharacters)

/-- Allows no items behind the fields of a machine in a value. -/
def endOfValue (fields : Nat) : List Written → Option Json.Fault → Reading Unit
  | [], _ => .ok ()
  | items, _ => .error (.tooManyItems (fields + items.length))

/-- The document of a machine, where `excess` examines what an array has behind its fields. -/
def Machine.ofWritten (excess : List Written → Option Json.Fault → Reading Unit)
    (written : Written) : Reading Machine :=
  let shape := machineShape State.ofWritten
  match written with
  | .object members fault => shape.ofMembers members fault
  | .array items fault => shape.ofItems excess items fault
  | written => .error (unwanted (.structure shape.title) written)

/-- The document of a machine that a text says. -/
def Machine.ofText (text : String) : Reading Machine := do
  let (written, behind) := Written.ofText text
  let machine ← Machine.ofWritten endOfArray written
  match behind with
  | none => .ok machine
  | some fault => .error (.fault fault)

/-- The document of a machine that a value says. -/
def Machine.ofJson (value : Json) : Reading Machine :=
  Machine.ofWritten (endOfValue (machineShape State.ofWritten).fields.length) value.written

end Workflow.Document
