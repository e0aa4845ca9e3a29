import Workflow.Document.Problem

/-!
# Shapes of documents

A document of a certain shape has fields, each with a name and a way to read its value. It is
written as an object, whose members may come in any order, or as an array of the values of its
fields in their fixed order, in which fields at the end may be left out.

## Main definitions

* `Field`: a field of a document of type `δ`
* `Shape`: the fields of a document
* `Shape.ofMembers`, `Shape.ofItems`: a document from an object and from an array
* `Shape.read`: a document inside another one
* `text`, `natural32`, `double`, `selector`, `list`, …: the values of fields
-/

namespace Workflow.Document

variable {α δ : Type}

/-- A field of a document: its value is read and put into the document. -/
structure Field (δ : Type) where
  name : String
  required : Bool
  read : Written → δ → Reading δ

/-- The fields of a document, in order, and the document without any. -/
structure Shape (δ : Type) where
  title : String
  blank : δ
  fields : List (Field δ)

namespace Field

/-- A field that must be there. -/
def must (name : String) (read : Written → Reading α) (set : α → δ → δ) : Field δ where
  name
  required := true
  read written document := (read written).map fun value => set value document

/-- A field that may be absent. -/
def may (name : String) (read : Written → Reading α) (set : Option α → δ → δ) : Field δ where
  name
  required := false
  read written document := (read written).map fun value => set (some value) document

/-- A field that may be absent or null, with the same meaning. -/
def maybe (name : String) (read : Written → Reading α) (set : Option α → δ → δ) : Field δ where
  name
  required := false
  read written document :=
    match written with
    | .null => .ok (set none document)
    | written => (read written).map fun value => set (some value) document

end Field

namespace Shape

/-- The first required field that was not seen. -/
def missing? (shape : Shape δ) (seen : List String) : Option String :=
  (shape.fields.find? fun field => field.required && !seen.contains field.name).map Field.name

/-- Reads members one by one. A key is looked at before its value, and missing fields only when
all members were read. -/
def readMembers (shape : Shape δ) (seen : List String) (document : δ) :
    List (String × Written) → Option Json.Fault → Reading δ
  | [], some fault => .error (.fault fault)
  | [], none =>
    match shape.missing? seen with
    | some name => .error (.missingField name)
    | none => .ok document
  | (key, value) :: members, fault =>
    match shape.fields.find? fun field => field.name == key with
    | none => .error (.unknownField key (shape.fields.map Field.name))
    | some field =>
      if seen.contains key then .error (.duplicateField key)
      else do
        let document ← field.read value document
        readMembers shape (key :: seen) document members fault

/-- Reads the values of fields one by one. What is left of the items when there are no more
fields is passed to `excess`. -/
def readItems (shape : Shape δ) (excess : List Written → Option Json.Fault → Reading Unit)
    (index : Nat) (document : δ) :
    List (Field δ) → List Written → Option Json.Fault → Reading δ
  | [], items, fault => do
    excess items fault
    .ok document
  | _ :: _, [], some fault => .error (.fault fault)
  | field :: fields, [], none =>
    if field.required then .error (.tooFew index shape.title shape.fields.length)
    else readItems shape excess (index + 1) document fields [] none
  | field :: fields, item :: items, fault => do
    let document ← field.read item document
    readItems shape excess (index + 1) document fields items fault

/-- A document from the members of an object. -/
def ofMembers (shape : Shape δ) (members : List (String × Written))
    (fault : Option Json.Fault) : Reading δ :=
  shape.readMembers [] shape.blank members fault

/-- A document from the items of an array. -/
def ofItems (shape : Shape δ) (excess : List Written → Option Json.Fault → Reading Unit)
    (items : List Written) (fault : Option Json.Fault) : Reading δ :=
  shape.readItems excess 0 shape.blank shape.fields items fault

/-- Allows no items behind the fields of a document inside another one. -/
def noExcess (shape : Shape δ) : List Written → Option Json.Fault → Reading Unit
  | [], none => .ok ()
  | [], some fault => .error (.fault fault)
  | items, _ =>
    .error (.tooMany (shape.fields.length + items.length) shape.fields.length)

/-- Reads a document inside another one. -/
def read (shape : Shape δ) : Written → Reading δ
  | .object members fault => shape.ofMembers members fault
  | .array items fault => shape.ofItems shape.noExcess items fault
  | written => .error (unwanted (.structure shape.title) written)

end Shape

/-! ### Values of fields -/

/-- Reads text. -/
def text : Written → Reading String
  | .string text => .ok text
  | written => .error (unwanted .string written)

/-- Reads a truth value. -/
def flag : Written → Reading Bool
  | .bool value => .ok value
  | written => .error (unwanted .boolean written)

/-- Reads a whole number of 32 bits. -/
def natural32 : Written → Reading UInt32
  | .number (.whole n) =>
    match n.toUInt32? with
    | some value => .ok value
    | none => .error (.outOfRange n.val .natural32)
  | written => .error (unwanted .natural32 written)

/-- Reads a whole number of 64 bits. -/
def natural64 : Written → Reading UInt64
  | .number (.whole n) =>
    match n.toUInt64? with
    | some value => .ok value
    | none => .error (.outOfRange n.val .natural64)
  | written => .error (unwanted .natural64 written)

/-- Reads any number as a double. -/
def double : Written → Reading Double
  | .number n => .ok n.toDouble
  | written => .error (unwanted .double written)

/-- Reads a path, or null for discarding. -/
def selector : Written → Reading Selector
  | .string text => .ok (.path text)
  | .null => .ok .discard
  | written => .error (unwanted .selector written)

/-- Reads any value. -/
def anything (written : Written) : Reading Json :=
  match written.toJson with
  | .ok value => .ok value
  | .error fault => .error (.fault fault)

/-- Reads the items of a list one by one. -/
def listItems (read : Written → Reading α) :
    List Written → Option Json.Fault → Reading (List α)
  | [], none => .ok []
  | [], some fault => .error (.fault fault)
  | item :: items, fault => do
    let value ← read item
    let values ← listItems read items fault
    .ok (value :: values)

/-- Reads a list. -/
def list (read : Written → Reading α) : Written → Reading (List α)
  | .array items fault => listItems read items fault
  | written => .error (unwanted .list written)

/-- Reads an object whose members are not looked at yet. -/
def rule : Written → Reading (List (String × Json))
  | .object members fault =>
    match Written.toMembers members, fault with
    | .error fault, _ | .ok _, some fault => .error (.fault fault)
    | .ok members, none => .ok (Json.merge members)
  | written => .error (unwanted .rule written)

/-- A list that may be absent, which means that it is empty. -/
def Field.listed (name : String) (read : Written → Reading α) (set : List α → δ → δ) :
    Field δ where
  name
  required := false
  read written document := (list read written).map fun values => set values document

end Workflow.Document
