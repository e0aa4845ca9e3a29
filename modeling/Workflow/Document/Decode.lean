import Workflow.Document.Read
import Workflow.Document.Rule
import Workflow.Draft.Machine

/-!
# From documents to drafts

The draft that a document defines. Keys that exclude each other are told apart here, and every
state passes its field checks, so that only the names of other states are left to be looked at
when the draft is built.

## Main definitions

* `Malformation`: what keeps a document from defining a draft
* `Draft.Machine.ofText`, `Draft.Machine.ofJson`: the draft that a text or a value defines

## Main results

* `ofReading_eq_ok`: a draft is defined by a document that was read
-/

namespace Workflow

/-- What keeps a document from defining a draft. -/
inductive Malformation where
  | shape (problem : Document.Problem)
  | state (name : String) (reason : Malformation)
  | branch (index : Nat) (reason : Malformation)
  | catcher (index : Nat) (reason : Malformation)
  | rule (index : Nat) (problem : RuleProblem)
  | nextAndEnd
  | endNotTrue
  | severalDelays
  | timestamp (text : String) (error : TimestampError)
  | fields (defect : Defect)

/-- The message of a malformation. -/
def Malformation.message : Malformation → String
  | .shape problem => problem.message
  | .state name reason => "state '" ++ name ++ "': " ++ reason.message
  | .branch index reason => "Branches[" ++ toString index ++ "]: " ++ reason.message
  | .catcher index reason => "Catch[" ++ toString index ++ "]: " ++ reason.message
  | .rule index problem => "Choices[" ++ toString index ++ "]: " ++ problem.message
  | .nextAndEnd => "'Next' and 'End' are mutually exclusive"
  | .endNotTrue => "'End' must be true when present"
  | .severalDelays =>
    "only one of 'Seconds', 'SecondsPath', 'Timestamp' and 'TimestampPath' may be set"
  | .timestamp text error =>
    "'Timestamp' value '" ++ text ++ "' is not a valid timestamp: " ++ error.message
  | .fields defect => defect.message

namespace Document

/-- The result of making a draft of a document. -/
abbrev Drafted (α : Type) := Except Malformation α

variable {α β : Type}

/-- Makes a draft of every item in turn, from an index on. -/
def draftEach (draft : Nat → α → Drafted β) : (index : Nat) → List α → Drafted (List β)
  | _, [] => .ok []
  | index, a :: as => do
    let b ← draft index a
    let bs ← draftEach draft (index + 1) as
    .ok (b :: bs)

/-- The transition that the two keys say, if one is there. -/
def Exit.draft : Exit → Drafted (Option Transition)
  | ⟨some _, some _⟩ => .error .nextAndEnd
  | ⟨none, some false⟩ => .error .endNotTrue
  | ⟨some name, none⟩ => .ok (some (.next name))
  | ⟨none, some true⟩ => .ok (some .finish)
  | ⟨none, none⟩ => .ok none

/-- The draft of a catcher. -/
def Catcher.draft (index : Nat) (c : Catcher) : Drafted Draft.Catcher := do
  let transition ← c.exit.draft.mapError (.catcher index)
  .ok { errors := c.errors, resultPath := c.resultPath, transition }

/-- The drafts of catchers. -/
def draftCatchers (catchers : List Catcher) : Drafted (List Draft.Catcher) :=
  draftEach Catcher.draft 0 catchers

/-- The draft of a state that has work done. -/
def Task.draft (t : Task) : Drafted Draft.Task := do
  let catchers ← draftCatchers t.catchers
  let transition ← t.exit.draft
  .ok { t.toCommon with
    resource := some t.resource, parameters := t.parameters, resultPath := t.resultPath,
    timeoutSeconds := t.timeoutSeconds, heartbeatSeconds := t.heartbeatSeconds,
    retriers := t.retriers, catchers, transition }

/-- The draft of a state that passes its input on. -/
def Pass.draft (p : Pass) : Drafted Draft.Pass := do
  let transition ← p.exit.draft
  .ok { p.toCommon with
    result := p.result.map .value, parameters := p.parameters, resultPath := p.resultPath,
    transition }

/-- The instant that a timestamp says, if one is there. -/
def draftTimestamp : Option String → Drafted (Option Timestamp)
  | none => .ok none
  | some text =>
    match Timestamp.parse text with
    | .ok instant => .ok (some instant)
    | .error error => .error (.timestamp text error)

/-- The delay of a state that waits, if one is there. A timestamp is read before the delays are
counted. -/
def Wait.delay (w : Wait) : Drafted (Option Delay) := do
  let instant ← draftTimestamp w.timestamp
  let delays := [w.seconds.map Delay.seconds, w.secondsPath.map Delay.secondsPath,
    instant.map Delay.timestamp, w.timestampPath.map Delay.timestampPath].filterMap id
  match delays with
  | [] => .ok none
  | [delay] => .ok (some delay)
  | _ => .error .severalDelays

/-- The draft of a state that waits. -/
def Wait.draft (w : Wait) : Drafted Draft.Wait := do
  let delay ← w.delay
  let transition ← w.exit.draft
  .ok { w.toCommon with delay, transition }

/-- The draft of the rule at an index. -/
def draftRule (index : Nat) (members : List (String × Json)) : Drafted Draft.Rule :=
  (Draft.Rule.ofMembers members).mapError (.rule index)

/-- The draft of a state that chooses. -/
def Choice.draft (c : Choice) : Drafted Draft.Choice := do
  let rules ← draftEach draftRule 0 c.rules
  .ok { c.toCommon with rules, default := c.default }

/-- Makes the field checks of a draft, as seen from the scope of its state. -/
def checkFields (name : String) (state : Draft.State) : Drafted Unit :=
  (state.checkFields.within (.state name)).mapError .fields

namespace State

mutual

/-- The draft of a state. -/
def draft : State → Drafted Draft.State
  | task t => t.draft.map .task
  | pass p => p.draft.map .pass
  | wait w => w.draft.map .wait
  | choice c => c.draft.map .choice
  | succeed common => .ok (.succeed common)
  | fail f => .ok (.fail f)
  | parallel ⟨common, branches, resultPath, retriers, catchers, exit⟩ => do
    let branches ← draftBranches 0 branches
    let catchers ← draftCatchers catchers
    let transition ← exit.draft
    .ok (.parallel { common with branches, resultPath, retriers, catchers, transition })

/-- The drafts of the branches from an index on. -/
def draftBranches (index : Nat) : List (Branch State) → Drafted (List (Draft.Branch Draft.State))
  | [] => .ok []
  | ⟨comment, startAt, states⟩ :: branches => do
    let states ← (draftStates states).mapError (.branch index)
    let branches ← draftBranches (index + 1) branches
    .ok ({ comment, startAt := some startAt, states } :: branches)

/-- The drafts of the states of a scope, each with its fields checked. -/
def draftStates : List (String × State) → Drafted Draft.States
  | [] => .ok []
  | (name, state) :: states => do
    let state ← (draft state).mapError (.state name)
    checkFields name state
    let states ← draftStates states
    .ok ((name, state) :: states)

end

end State

/-- The draft of a machine. -/
def Machine.draft (m : Machine) : Drafted Draft.Machine := do
  let states ← State.draftStates m.states
  .ok { comment := m.comment, startAt := some m.startAt, timeoutSeconds := m.timeoutSeconds,
        version := m.version, states }

end Document

namespace Draft.Machine

/-- The draft that a document defines, if it could be read. -/
def ofReading : Document.Reading Document.Machine → Except Malformation Machine
  | .ok document => document.draft
  | .error problem => .error (.shape problem)

theorem ofReading_eq_ok {read : Document.Reading Document.Machine} {b : Machine} :
    ofReading read = .ok b ↔ ∃ document, read = .ok document ∧ document.draft = .ok b := by
  cases read with
  | error problem => simp [ofReading]
  | ok document => simp [ofReading]

/-- The draft that a text defines. -/
def ofText (text : String) : Except Malformation Machine :=
  ofReading (Document.Machine.ofText text)

/-- The draft that a value defines. -/
def ofJson (value : Json) : Except Malformation Machine :=
  ofReading (Document.Machine.ofJson value)

end Draft.Machine

/-- Whatever can be wrong with a definition: a defect of what it defines, or a malformation of
its document. -/
inductive DefinitionError where
  | defect (defect : Defect)
  | malformed (reason : Malformation)

namespace DefinitionError

/-- The name of the kind of an error. -/
def kind : DefinitionError → String
  | .defect d => d.kind.name
  | .malformed _ => "MalformedDocument"

/-- The field that is wrong, if the error has one. -/
def field? : DefinitionError → Option String
  | .defect d => some d.field
  | .malformed _ => none

/-- The message of an error. -/
def message : DefinitionError → String
  | .defect d => d.message
  | .malformed reason => "Malformed document: " ++ reason.message

end DefinitionError

end Workflow
