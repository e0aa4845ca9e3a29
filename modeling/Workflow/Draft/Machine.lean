import Workflow.Draft.State

/-!
# Drafts of machines

A machine while it is being put together: states are registered under names, and everything is
checked when the machine is built or diagnosed. Building stops at the first defect; a diagnosis
collects all of them.

## Main definitions

* `Draft.States.register`, `Draft.States.remove`, `Draft.States.get?`: the registered states
* `Draft.Machine`: a draft of a machine
* `Draft.Edit`, `Draft.Machine.edit`: the changes of a draft
* `Draft.Machine.build`: the machine, or the first defect
* `Draft.Machine.diagnose`: every defect

## Main results

* `names_register`: registration keeps the order of names and appends new ones
* `get?_register`: the state registered last under a name is the one that is found
-/

namespace Workflow

/-- The outcome of all checks: nothing is wrong, or there is a first defect and possibly more. -/
inductive Diagnosis where
  | sound
  | faulty (first : Defect) (others : List Defect)

namespace Diagnosis

/-- The outcome of collecting defects. -/
def ofDefects : List Defect → Diagnosis
  | [] => sound
  | first :: others => faulty first others

/-- The defects in order. -/
def defects : Diagnosis → List Defect
  | sound => []
  | faulty first others => first :: others

end Diagnosis

namespace Draft

namespace States

/-- Registers a state under a name: in the place of an earlier state of that name, or behind all
others. -/
def register (name : String) (state : State) (states : States) : States :=
  Json.insert name state states

/-- The state registered under a name. -/
def get? (name : String) (states : States) : Option State :=
  Json.get? name states

/-- Removes the state registered under a name; the others keep their order. -/
def remove (name : String) : States → States
  | [] => []
  | (other, state) :: states =>
    if other = name then states else (other, state) :: remove name states

theorem remove_eq_eraseP (name : String) (states : States) :
    remove name states = states.eraseP fun entry => entry.1 = name := by
  induction states with
  | nil => rfl
  | cons entry states ih =>
    obtain ⟨other, state⟩ := entry
    by_cases h : other = name
    · simp [remove, h]
    · simp [remove, h, ih]

/-- The registered names in order. -/
def names (states : States) : List String :=
  states.map Prod.fst

theorem names_register (name : String) (state : State) (states : States) :
    names (register name state states) =
      if name ∈ names states then names states else names states ++ [name] :=
  Json.keys_insert name state states

theorem get?_register (name other : String) (state : State) (states : States) :
    get? other (register name state states) =
      if name = other then some state else get? other states :=
  Json.get?_insert name other state states

/-- The states that can be built, and the defects of those that cannot. -/
def buildAll : States → Workflow.States × List Defect
  | [] => ([], [])
  | (name, state) :: states =>
    let (built, defects) := buildAll states
    match state.build.within (.state name) with
    | .ok state => ((name, state) :: built, defects)
    | .error defect => (built, defect :: defects)

end States

namespace Branch

/-- Registers a state in a branch. -/
def register (name : String) (state : State) (b : Branch State) : Branch State :=
  { b with states := States.register name state b.states }

end Branch

/-- A change of a draft of a machine. -/
inductive Edit where
  | comment (text : String)
  | startAt (name : String)
  | timeoutSeconds (count : UInt32)
  | version (text : String)
  | register (name : String) (state : State)
  | remove (name : String)

/-- A draft of a machine. -/
structure Machine where
  comment : Option String := none
  startAt : Option String := none
  timeoutSeconds : Option UInt32 := none
  version : Option String := none
  states : States := []

instance : Alike Machine :=
  ⟨fun a b => alike a.comment b.comment && alike a.startAt b.startAt &&
    alike a.timeoutSeconds b.timeoutSeconds && alike a.version b.version &&
    State.alikeStates a.states b.states⟩

namespace Machine

/-- Registers a state. -/
def register (name : String) (state : State) (m : Machine) : Machine :=
  { m with states := States.register name state m.states }

/-- Removes a state. -/
def remove (name : String) (m : Machine) : Machine :=
  { m with states := States.remove name m.states }

/-- A draft after a change. -/
def edit (m : Machine) : Edit → Machine
  | .comment text => { m with comment := some text }
  | .startAt name => { m with startAt := some name }
  | .timeoutSeconds count => { m with timeoutSeconds := some count }
  | .version text => { m with version := some text }
  | .register name state => m.register name state
  | .remove name => m.remove name

/-- A draft after changes made in turn. -/
def editAll (m : Machine) (edits : List Edit) : Machine :=
  edits.foldl edit m

/-- Every defect of a scope. Names are only looked at when the scope names its first state and
every state can be built. -/
def scopeDefects (startAt : Option String) (states : States) : List Defect :=
  let (built, defects) := States.buildAll states
  match requireStart startAt, defects with
  | .ok startAt, [] => Scope.defects startAt built
  | .ok _, defects => defects
  | .error missing, defects => missing :: defects

/-- The machine, or the first thing wrong with it. -/
def build (m : Machine) : Checked Workflow.Machine := do
  checkPositive "TimeoutSeconds" m.timeoutSeconds
  let startAt ← requireStart m.startAt
  let states ← State.buildStates m.states
  Scope.check startAt states
  .ok ⟨m.comment, startAt, m.timeoutSeconds, m.version, states⟩

/-- Everything that is wrong with a machine. -/
def diagnose (m : Machine) : Diagnosis :=
  let timeout := match checkPositive "TimeoutSeconds" m.timeoutSeconds with
    | .ok () => []
    | .error defect => [defect]
  .ofDefects (timeout ++ scopeDefects m.startAt m.states)

end Machine

end Draft

end Workflow
