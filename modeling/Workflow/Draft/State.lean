import Workflow.Draft.Simple
import Workflow.Scope.Graph

/-!
# Drafts of states

Drafts of states of all kinds. A state that runs branches is built with all that is in them, and
the names in each branch are looked up in that branch alone.

## Main definitions

* `Draft.State`: a draft of a state, with the drafts of its branches
* `Draft.State.build`: the state, or the first defect
* `Draft.State.checkFields`: the checks of `build` that do not look at the names of other states
* `Draft.Branch.build`: a branch, or the first defect
-/

namespace Workflow.Draft

/-- A draft of a branch, with states of type `σ`. -/
structure Branch (σ : Type) where
  comment : Option String := none
  startAt : Option String := none
  states : List (String × σ) := []

/-- A draft of a state that runs branches, with states of type `σ`. -/
structure Parallel (σ : Type) extends Common where
  branches : List (Branch σ) := []
  resultPath : Option Selector := none
  retriers : List Retrier := []
  catchers : List Catcher := []
  transition : Option Transition := none

/-- A draft of a state. -/
inductive State where
  | task (task : Task)
  | pass (pass : Pass)
  | wait (wait : Wait)
  | choice (choice : Choice)
  | succeed (common : Common)
  | fail (fail : Fail)
  | parallel (parallel : Parallel State)

/-- Drafts of states with their names, in the order of their registration. -/
abbrev States := List (String × State)

/-- The first state that a scope must name. -/
def requireStart : Option String → Checked String
  | none => .error (.missing "StartAt")
  | some name => if name = "" then .error (.missing "StartAt") else .ok name

namespace State

/-- The kind of a state. -/
def kind : State → StateKind
  | task _ => .task
  | pass _ => .pass
  | wait _ => .wait
  | choice _ => .choice
  | succeed _ => .succeed
  | fail _ => .fail
  | parallel _ => .parallel

mutual

/-- The state, or the first thing wrong with it. -/
def build : State → Checked Workflow.State
  | task t => do
    let t ← t.build
    .ok (.task t)
  | pass p => do
    let p ← p.build
    .ok (.pass p)
  | wait w => do
    let w ← w.build
    .ok (.wait w)
  | choice c => do
    let c ← c.build
    .ok (.choice c)
  | succeed common => do
    common.check
    .ok (.succeed common)
  | fail f => .ok (.fail f)
  | parallel ⟨common, branches, resultPath, retriers, catchers, transition⟩ => do
    common.check
    checkResultPath resultPath
    if branches.isEmpty then throw (.missing "Branches")
    let branches ← buildBranches 0 branches
    let (retriers, catchers) ← buildPolicies retriers catchers
    let transition ← requireTransition transition
    return .parallel { common with branches, resultPath, retriers, catchers, transition }

/-- The branches from an index on, or the first thing wrong with them. -/
def buildBranches (index : Nat) :
    List (Branch State) → Checked (List (Workflow.Branch Workflow.State))
  | [] => .ok []
  | ⟨comment, startAt, states⟩ :: branches => do
    let startAt ← (requireStart startAt).within (.item "Branches" index)
    let states ← (buildStates states).within (.item "Branches" index)
    (Scope.check startAt states).within (.item "Branches" index)
    let branches ← buildBranches (index + 1) branches
    .ok (⟨comment, startAt, states⟩ :: branches)

/-- The states of a scope, or the first thing wrong with them. -/
def buildStates : List (String × State) → Checked Workflow.States
  | [] => .ok []
  | (name, state) :: states => do
    let state ← (build state).within (.state name)
    let states ← buildStates states
    .ok ((name, state) :: states)

end

mutual

/-- The checks of `build` that do not look at the names of other states. -/
def checkFields : State → Checked Unit
  | task t => do
    let _ ← t.build
    .ok ()
  | pass p => do
    let _ ← p.build
    .ok ()
  | wait w => do
    let _ ← w.build
    .ok ()
  | choice c => do
    let _ ← c.build
    .ok ()
  | succeed common => common.check
  | fail _ => .ok ()
  | parallel ⟨common, branches, resultPath, retriers, catchers, transition⟩ => do
    common.check
    checkResultPath resultPath
    if branches.isEmpty then throw (.missing "Branches")
    checkBranches 0 branches
    let _ ← buildPolicies retriers catchers
    let _ ← requireTransition transition
    return ()

/-- The field checks of the branches from an index on. -/
def checkBranches (index : Nat) : List (Branch State) → Checked Unit
  | [] => .ok ()
  | ⟨_, startAt, states⟩ :: branches => do
    let _ ← (requireStart startAt).within (.item "Branches" index)
    (checkStates states).within (.item "Branches" index)
    checkBranches (index + 1) branches

/-- The field checks of the states of a scope. -/
def checkStates : List (String × State) → Checked Unit
  | [] => .ok ()
  | (name, state) :: states => do
    (checkFields state).within (.state name)
    checkStates states

end

mutual

/-- States are alike when they are of one kind and have like parts. -/
def alike : State → State → Bool
  | task a, task b => Alike.alike a b
  | pass a, pass b => Alike.alike a b
  | wait a, wait b => Alike.alike a b
  | choice a, choice b => Alike.alike a b
  | succeed a, succeed b => Alike.alike a b
  | fail a, fail b => Alike.alike a b
  | parallel ⟨a, branches, resultPath, retriers, catchers, transition⟩, parallel b =>
    Alike.alike a b.toCommon && alikeBranches branches b.branches &&
      Alike.alike resultPath b.resultPath && Alike.alike retriers b.retriers &&
      Alike.alike catchers b.catchers && Alike.alike transition b.transition
  | _, _ => false

/-- Branches are alike one by one. -/
def alikeBranches : List (Branch State) → List (Branch State) → Bool
  | [], [] => true
  | ⟨comment, startAt, states⟩ :: as, b :: bs =>
    Alike.alike comment b.comment && Alike.alike startAt b.startAt &&
      alikeStates states b.states && alikeBranches as bs
  | _, _ => false

/-- States with names are alike one by one, in order. -/
def alikeStates : List (String × State) → List (String × State) → Bool
  | [], [] => true
  | (name, a) :: as, (name', b) :: bs =>
    Alike.alike name name' && alike a b && alikeStates as bs
  | _, _ => false

end

instance : Alike State := ⟨alike⟩

end State

/-- The branch, or the first thing wrong with it. -/
def Branch.build (b : Branch State) : Checked (Workflow.Branch Workflow.State) := do
  let startAt ← requireStart b.startAt
  let states ← State.buildStates b.states
  Scope.check startAt states
  .ok ⟨b.comment, startAt, states⟩

end Workflow.Draft
