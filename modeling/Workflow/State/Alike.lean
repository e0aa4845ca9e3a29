import Workflow.State.Basic

/-!
# Likeness of states and machines

States and machines are alike when they are so field by field: a field that is absent is not like
one that gives the default. States are compared in their order.

## Main definitions

* `State.alike`, `Machine`'s instance of `Alike`: likeness of states and machines
-/

namespace Workflow

/-- Parameters are alike when they are so as objects. -/
instance : Alike (Option (List (String × Json))) :=
  ⟨fun a b => alike (a.map Json.object) (b.map Json.object)⟩

instance : Alike Task :=
  ⟨fun a b => alike a.toCommon b.toCommon && alike a.resource b.resource &&
    alike a.parameters b.parameters && alike a.resultPath b.resultPath &&
    alike a.timeoutSeconds b.timeoutSeconds && alike a.heartbeatSeconds b.heartbeatSeconds &&
    alike a.retriers b.retriers && alike a.catchers b.catchers &&
    alike a.transition b.transition⟩

instance : Alike Pass :=
  ⟨fun a b => alike a.toCommon b.toCommon && alike a.result b.result &&
    alike a.parameters b.parameters && alike a.resultPath b.resultPath &&
    alike a.transition b.transition⟩

/-- Delays are alike when they are of one form and have like values. -/
def Delay.eq : Delay → Delay → Bool
  | seconds m, seconds n => m == n
  | secondsPath p, secondsPath q => p == q
  | timestamp s, timestamp t => s.eq t
  | timestampPath p, timestampPath q => p == q
  | _, _ => false

instance : Alike Delay := ⟨Delay.eq⟩

instance : Alike Wait :=
  ⟨fun a b => alike a.toCommon b.toCommon && alike a.delay b.delay &&
    alike a.transition b.transition⟩

instance : Alike Rule :=
  ⟨fun a b => alike a.condition b.condition && alike a.transition b.transition⟩

instance : Alike Choice :=
  ⟨fun a b => alike a.toCommon b.toCommon && alike a.rules b.rules && alike a.default b.default⟩

instance : Alike Fail := .ofEq Fail

namespace State

mutual

/-- States are alike when they are of one kind and have like parts. -/
def alike : State → State → Bool
  | task a, task b => Alike.alike a b
  | pass a, pass b => Alike.alike a b
  | wait a, wait b => Alike.alike a b
  | choice a, choice b => Alike.alike a b
  | succeed a, succeed b => Alike.alike a b
  | fail a, fail b => Alike.alike a b
  | parallel ⟨a, branches, resultPath, retriers, catchers, transition⟩, parallel b =>
    Alike.alike a b.toCommon && alikeBranches branches b.branches &&
      Alike.alike resultPath b.resultPath && Alike.alike retriers b.retriers &&
      Alike.alike catchers b.catchers && Alike.alike transition b.transition
  | _, _ => false

/-- Branches are alike one by one. -/
def alikeBranches : List (Branch State) → List (Branch State) → Bool
  | [], [] => true
  | ⟨comment, startAt, states⟩ :: as, b :: bs =>
    Alike.alike comment b.comment && Alike.alike startAt b.startAt &&
      alikeStates states b.states && alikeBranches as bs
  | _, _ => false

/-- States with names are alike one by one, in order. -/
def alikeStates : List (String × State) → List (String × State) → Bool
  | [], [] => true
  | (name, a) :: as, (name', b) :: bs =>
    Alike.alike name name' && alike a b && alikeStates as bs
  | _, _ => false

end

instance : Alike State := ⟨alike⟩

end State

instance : Alike Machine :=
  ⟨fun a b => alike a.comment b.comment && alike a.startAt b.startAt &&
    alike a.timeoutSeconds b.timeoutSeconds && alike a.version b.version &&
    State.alikeStates a.states b.states⟩

end Workflow
