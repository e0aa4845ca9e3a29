import Workflow.Draft.Field

/-!
# Drafts of states without branches

States as they are put together: fields may be absent or wrong until the state is built. Building
checks every field in a fixed order and stops at the first defect.

## Main definitions

* `Draft.Task`, `Draft.Pass`, `Draft.Wait`, `Draft.Choice`: drafts of states, each with its
  `build`
-/

namespace Workflow.Draft

/-- A draft of a state that has work done. -/
structure Task extends Common where
  resource : Option String := none
  parameters : Option Json := none
  resultPath : Option Selector := none
  timeoutSeconds : Option UInt32 := none
  heartbeatSeconds : Option UInt32 := none
  retriers : List Retrier := []
  catchers : List Catcher := []
  transition : Option Transition := none

/-- The resource a task must have. -/
def requireResource : Option String → Checked String
  | none => .error (.missing "Resource")
  | some resource => if resource = "" then .error (.missing "Resource") else .ok resource

/-- Checks that a heartbeat, if given, is positive and shorter than the timeout. -/
def checkHeartbeat (heartbeat timeout : Option UInt32) : Checked Unit :=
  match heartbeat, timeout with
  | none, _ => .ok ()
  | some heartbeat, timeout =>
    if heartbeat = 0 then .error (.invalid "HeartbeatSeconds" .notPositive)
    else
      match timeout with
      | none => .ok ()
      | some timeout =>
        if timeout ≤ heartbeat then .error (.invalid "HeartbeatSeconds" (.notBelowTimeout timeout))
        else .ok ()

/-- The task, or the first thing wrong with it. -/
def Task.build (t : Task) : Checked Workflow.Task := do
  t.toCommon.check
  checkResultPath t.resultPath
  let resource ← requireResource t.resource
  let parameters ← checkParameters t.parameters
  checkPositive "TimeoutSeconds" t.timeoutSeconds
  checkHeartbeat t.heartbeatSeconds t.timeoutSeconds
  let (retriers, catchers) ← buildPolicies t.retriers t.catchers
  let transition ← requireTransition t.transition
  .ok { t.toCommon with
    resource, parameters, resultPath := t.resultPath, timeoutSeconds := t.timeoutSeconds,
    heartbeatSeconds := t.heartbeatSeconds, retriers, catchers, transition }

instance : Alike Task :=
  ⟨fun a b => alike a.toCommon b.toCommon && alike a.resource b.resource &&
    alike a.parameters b.parameters && alike a.resultPath b.resultPath &&
    alike a.timeoutSeconds b.timeoutSeconds && alike a.heartbeatSeconds b.heartbeatSeconds &&
    alike a.retriers b.retriers && alike a.catchers b.catchers &&
    alike a.transition b.transition⟩

/-- A draft of a state that passes its input on. -/
structure Pass extends Common where
  result : Option Result := none
  parameters : Option Json := none
  resultPath : Option Selector := none
  transition : Option Transition := none

/-- The value of a result, if one is given. -/
def buildResult : Option Result → Checked (Option Json)
  | none => .ok none
  | some result => do
    let value ← result.build
    .ok (some value)

/-- The state, or the first thing wrong with it. -/
def Pass.build (p : Pass) : Checked Workflow.Pass := do
  p.toCommon.check
  checkResultPath p.resultPath
  let result ← buildResult p.result
  let parameters ← checkParameters p.parameters
  let transition ← requireTransition p.transition
  .ok { p.toCommon with result, parameters, resultPath := p.resultPath, transition }

instance : Alike Pass :=
  ⟨fun a b => alike a.toCommon b.toCommon && alike a.result b.result &&
    alike a.parameters b.parameters && alike a.resultPath b.resultPath &&
    alike a.transition b.transition⟩

/-- A draft of a state that waits. -/
structure Wait extends Common where
  delay : Option Delay := none
  transition : Option Transition := none

/-- The delay a waiting state must have. -/
def requireDelay : Option Delay → Checked Delay
  | none => .error (.missing "Seconds/SecondsPath/Timestamp/TimestampPath")
  | some delay => delay.check

/-- The state, or the first thing wrong with it. -/
def Wait.build (w : Wait) : Checked Workflow.Wait := do
  w.toCommon.check
  let delay ← requireDelay w.delay
  let transition ← requireTransition w.transition
  .ok { w.toCommon with delay, transition }

instance : Alike Wait :=
  ⟨fun a b => alike a.toCommon b.toCommon && alike a.delay b.delay &&
    alike a.transition b.transition⟩

/-- A draft of a state that chooses. -/
structure Choice extends Common where
  rules : List Rule := []
  default : Option String := none

/-- The state, or the first thing wrong with it. -/
def Choice.build (c : Choice) : Checked Workflow.Choice := do
  c.toCommon.check
  if c.rules.isEmpty then throw (.missing "Choices")
  let rules ← Checked.each "Choices" Rule.build c.rules
  if c.default = some "" then throw (.invalid "Default" .emptyStateName)
  return { c.toCommon with rules, default := c.default }

instance : Alike Choice :=
  ⟨fun a b => alike a.toCommon b.toCommon && alike a.rules b.rules && alike a.default b.default⟩

end Workflow.Draft
