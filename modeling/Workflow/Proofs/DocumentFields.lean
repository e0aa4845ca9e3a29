import Mathlib.Tactic.MkIffOfInductiveProp
import Mathlib.Tactic.Simproc.ExistsAndEq
import Workflow.Document.Schema
import Workflow.Proofs.Shapes

/-!
# What the members of an object say

For every kind of document, the relation between the members of an object and the document that
is read from them, field by field. No relation depends on the order of the members.

## Main definitions

* `CommonRead`, `ExitRead`: the fields that several kinds of document have
* `RetrierRead`, `CatcherRead`, `TaskRead`, …: the fields of every kind

## Main results

* `ofMembers_retrierShape`, `ofMembers_taskShape`, …: a document is read exactly when its keys are
  those of its shape and its fields are what the members say
-/

namespace Workflow.Document

open Json (get?)

variable {σ : Type} {members : List (String × Written)}

/-- The members of a state say what states have in common. -/
@[mk_iff]
structure CommonRead (members : List (String × Written)) (c : Common) : Prop where
  comment : Maybe text (get? "Comment" members) c.comment
  inputPath : May selector (get? "InputPath" members) c.inputPath
  outputPath : May selector (get? "OutputPath" members) c.outputPath

/-- The members of a state or catcher say where control goes. -/
@[mk_iff]
structure ExitRead (members : List (String × Written)) (e : Exit) : Prop where
  next : Maybe text (get? "Next" members) e.next
  finish : Maybe flag (get? "End" members) e.finish

/-- The members of an object say a retrier. -/
@[mk_iff]
structure RetrierRead (members : List (String × Written)) (r : Retrier) : Prop where
  errors : Must (list text) (get? "ErrorEquals" members) r.errors
  interval : Maybe natural32 (get? "IntervalSeconds" members) r.intervalSeconds
  attempts : Maybe natural32 (get? "MaxAttempts" members) r.maxAttempts
  backoff : Maybe double (get? "BackoffRate" members) r.backoffRate

/-- The members of an object say a catcher. -/
@[mk_iff]
structure CatcherRead (members : List (String × Written)) (c : Catcher) : Prop where
  errors : Must (list text) (get? "ErrorEquals" members) c.errors
  resultPath : May selector (get? "ResultPath" members) c.resultPath
  exit : ExitRead members c.exit

/-- The members of an object say a state that has work done. -/
@[mk_iff]
structure TaskRead (members : List (String × Written)) (t : Task) : Prop where
  common : CommonRead members t.toCommon
  resource : Must text (get? "Resource" members) t.resource
  parameters : May anything (get? "Parameters" members) t.parameters
  resultPath : May selector (get? "ResultPath" members) t.resultPath
  timeout : Maybe natural32 (get? "TimeoutSeconds" members) t.timeoutSeconds
  heartbeat : Maybe natural32 (get? "HeartbeatSeconds" members) t.heartbeatSeconds
  retriers : Listed retrierShape.read (get? "Retry" members) t.retriers
  catchers : Listed catcherShape.read (get? "Catch" members) t.catchers
  exit : ExitRead members t.exit

/-- The members of an object say a state that passes its input on. -/
@[mk_iff]
structure PassRead (members : List (String × Written)) (p : Pass) : Prop where
  common : CommonRead members p.toCommon
  result : May anything (get? "Result" members) p.result
  parameters : May anything (get? "Parameters" members) p.parameters
  resultPath : May selector (get? "ResultPath" members) p.resultPath
  exit : ExitRead members p.exit

/-- The members of an object say a state that waits. -/
@[mk_iff]
structure WaitRead (members : List (String × Written)) (w : Wait) : Prop where
  common : CommonRead members w.toCommon
  seconds : Maybe natural64 (get? "Seconds" members) w.seconds
  secondsPath : Maybe text (get? "SecondsPath" members) w.secondsPath
  timestamp : Maybe text (get? "Timestamp" members) w.timestamp
  timestampPath : Maybe text (get? "TimestampPath" members) w.timestampPath
  exit : ExitRead members w.exit

/-- The members of an object say a state that chooses. -/
@[mk_iff]
structure ChoiceRead (members : List (String × Written)) (c : Choice) : Prop where
  common : CommonRead members c.toCommon
  rules : Must (list rule) (get? "Choices" members) c.rules
  default : Maybe text (get? "Default" members) c.default

/-- The members of an object say a state that ends in failure. -/
@[mk_iff]
structure FailRead (members : List (String × Written)) (f : Fail) : Prop where
  comment : Maybe text (get? "Comment" members) f.comment
  error : Maybe text (get? "Error" members) f.error
  cause : Maybe text (get? "Cause" members) f.cause

/-- The members of an object say a branch, in which states are read by `read`. -/
@[mk_iff]
structure BranchRead (read : Written → Reading σ) (members : List (String × Written))
    (b : Branch σ) : Prop where
  comment : Maybe text (get? "Comment" members) b.comment
  startAt : Must text (get? "StartAt" members) b.startAt
  states : Must (scopeStates read) (get? "States" members) b.states

/-- The members of an object say a state that runs branches, in which states are read by
`read`. -/
@[mk_iff]
structure ParallelRead (read : Written → Reading σ) (members : List (String × Written))
    (p : Parallel σ) : Prop where
  common : CommonRead members p.toCommon
  branches : Must (list (branchShape read).read) (get? "Branches" members) p.branches
  resultPath : May selector (get? "ResultPath" members) p.resultPath
  retriers : Listed retrierShape.read (get? "Retry" members) p.retriers
  catchers : Listed catcherShape.read (get? "Catch" members) p.catchers
  exit : ExitRead members p.exit

/-- The members of an object say a machine, in which states are read by `read`. -/
@[mk_iff]
structure MachineRead (read : Written → Reading State) (members : List (String × Written))
    (m : Machine) : Prop where
  comment : Maybe text (get? "Comment" members) m.comment
  startAt : Must text (get? "StartAt" members) m.startAt
  timeout : Maybe natural32 (get? "TimeoutSeconds" members) m.timeoutSeconds
  version : Maybe text (get? "Version" members) m.version
  states : Must (scopeStates read) (get? "States" members) m.states

/-! ### No two fields of a shape are put into the same part of a document -/

theorem retrierShape_regular : retrierShape.Regular where
  commutes := by simp [retrierShape, Field.commutes]
  names_nodup := by decide

theorem catcherShape_regular : catcherShape.Regular where
  commutes := by simp [catcherShape, exitFields, Field.commutes]
  names_nodup := by decide

theorem taskShape_regular : taskShape.Regular where
  commutes := by simp [taskShape, commonFields, exitFields, Field.commutes]
  names_nodup := by decide

theorem passShape_regular : passShape.Regular where
  commutes := by simp [passShape, commonFields, exitFields, Field.commutes]
  names_nodup := by decide

theorem waitShape_regular : waitShape.Regular where
  commutes := by simp [waitShape, commonFields, exitFields, Field.commutes]
  names_nodup := by decide

theorem choiceShape_regular : choiceShape.Regular where
  commutes := by simp [choiceShape, commonFields, Field.commutes]
  names_nodup := by decide

theorem succeedShape_regular : succeedShape.Regular where
  commutes := by simp [succeedShape, commonFields, Field.commutes]
  names_nodup := by decide

theorem failShape_regular : failShape.Regular where
  commutes := by simp [failShape, Field.commutes]
  names_nodup := by decide

theorem branchShape_regular (read : Written → Reading σ) : (branchShape read).Regular where
  commutes := by simp [branchShape, Field.commutes]
  names_nodup := by simp [branchShape, Field.maybe, Field.must]

theorem parallelShape_regular (read : Written → Reading σ) : (parallelShape read).Regular where
  commutes := by simp [parallelShape, commonFields, exitFields, Field.commutes]
  names_nodup := by
    simp [parallelShape, commonFields, exitFields, Field.maybe, Field.must, Field.may, Field.listed]

theorem machineShape_regular (read : Written → Reading State) : (machineShape read).Regular where
  commutes := by simp [machineShape, Field.commutes]
  names_nodup := by simp [machineShape, Field.maybe, Field.must]

/-! ### What is read from the members of an object -/

/-- The keys of an object are those of the fields of a shape. -/
abbrev Shape.Covers {δ : Type} (shape : Shape δ) (members : List (String × Written)) : Prop :=
  Shape.KeysIn (shape.fields.map Field.name) members

theorem ofMembers_retrierShape {r : Retrier} :
    retrierShape.ofMembers members none = .ok r ↔
      retrierShape.Covers members ∧ RetrierRead members r := by
  rw [Shape.ofMembers_eq_ok retrierShape_regular]
  apply and_congr_right'
  obtain ⟨_, _, _, _⟩ := r
  simp [retrierShape, Shape.assemble_must, Shape.assemble_maybe, retrierRead_iff]

theorem ofMembers_catcherShape {c : Catcher} :
    catcherShape.ofMembers members none = .ok c ↔
      catcherShape.Covers members ∧ CatcherRead members c := by
  rw [Shape.ofMembers_eq_ok catcherShape_regular]
  apply and_congr_right'
  obtain ⟨_, _, _, _⟩ := c
  simp [catcherShape, exitFields, Shape.assemble_must, Shape.assemble_may, Shape.assemble_maybe,
    catcherRead_iff, exitRead_iff]

theorem ofMembers_taskShape {t : Task} :
    taskShape.ofMembers members none = .ok t ↔
      taskShape.Covers members ∧ TaskRead members t := by
  rw [Shape.ofMembers_eq_ok taskShape_regular]
  apply and_congr_right'
  obtain ⟨⟨_, _, _⟩, _, _, _, _, _, _, _, _, _⟩ := t
  simp [taskShape, commonFields, exitFields, Shape.assemble_must, Shape.assemble_may,
    Shape.assemble_maybe, Shape.assemble_listed, taskRead_iff, commonRead_iff, exitRead_iff,
    and_assoc]

theorem ofMembers_passShape {p : Pass} :
    passShape.ofMembers members none = .ok p ↔
      passShape.Covers members ∧ PassRead members p := by
  rw [Shape.ofMembers_eq_ok passShape_regular]
  apply and_congr_right'
  obtain ⟨⟨_, _, _⟩, _, _, _, _, _⟩ := p
  simp [passShape, commonFields, exitFields, Shape.assemble_may, Shape.assemble_maybe,
    passRead_iff, commonRead_iff, exitRead_iff, and_assoc]

theorem ofMembers_waitShape {w : Wait} :
    waitShape.ofMembers members none = .ok w ↔
      waitShape.Covers members ∧ WaitRead members w := by
  rw [Shape.ofMembers_eq_ok waitShape_regular]
  apply and_congr_right'
  obtain ⟨⟨_, _, _⟩, _, _, _, _, _, _⟩ := w
  simp [waitShape, commonFields, exitFields, Shape.assemble_may, Shape.assemble_maybe,
    waitRead_iff, commonRead_iff, exitRead_iff, and_assoc]

theorem ofMembers_choiceShape {c : Choice} :
    choiceShape.ofMembers members none = .ok c ↔
      choiceShape.Covers members ∧ ChoiceRead members c := by
  rw [Shape.ofMembers_eq_ok choiceShape_regular]
  apply and_congr_right'
  obtain ⟨⟨_, _, _⟩, _, _⟩ := c
  simp [choiceShape, commonFields, Shape.assemble_must, Shape.assemble_may, Shape.assemble_maybe,
    choiceRead_iff, commonRead_iff, and_assoc]

theorem ofMembers_succeedShape {c : Common} :
    succeedShape.ofMembers members none = .ok c ↔
      succeedShape.Covers members ∧ CommonRead members c := by
  rw [Shape.ofMembers_eq_ok succeedShape_regular]
  apply and_congr_right'
  obtain ⟨_, _, _⟩ := c
  simp [succeedShape, commonFields, Shape.assemble_may, Shape.assemble_maybe, commonRead_iff]

theorem ofMembers_failShape {f : Fail} :
    failShape.ofMembers members none = .ok f ↔
      failShape.Covers members ∧ FailRead members f := by
  rw [Shape.ofMembers_eq_ok failShape_regular]
  apply and_congr_right'
  obtain ⟨_, _, _⟩ := f
  simp [failShape, Shape.assemble_maybe, failRead_iff]

theorem ofMembers_branchShape {read : Written → Reading σ} {b : Branch σ} :
    (branchShape read).ofMembers members none = .ok b ↔
      (branchShape read).Covers members ∧ BranchRead read members b := by
  rw [Shape.ofMembers_eq_ok (branchShape_regular read)]
  apply and_congr_right'
  obtain ⟨_, _, _⟩ := b
  simp [branchShape, Shape.assemble_must, Shape.assemble_maybe, branchRead_iff]

theorem ofMembers_parallelShape {read : Written → Reading σ} {p : Parallel σ} :
    (parallelShape read).ofMembers members none = .ok p ↔
      (parallelShape read).Covers members ∧ ParallelRead read members p := by
  rw [Shape.ofMembers_eq_ok (parallelShape_regular read)]
  apply and_congr_right'
  obtain ⟨⟨_, _, _⟩, _, _, _, _, ⟨_, _⟩⟩ := p
  simp [parallelShape, commonFields, exitFields, Shape.assemble_must, Shape.assemble_may,
    Shape.assemble_maybe, Shape.assemble_listed, parallelRead_iff, commonRead_iff, exitRead_iff,
    and_assoc]

theorem ofMembers_machineShape {read : Written → Reading State} {m : Machine} :
    (machineShape read).ofMembers members none = .ok m ↔
      (machineShape read).Covers members ∧ MachineRead read members m := by
  rw [Shape.ofMembers_eq_ok (machineShape_regular read)]
  apply and_congr_right'
  obtain ⟨_, _, _, _, _⟩ := m
  simp [machineShape, Shape.assemble_must, Shape.assemble_maybe, machineRead_iff]

end Workflow.Document
