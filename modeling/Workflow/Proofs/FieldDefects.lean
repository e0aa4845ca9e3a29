import Workflow.Proofs.Failures
import Workflow.Proofs.GraphDefects

/-!
# Field checks look at fields only

The checks of the fields of a state are the checks of its build, without those that look at the
names in a scope. That nothing but these is left out is said beside the graph defects; here it is
shown that all of these are: whatever the checks of fields complain about, at any depth of branches,
it is not the graph of a scope.

More is true of what they complain about. Any property that a complaint about a single field has,
and that it keeps as seen from further out, is one of all complaints of the checks of fields.

## Main definitions

* `Defect.Fieldwise`: a property of complaints about fields
* `Checked.OfFields`: a check that does not complain about the graph of a scope

## Main results

* `failsOnly_checkPath`, `Retrier.failsOnly_check`, `Draft.Task.failsOnly_build`, …: the checks of
  single fields, and those of states without branches
* `Draft.State.ofFields_checkFields`: the field checks of any state
* `Draft.State.checkFields_without_graph`: how the field checks of a state go, and its build
-/

namespace Workflow

/-- A check complains about fields, and not about the graph of a scope. -/
abbrev Checked.OfFields {α : Type} (x : Checked α) : Prop :=
  FailsOnly (fun d => ¬d.OfGraph) x

open Checked (OfFields)

namespace Defect

/-- Something is wrong with a field by itself, and not with the graph of a scope. -/
def Cause.OfField : Cause → Prop
  | .unresolved _ | .stranded => False
  | .badPath .. | .missing | .mismatch .. | .invalid _ => True

/-- What is wrong with any single field has a property, and keeps it as seen from further out. -/
class Fieldwise (P : Defect → Prop) : Prop where
  field (step : Step) {cause : Cause} (h : cause.OfField) : P ⟨[step], cause⟩
  within (step : Step) (d : Defect) (h : P d) : P (d.within step)

instance : Fieldwise fun d => ¬d.OfGraph where
  field step cause h := by
    cases cause with
    | unresolved | stranded => exact h.elim
    | _ => simp [OfGraph, kind]
  within _ _ h := h

instance : Fieldwise fun d => d.location ≠ [] where
  field _ _ _ := List.cons_ne_nil _ _
  within _ _ _ := List.cons_ne_nil _ _

end Defect

open Defect (Fieldwise)

section

variable {P : Defect → Prop} [Fieldwise P] {α β : Type}

/-! ### Parts of states -/

theorem Defect.Fieldwise.missing (field : String) : P (.missing field) :=
  Fieldwise.field _ trivial

theorem Defect.Fieldwise.invalid (field : String) (flaw : Flaw) : P (.invalid field flaw) :=
  Fieldwise.field _ trivial

theorem failsOnly_missing (field : String) : FailsOnly P (.error (.missing field) : Checked α) :=
  failsOnly_error.mpr (Fieldwise.missing field)

theorem failsOnly_invalid (field : String) (flaw : Flaw) :
    FailsOnly P (.error (.invalid field flaw) : Checked α) :=
  failsOnly_error.mpr (Fieldwise.invalid field flaw)

theorem FailsOnly.part {x : Checked α} (h : FailsOnly P x) (step : Step) :
    FailsOnly P (x.within step) :=
  h.within Fieldwise.within step

/-- The items of a field are looked at one by one. -/
theorem FailsOnly.each {treat : α → Checked β} (h : ∀ a, FailsOnly P (treat a)) (key : String)
    (as : List α) : FailsOnly P (Checked.each key treat as) :=
  FailsOnly.inTurn Fieldwise.within h _ 0 as

@[simp]
theorem failsOnly_checkPath (field : String) (g : Path.Grammar) (text : String) :
    FailsOnly P (checkPath field g text) := by
  unfold checkPath
  split
  · exact failsOnly_ok
  · exact failsOnly_error.mpr (Fieldwise.field _ trivial)

@[simp]
theorem failsOnly_checkSelector (field : String) (g : Path.Grammar) (s : Option Selector) :
    FailsOnly P (checkSelector field g s) := by
  unfold checkSelector
  split <;> simp

@[simp]
theorem failsOnly_checkResultPath (s : Option Selector) : FailsOnly P (checkResultPath s) :=
  failsOnly_checkSelector _ _ s

@[simp]
theorem failsOnly_checkTimestamp (field : String) (t : Timestamp) :
    FailsOnly P (checkTimestamp field t) := by
  unfold checkTimestamp
  split
  · exact failsOnly_ok
  · exact failsOnly_error.mpr (Fieldwise.field _ trivial)

@[simp]
theorem Common.failsOnly_check (c : Common) : FailsOnly P c.check := by
  simp [check]

@[simp]
theorem Transition.failsOnly_check (t : Transition) : FailsOnly P t.check := by
  unfold check
  split
  · split
    · exact failsOnly_missing _
    · exact failsOnly_ok
  · exact failsOnly_ok

@[simp]
theorem failsOnly_requireTransition (o : Option Transition) :
    FailsOnly P (requireTransition o) := by
  cases o with
  | none => exact failsOnly_missing _
  | some t => exact t.failsOnly_check

@[simp]
theorem failsOnly_checkErrors (names : List String) : FailsOnly P (checkErrors names) := by
  unfold checkErrors
  split
  · exact failsOnly_missing _
  · split
    · exact failsOnly_ok
    · exact failsOnly_error.mpr (Fieldwise.field _ trivial)

@[simp]
theorem failsOnly_checkPositive (field : String) (seconds : Option UInt32) :
    FailsOnly P (checkPositive field seconds) := by
  unfold checkPositive
  split
  · exact failsOnly_invalid _ _
  · exact failsOnly_ok

@[simp]
theorem failsOnly_checkBackoff (o : Option Double) : FailsOnly P (checkBackoff o) := by
  unfold checkBackoff
  split
  · exact failsOnly_ok
  · split
    · exact failsOnly_ok
    · exact failsOnly_invalid _ _

@[simp]
theorem failsOnly_checkParameters (o : Option Json) : FailsOnly P (checkParameters o) := by
  unfold checkParameters
  split
  · exact failsOnly_ok
  · exact failsOnly_ok
  · exact failsOnly_invalid _ _

@[simp]
theorem Retrier.failsOnly_check (r : Retrier) : FailsOnly P r.check := by
  simp [check]

@[simp]
theorem Delay.failsOnly_check (d : Delay) : FailsOnly P d.check := by
  cases d <;> simp [check]

namespace Draft

@[simp]
theorem Catcher.failsOnly_build (c : Catcher) : FailsOnly P c.build := by
  simp [build]

@[simp]
theorem failsOnly_buildPolicies (retriers : List Retrier) (catchers : List Catcher) :
    FailsOnly P (buildPolicies retriers catchers) := by
  have first : FailsOnly P (Checked.each "Retry" Retrier.check retriers) :=
    .each Retrier.failsOnly_check "Retry" retriers
  have second : FailsOnly P (Checked.each "Catch" Catcher.build catchers) :=
    .each Catcher.failsOnly_build "Catch" catchers
  simp [buildPolicies, first, second]

@[simp]
theorem failsOnly_buildComparison (operator : Operator) (path : String) (value : Expected) :
    FailsOnly P (buildComparison operator path value) := by
  unfold buildComparison
  refine (failsOnly_checkPath "Variable" .reference path).bind fun _ => ?_
  split
  · exact failsOnly_error.mpr (Fieldwise.field _ trivial)
  · next comparator _ =>
    cases value with
    | numeric value =>
      by_cases hf : value.isFinite
      · simp [checkExpected, hf]
      · simp [checkExpected, hf, @Fieldwise.invalid P _]
    | _ => simp [checkExpected]

namespace Condition

mutual

theorem failsOnly_build (c : Condition) : FailsOnly P c.build := by
  match c with
  | comparison operator path value =>
    exact (failsOnly_buildComparison operator path value).bind fun _ => failsOnly_ok
  | and [] | or [] => exact failsOnly_missing _
  | and (part :: parts) =>
    exact (failsOnly_buildParts "And" 0 (part :: parts)).bind fun _ => failsOnly_ok
  | or (part :: parts) =>
    exact (failsOnly_buildParts "Or" 0 (part :: parts)).bind fun _ => failsOnly_ok
  | not part => exact ((failsOnly_build part).part _).bind fun _ => failsOnly_ok

theorem failsOnly_buildParts (key : String) (index : Nat) (parts : List Condition) :
    FailsOnly P (buildParts key index parts) := by
  match parts with
  | [] => exact failsOnly_ok
  | part :: parts =>
    exact ((failsOnly_build part).part _).bind fun _ =>
      (failsOnly_buildParts key (index + 1) parts).bind fun _ => failsOnly_ok

end

end Condition

@[simp]
theorem Rule.failsOnly_build (r : Rule) : FailsOnly P r.build := by
  obtain ⟨condition, transition⟩ := r
  -- a rule without a condition or a state to go to is refused on the spot
  rcases condition with _ | c
  · simp [build, @Fieldwise.missing P _]
  · rcases transition with _ | _ | _ <;>
      simp [build, Condition.failsOnly_build, @Fieldwise.missing P _, @Fieldwise.invalid P _]

@[simp]
theorem Result.failsOnly_build (r : Result) : FailsOnly P r.build := by
  unfold build
  split
  · exact failsOnly_ok
  · split
    · exact failsOnly_ok
    · exact failsOnly_invalid _ _
  · exact failsOnly_invalid _ _

@[simp]
theorem failsOnly_buildResult (o : Option Result) : FailsOnly P (buildResult o) := by
  cases o <;> simp [buildResult]

@[simp]
theorem failsOnly_requireResource (o : Option String) : FailsOnly P (requireResource o) := by
  unfold requireResource
  split
  · exact failsOnly_missing _
  · split
    · exact failsOnly_missing _
    · exact failsOnly_ok

@[simp]
theorem failsOnly_checkHeartbeat (heartbeat timeout : Option UInt32) :
    FailsOnly P (checkHeartbeat heartbeat timeout) := by
  unfold checkHeartbeat
  split
  · exact failsOnly_ok
  · split
    · exact failsOnly_invalid _ _
    · split
      · exact failsOnly_ok
      · split
        · exact failsOnly_invalid _ _
        · exact failsOnly_ok

@[simp]
theorem failsOnly_requireDelay (o : Option Delay) : FailsOnly P (requireDelay o) := by
  cases o with
  | none => exact failsOnly_missing _
  | some d => exact d.failsOnly_check

@[simp]
theorem failsOnly_requireStart (o : Option String) : FailsOnly P (requireStart o) := by
  unfold requireStart
  split
  · exact failsOnly_missing _
  · split
    · exact failsOnly_missing _
    · exact failsOnly_ok

/-! ### States -/

theorem Task.failsOnly_build (t : Task) : FailsOnly P t.build := by
  simp [build]

theorem Pass.failsOnly_build (p : Pass) : FailsOnly P p.build := by
  simp [build]

theorem Wait.failsOnly_build (w : Wait) : FailsOnly P w.build := by
  simp [build]

theorem Choice.failsOnly_build (c : Choice) : FailsOnly P c.build := by
  have rules : FailsOnly P (Checked.each "Choices" Rule.build c.rules) :=
    .each Rule.failsOnly_build "Choices" c.rules
  by_cases none : c.rules.isEmpty
  · simp [build, none, @Fieldwise.missing P _]
  · by_cases unnamed : c.default = some ""
    · simp [build, none, unnamed, rules, @Fieldwise.invalid P _]
    · simp [build, none, unnamed, rules]

end Draft

end

namespace Draft

namespace State

mutual

/-- **The field checks of a state complain about fields**, at any depth of branches. -/
theorem ofFields_checkFields (d : State) : OfFields d.checkFields := by
  match d with
  | .task t => exact t.failsOnly_build.bind fun _ => failsOnly_ok
  | .pass p => exact p.failsOnly_build.bind fun _ => failsOnly_ok
  | .wait w => exact w.failsOnly_build.bind fun _ => failsOnly_ok
  | .choice c => exact c.failsOnly_build.bind fun _ => failsOnly_ok
  | .succeed common => exact common.failsOnly_check
  | .fail f => exact failsOnly_ok
  | .parallel ⟨common, branches, resultPath, retriers, catchers, transition⟩ =>
    unfold checkFields
    refine (Common.failsOnly_check _).bind fun _ => (failsOnly_checkResultPath _).bind fun _ => ?_
    -- without branches the state is refused here, and the rest of it is not looked at
    by_cases none : branches.isEmpty
    · rw [if_pos none]
      exact failsOnly_missing _
    · rw [if_neg none]
      refine (ofFields_checkBranches 0 branches).bind fun _ => ?_
      exact (failsOnly_buildPolicies _ _).bind fun _ =>
        (failsOnly_requireTransition _).bind fun _ => failsOnly_ok

theorem ofFields_checkBranches (index : Nat) (branches : List (Branch State)) :
    OfFields (checkBranches index branches) := by
  match branches with
  | [] => exact failsOnly_ok
  | ⟨comment, startAt, states⟩ :: branches =>
    -- the first state only has to be named, and the states are not looked up
    unfold checkBranches
    refine ((failsOnly_requireStart startAt).part _).bind fun _ => ?_
    refine ((ofFields_checkStates states).part _).bind fun _ => ?_
    exact ofFields_checkBranches (index + 1) branches

theorem ofFields_checkStates (states : States) : OfFields (checkStates states) := by
  match states with
  | [] => exact failsOnly_ok
  | (name, state) :: states =>
    unfold checkStates
    exact ((ofFields_checkFields state).part _).bind fun _ => ofFields_checkStates states

end

/-- **The field checks of a state are its build without the graph**, at any depth of branches. Where
they have no complaint, the state is built or has a defect of the graph; and where they have one, it
is not about the graph, and the state is not built, for the same reason or for a defect of the
graph. -/
theorem checkFields_without_graph (d : State) :
    (d.checkFields = .ok () →
      (∃ s, d.build = .ok s) ∨ ∃ defect, d.build = .error defect ∧ defect.OfGraph) ∧
    ∀ e, d.checkFields = .error e →
      ¬e.OfGraph ∧ ∃ defect, d.build = .error defect ∧ (defect = e ∨ defect.OfGraph) := by
  have lockstep := d.upToGraph
  constructor
  · intro checked
    rw [checked] at lockstep
    exact Checked.upToGraph_ok.mp lockstep
  · intro e refused
    rw [refused] at lockstep
    exact ⟨d.ofFields_checkFields e refused, lockstep⟩

end State

end Draft

end Workflow
