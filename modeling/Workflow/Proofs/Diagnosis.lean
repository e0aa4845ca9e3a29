import Workflow.Draft.Machine
import Workflow.Proofs.Results

/-!
# A diagnosis begins with the defect that stops the build

Building stops at the first defect, and a diagnosis goes on. The two put their checks in an order
of their own: a diagnosis builds the states even if there is no state to start at, and looks at
names only when nothing else is wrong. Still the first thing that a diagnosis reports is what keeps
the machine from being built.

## Main definitions

* `Checked.Collects`: a list of defects begins with the one that a result stops at

## Main results

* `Collects.bind`: what is collected along a sequence of steps
* `collects_buildAll`, `collects_scopeDefects`: the defects of states and of scopes
* `Draft.Machine.diagnose_refines_build`: a diagnosis is sound exactly when there is a machine, and
  begins with the defect of the build otherwise
-/

namespace Workflow

namespace Checked

variable {α β : Type}

/-- A list of defects collects what a result stops at: there are none when the result is there, and
the first of them is what keeps it from being there otherwise. -/
def Collects (defects : List Defect) : Checked α → Prop
  | .ok _ => defects = []
  | .error d => ∃ others, defects = d :: others

namespace Collects

variable {x : Checked α} {ds es : List Defect}

/-- Defects may be collected along two steps in turn. What the second step is said to stop at only
matters when the first one has a result. -/
theorem bind {f : α → Checked β} (hx : Collects ds x) (hf : ∀ a, x = .ok a → Collects es (f a)) :
    Collects (ds ++ es) (x >>= f) := by
  cases x with
  | ok a =>
    obtain rfl : ds = [] := hx
    exact hf a rfl
  | error d =>
    obtain ⟨others, rfl⟩ := hx
    exact ⟨others ++ es, rfl⟩

/-- A result stops at the first defect that is collected. -/
theorem eq_error_iff (hx : Collects ds x) {d : Defect} : x = .error d ↔ ds.head? = some d := by
  cases x with
  | ok a =>
    obtain rfl : ds = [] := hx
    simp
  | error e =>
    obtain ⟨others, rfl⟩ := hx
    simp

/-- A last step that cannot fail adds nothing. -/
theorem map (hx : Collects ds x) (f : α → β) : Collects ds (x >>= fun a => .ok (f a)) := by
  have last : Collects (ds ++ []) (x >>= fun a => .ok (f a)) := hx.bind fun _ _ => rfl
  rwa [List.append_nil] at last

end Collects

end Checked

open Checked (Collects)

/-- The complaints about a scope begin with the one that its check stops at. -/
theorem Scope.collects_defects (startAt : String) (states : States) :
    Collects (defects startAt states) (check startAt states) := by
  unfold check
  split
  · next none => exact none
  · next d others some => exact ⟨others, some⟩

namespace Draft

/-- When all states can be built, collecting their defects builds the same states. -/
theorem States.buildAll_of_buildStates {states : States} {built : Workflow.States}
    (h : State.buildStates states = .ok built) : (buildAll states).1 = built := by
  induction states generalizing built with
  | nil =>
    cases h
    rfl
  | cons member states ih =>
    obtain ⟨name, state⟩ := member
    simp only [State.buildStates, bind_eq_ok, Except.ok.injEq] at h
    obtain ⟨s, hs, ss, hss, rfl⟩ := h
    simp only [buildAll, hs, ih hss]

/-- The defects of the states of a scope begin with the one at which building the states stops. -/
theorem States.collects_buildAll (states : States) :
    Collects (buildAll states).2 (State.buildStates states) := by
  induction states with
  | nil => rfl
  | cons member states ih =>
    obtain ⟨name, state⟩ := member
    simp only [buildAll, State.buildStates]
    cases state.build.within (.state name) with
    | ok s =>
      -- nothing is added for this state, so the others decide
      exact ih.map fun ss => (name, s) :: ss
    | error d => exact ⟨_, rfl⟩

/-- The defects of a scope begin with the one at which its checks stop: at a start that is not
named, then at the states, and only then at the names in them. -/
theorem Machine.collects_scopeDefects {β : Type} (startAt : Option String) (states : States)
    (f : String → Workflow.States → β) :
    Collects (scopeDefects startAt states) (do
      let start ← requireStart startAt
      let built ← State.buildStates states
      Scope.check start built
      .ok (f start built)) := by
  have found := States.collects_buildAll states
  unfold scopeDefects
  cases requireStart startAt with
  | error missing => exact ⟨_, rfl⟩
  | ok start =>
    rw [ok_bind]
    cases hb : State.buildStates states with
    | error d =>
      -- some state has a defect, so the names are not looked at
      rw [hb] at found
      obtain ⟨others, hd⟩ := found
      simp only [hd]
      exact ⟨others, rfl⟩
    | ok built =>
      rw [hb] at found
      have none : (States.buildAll states).2 = [] := found
      simp only [none, States.buildAll_of_buildStates hb]
      exact (Scope.collects_defects start built).map fun _ => f start built

/-- **A diagnosis refines a build**: it is sound exactly when the machine can be built, and a build
fails with a defect exactly when the diagnosis begins with that very defect. -/
theorem Machine.diagnose_refines_build (m : Machine) :
    (m.diagnose = .sound ↔ ∃ built, m.build = .ok built) ∧
      ∀ d, m.build = .error d ↔ ∃ others, m.diagnose = .faulty d others := by
  obtain ⟨defects, hdefects, collected⟩ :
      ∃ defects, m.diagnose = .ofDefects defects ∧ Collects defects m.build := by
    refine ⟨_, rfl, Collects.bind ?_ fun _ _ => collects_scopeDefects m.startAt m.states _⟩
    -- the timeout is one check, so its defect is the only one
    cases checkPositive "TimeoutSeconds" m.timeoutSeconds with
    | ok _ => rfl
    | error d => exact ⟨[], rfl⟩
  rw [hdefects]
  cases hb : m.build with
  | ok built =>
    rw [hb] at collected
    obtain rfl : defects = [] := collected
    simp [Diagnosis.ofDefects]
  | error d =>
    rw [hb] at collected
    obtain ⟨others, rfl⟩ := collected
    simp [Diagnosis.ofDefects]

end Draft

end Workflow
