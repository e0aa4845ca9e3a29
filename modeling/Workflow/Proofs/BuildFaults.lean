import Workflow.Document.Decode
import Workflow.Proofs.Diagnosis
import Workflow.Proofs.FieldDefects
import Workflow.Proofs.FirstFaults
import Workflow.Proofs.Rebuild

/-!
# Where a build stops

A build stops at the first thing that is wrong, however deep it is, and says the whole way to it. A
scope stops at its first state that cannot be built, and only when there is none at its graph; a
state that runs branches stops at its first branch that cannot be built, then at its policies and
then at its transition. Every scope around puts its own step in front of the field.

## Main definitions

* `Checked.Located`: whatever a check complains about has a place
* `Defect.SeenBehind`: a defect is another one as seen from further out
* `Draft.State.Fault`, `Draft.Branch.Fault`, `Draft.ScopeFault`: what keeps a state, a branch or a
  scope from being built

## Main results

* `Draft.State.located_build`: whatever a build complains about has a place
* `Draft.State.build_eq_error`, `Draft.Branch.build_eq_error`: builds stop at these faults
* `Draft.Machine.build_first_fault`: how the build of a machine stops
-/

namespace Workflow

/-- Whatever a check complains about has a place. -/
abbrev Checked.Located {α : Type} (x : Checked α) : Prop :=
  FailsOnly (fun d => d.location ≠ []) x

open Checked (FirstFault Located)

/-- A defect is another one as seen from a value that holds, behind a step, the one in which that
was found: its field is read behind the step. -/
structure Defect.SeenBehind (step : Step) (own e : Defect) : Prop where
  within : own.within step = e
  field : e.field = step.text ++ "." ++ own.field

theorem Defect.seenBehind_iff {step : Step} {own e : Defect} (h : own.location ≠ []) :
    SeenBehind step own e ↔ own.within step = e := by
  constructor
  · exact SeenBehind.within
  · rintro rfl
    exact ⟨rfl, field_within h step⟩

namespace Draft

/-! ### Faults -/

/-- The paths of a state that runs branches are fine, and it has a branch. -/
structure Parallel.Ready (p : Parallel State) : Prop where
  common : p.toCommon.Valid
  result : Selector.Conforms .reference p.resultPath
  branches : p.branches ≠ []

mutual

/-- What keeps a state from being built. One that is ready to run branches stops at the first branch
that cannot be built, at the first retrier or at the first catcher, in this order, and then at its
transition. -/
inductive State.Fault : State → Defect → Prop
  | branch {p : Parallel State} {before : List (Branch State)} {b : Branch State} {own e : Defect}
      (ready : p.Ready) (first : FirstIn (Checked.Fails Branch.build) p.branches before b)
      (fault : Branch.Fault b own)
      (seen : own.SeenBehind (.item "Branches" before.length) e) : State.Fault (.parallel p) e
  | retrier {p : Parallel State} {before : List Retrier} {r : Retrier} {own e : Defect}
      (ready : p.Ready) (branches : ∀ b ∈ p.branches, ∃ built, b.build = .ok built)
      (first : FirstFault Retrier.check p.retriers before r own)
      (seen : own.SeenBehind (.item "Retry" before.length) e) : State.Fault (.parallel p) e
  | catcher {p : Parallel State} {before : List Catcher} {c : Catcher} {own e : Defect}
      (ready : p.Ready) (branches : ∀ b ∈ p.branches, ∃ built, b.build = .ok built)
      (retriers : ∀ r ∈ p.retriers, ∃ checked, r.check = .ok checked)
      (first : FirstFault Catcher.build p.catchers before c own)
      (seen : own.SeenBehind (.item "Catch" before.length) e) : State.Fault (.parallel p) e
  | transition {p : Parallel State} {e : Defect}
      (ready : p.Ready) (branches : ∀ b ∈ p.branches, ∃ built, b.build = .ok built)
      (retriers : ∀ r ∈ p.retriers, ∃ checked, r.check = .ok checked)
      (catchers : ∀ c ∈ p.catchers, ∃ built, c.build = .ok built)
      (fault : requireTransition p.transition = .error e) : State.Fault (.parallel p) e
  | field {d : State} {e : Defect} (other : ∀ p, d = .parallel p → ¬p.Ready)
      (fails : d.build = .error e) : State.Fault d e

/-- What keeps a branch from being built: it does not name its first state, or its scope cannot be
built. -/
inductive Branch.Fault : Branch State → Defect → Prop
  | start {b : Branch State} (unnamed : ∀ start, b.startAt = some start → start = "") :
      Branch.Fault b (.missing "StartAt")
  | scope {b : Branch State} {start : String} {e : Defect} (named : b.startAt = some start)
      (nonempty : start ≠ "") (fault : ScopeFault start b.states e) : Branch.Fault b e

/-- What keeps a scope from being built: the fault of its first state that has one, and otherwise
the first complaint about its graph. -/
inductive ScopeFault : String → States → Defect → Prop
  | state {start : String} {states before : States} {name : String} {d : State} {own e : Defect}
      (first : FirstIn (fun entry => Checked.Fails State.build entry.2) states before (name, d))
      (fault : State.Fault d own) (seen : own.SeenBehind (.state name) e) :
      ScopeFault start states e
  | graph {start : String} {states : States} {e : Defect}
      (built : ∀ entry ∈ states, ∃ s, State.build entry.2 = .ok s)
      (first : (Machine.scopeDefects (some start) states).head? = some e) :
      ScopeFault start states e

end

/-! ### Builds part by part -/

namespace State

/-- The states of a scope are built in turn. -/
theorem buildStates_eq_inTurn (index : ℕ) (states : States) :
    buildStates states = Checked.inTurn (fun _ entry => .state entry.1)
      (fun entry => entry.2.build >>= fun s => .ok (entry.1, s)) index states := by
  induction states generalizing index with
  | nil => rfl
  | cons entry states ih =>
    obtain ⟨name, d⟩ := entry
    simp only [buildStates, Checked.inTurn, ih (index + 1)]
    cases d.build <;> rfl

/-- A scope stops at its first state that cannot be built. -/
theorem buildStates_eq_error {states : States} {e : Defect} :
    buildStates states = .error e ↔ ∃ before name d own,
      FirstIn (fun entry => Checked.Fails build entry.2) states before (name, d) ∧
        d.build = .error own ∧ own.within (.state name) = e := by
  have fails {entry : String × State} {e : Defect} :
      (entry.2.build >>= fun s => .ok (entry.1, s)) = .error e ↔ entry.2.build = .error e := by
    simp [bind_eq_error]
  have same : (Checked.Fails fun entry : String × State =>
      entry.2.build >>= fun s => .ok (entry.1, s)) = fun entry => Checked.Fails build entry.2 := by
    funext entry
    simp only [Checked.Fails, fails]
  -- a scope is built entry by entry, so what fails first is the first entry that fails
  rw [buildStates_eq_inTurn 0, Checked.inTurn_eq_error]
  constructor
  · rintro ⟨before, ⟨name, d⟩, own, ⟨first, stops⟩, rfl⟩
    exact ⟨before, name, d, own, same ▸ first, fails.mp stops, rfl⟩
  · rintro ⟨before, name, d, own, first, stops, rfl⟩
    exact ⟨before, (name, d), own, ⟨same ▸ first, fails.mpr stops⟩, rfl⟩

theorem exists_buildStates_eq_ok {states : States} :
    (∃ built, buildStates states = .ok built) ↔
      ∀ entry ∈ states, ∃ s, entry.2.build = .ok s := by
  rw [buildStates_eq_inTurn 0, Checked.exists_inTurn_eq_ok]
  simp [bind_eq_ok]

/-- The branches of a state are built in turn. -/
theorem buildBranches_eq_inTurn (index : ℕ) (branches : List (Branch State)) :
    buildBranches index branches =
      Checked.inTurn (fun i _ => .item "Branches" i) Branch.build index branches := by
  induction branches generalizing index with
  | nil => rfl
  | cons b branches ih =>
    obtain ⟨comment, startAt, states⟩ := b
    simp only [buildBranches, Checked.inTurn, Branch.build, ih, Checked.within_bind, bind_assoc]
    rfl

end State

end Draft

/-! ### Every complaint has a place -/

/-- Every mention of a state in a scope has a place. -/
theorem Scope.location_ne_nil_of_mem_references {startAt : String} {states : States}
    {mention : Location × String} (h : mention ∈ references startAt states) : mention.1 ≠ [] := by
  rcases List.mem_cons.mp h with rfl | h
  · exact List.cons_ne_nil _ _
  · obtain ⟨⟨name, s⟩, -, hm⟩ := List.mem_flatMap.mp h
    obtain ⟨⟨location, target⟩, -, rfl⟩ := List.mem_map.mp hm
    exact List.cons_ne_nil _ _

theorem Scope.located_of_mem_defects {startAt : String} {states : States} {d : Defect}
    (h : d ∈ defects startAt states) : d.location ≠ [] := by
  unfold defects at h
  split at h
  · obtain ⟨name, -, rfl⟩ := List.mem_map.mp h
    exact List.cons_ne_nil _ _
  · obtain ⟨⟨location, target⟩, mention, hd⟩ := List.mem_filterMap.mp h
    dsimp only at hd
    split at hd
    · cases hd
    · obtain rfl := Option.some.inj hd
      exact location_ne_nil_of_mem_references mention

theorem Scope.located_check (startAt : String) (states : States) :
    Located (check startAt states) := by
  intro d h
  unfold check at h
  split at h
  · cases h
  · next hd =>
    cases h
    exact located_of_mem_defects (hd ▸ List.mem_cons_self)

namespace Draft.State

mutual

/-- **Whatever keeps a state from being built has a place.** -/
theorem located_build (d : State) : Located d.build := by
  match d with
  | .task t => exact t.failsOnly_build.bind fun _ => failsOnly_ok
  | .pass p => exact p.failsOnly_build.bind fun _ => failsOnly_ok
  | .wait w => exact w.failsOnly_build.bind fun _ => failsOnly_ok
  | .choice c => exact c.failsOnly_build.bind fun _ => failsOnly_ok
  | .succeed common => exact common.failsOnly_check.bind fun _ => failsOnly_ok
  | .fail f => exact failsOnly_ok
  | .parallel ⟨common, branches, resultPath, retriers, catchers, transition⟩ =>
    unfold build
    refine (Common.failsOnly_check _).bind fun _ => (failsOnly_checkResultPath _).bind fun _ => ?_
    by_cases none : branches.isEmpty
    · rw [if_pos none]
      exact failsOnly_missing _
    · rw [if_neg none]
      refine (located_buildBranches 0 branches).bind fun _ => ?_
      exact (failsOnly_buildPolicies _ _).bind fun _ =>
        (failsOnly_requireTransition _).bind fun _ => failsOnly_ok

theorem located_buildBranches (index : ℕ) (branches : List (Branch State)) :
    Located (buildBranches index branches) := by
  match branches with
  | [] => exact failsOnly_ok
  | ⟨comment, startAt, states⟩ :: branches =>
    unfold buildBranches
    refine ((failsOnly_requireStart startAt).part _).bind fun start => ?_
    refine ((located_buildStates states).part _).bind fun built => ?_
    refine ((Scope.located_check start built).part _).bind fun _ => ?_
    exact (located_buildBranches (index + 1) branches).bind fun _ => failsOnly_ok

theorem located_buildStates (states : States) : Located (buildStates states) := by
  match states with
  | [] => exact failsOnly_ok
  | (name, d) :: states =>
    unfold buildStates
    exact ((located_build d).part _).bind fun _ =>
      (located_buildStates states).bind fun _ => failsOnly_ok

end

end Draft.State

namespace Draft

/-- Whatever keeps a branch from being built has a place. -/
theorem Branch.located_build (b : Branch State) : Located b.build := by
  unfold build
  refine (failsOnly_requireStart b.startAt).bind fun start => ?_
  refine (State.located_buildStates b.states).bind fun built => ?_
  exact (Scope.located_check start built).bind fun _ => failsOnly_ok

/-! ### Builds stop at faults -/

theorem requireStart_eq_error {o : Option String} {e : Defect} :
    requireStart o = .error e ↔
      (∀ start, o = some start → start = "") ∧ .missing "StartAt" = e := by
  cases o with
  | none => simp [requireStart]
  | some start =>
    by_cases h : start = ""
    · simp [requireStart, h]
    · simp [requireStart, h]

/-- A scope that names its first state stops at its faults, if its states do. -/
theorem scope_eq_error {start : String} (nonempty : start ≠ "") {states : States}
    (hs : ∀ entry ∈ states, ∀ e, State.build entry.2 = .error e ↔ State.Fault entry.2 e) {β : Type}
    (f : Workflow.States → β) {e : Defect} :
    (do
      let built ← State.buildStates states
      Scope.check start built
      .ok (f built) : Checked β) = .error e ↔ ScopeFault start states e := by
  have collected := Machine.collects_scopeDefects (some start) states fun _ => f
  rw [requireStart_eq_ok.mpr ⟨nonempty, rfl⟩, ok_bind] at collected
  constructor
  · intro h
    -- the graph is only looked at when all states have been built
    by_cases built : ∀ entry ∈ states, ∃ s, State.build entry.2 = .ok s
    · exact .graph built (collected.eq_error_iff.mp h)
    · cases hb : State.buildStates states with
      | ok ss => exact absurd (State.exists_buildStates_eq_ok.mp ⟨ss, hb⟩) built
      | error d =>
        rw [hb] at h
        obtain rfl : d = e := Except.error.inj h
        obtain ⟨before, name, d, own, first, stops, seen⟩ := State.buildStates_eq_error.mp hb
        have place := State.located_build d own stops
        exact .state first ((hs _ first.mem own).mp stops) ((Defect.seenBehind_iff place).mpr seen)
  · rintro (⟨first, fault, seen⟩ | ⟨-, first⟩)
    · have stops := (hs _ first.mem _).mpr fault
      have hb := State.buildStates_eq_error.mpr ⟨_, _, _, _, first, stops, seen.within⟩
      rw [hb, error_bind]
    · exact collected.eq_error_iff.mpr first

/-- A branch stops at its faults, if its states do. -/
theorem Branch.build_eq_error_of_states {b : Branch State}
    (hs : ∀ entry ∈ b.states, ∀ e, State.build entry.2 = .error e ↔ State.Fault entry.2 e)
    {e : Defect} : b.build = .error e ↔ b.Fault e := by
  rw [build, bind_eq_error]
  constructor
  · rintro (h | ⟨start, hstart, h⟩)
    · obtain ⟨unnamed, rfl⟩ := requireStart_eq_error.mp h
      exact .start unnamed
    · obtain ⟨nonempty, named⟩ := requireStart_eq_ok.mp hstart
      exact .scope named.symm nonempty ((scope_eq_error nonempty hs _).mp h)
  · rintro (unnamed | ⟨named, nonempty, fault⟩)
    · exact .inl (requireStart_eq_error.mpr ⟨unnamed, rfl⟩)
    · refine .inr ⟨_, requireStart_eq_ok.mpr ⟨nonempty, named.symm⟩, ?_⟩
      exact (scope_eq_error nonempty hs _).mpr fault

namespace Parallel.Ready

variable {p : Parallel State}

/-- A state that is ready to run branches stops at them, at its retriers, at its catchers and at its
transition, in this order. -/
theorem build_eq_error (ready : p.Ready) {e : Defect} :
    State.build (.parallel p) = .error e ↔
      Checked.each "Branches" Branch.build p.branches = .error e ∨
        (∃ bs, Checked.each "Branches" Branch.build p.branches = .ok bs) ∧
          (Checked.each "Retry" Retrier.check p.retriers = .error e ∨
            (∃ rs, Checked.each "Retry" Retrier.check p.retriers = .ok rs) ∧
              (Checked.each "Catch" Catcher.build p.catchers = .error e ∨
                (∃ cs, Checked.each "Catch" Catcher.build p.catchers = .ok cs) ∧
                  requireTransition p.transition = .error e)) := by
  obtain ⟨common, branches, resultPath, retriers, catchers, transition⟩ := p
  obtain ⟨hc, hr, hb⟩ := ready
  have checked := Common.check_eq_ok.mpr hc
  have path := checkResultPath_eq_ok.mpr hr
  have given : branches.isEmpty = false := by simpa using hb
  have each : State.buildBranches 0 branches = Checked.each "Branches" Branch.build branches :=
    State.buildBranches_eq_inTurn 0 branches
  -- what is checked before the parts passes, and three lists and the exit are left
  simp only [State.build, checked, path, given, each, ok_bind, buildPolicies]
  simp [bind_eq_error, map_eq_error]

/-- A state that is ready to run branches stops at its faults, if its branches do. -/
theorem build_eq_error_of_branches (ready : p.Ready)
    (hb : ∀ b ∈ p.branches, ∀ e, Branch.build b = .error e ↔ Branch.Fault b e) {e : Defect} :
    State.build (.parallel p) = .error e ↔ State.Fault (.parallel p) e := by
  simp only [ready.build_eq_error, Checked.each_eq_error, Checked.exists_each_eq_ok]
  -- whatever stops the state, everything that is looked at before it is known to be fine
  constructor
  · rintro (⟨before, b, own, ⟨first, stops⟩, seen⟩ | ⟨branches, h⟩)
    · have place := b.located_build own stops
      have fault := (hb b first.mem own).mp stops
      exact .branch ready first fault ((Defect.seenBehind_iff place).mpr seen)
    rcases h with ⟨before, r, own, first, seen⟩ | ⟨retriers, h⟩
    · have located : Located r.check := r.failsOnly_check
      have place := located own first.fails
      exact .retrier ready branches first ((Defect.seenBehind_iff place).mpr seen)
    rcases h with ⟨before, c, own, first, seen⟩ | ⟨catchers, h⟩
    · have located : Located c.build := c.failsOnly_build
      have place := located own first.fails
      exact .catcher ready branches retriers first ((Defect.seenBehind_iff place).mpr seen)
    · exact .transition ready branches retriers catchers h
  · intro fault
    cases fault with
    | @branch _ before b own _ _ first fault seen =>
      exact .inl ⟨before, b, own, ⟨first, (hb b first.mem own).mpr fault⟩, seen.within⟩
    | retrier _ branches first seen => exact .inr ⟨branches, .inl ⟨_, _, _, first, seen.within⟩⟩
    | catcher _ branches retriers first seen =>
      exact .inr ⟨branches, .inr ⟨retriers, .inl ⟨_, _, _, first, seen.within⟩⟩⟩
    | transition _ branches retriers catchers fault =>
      exact .inr ⟨branches, .inr ⟨retriers, .inr ⟨catchers, fault⟩⟩⟩
    | field other => exact absurd ready (other p rfl)

end Parallel.Ready

namespace State

theorem build_eq_error_of_other {d : State} (other : ∀ p, d = .parallel p → ¬p.Ready)
    {e : Defect} : d.build = .error e ↔ d.Fault e := by
  constructor
  · exact .field other
  · intro fault
    cases fault with
    | field _ stops => exact stops
    | branch ready | retrier ready | catcher ready | transition ready =>
      exact absurd ready (other _ rfl)

mutual

/-- **A state stops at its faults**, at any depth of branches. -/
theorem build_eq_error (d : State) (e : Defect) : d.build = .error e ↔ d.Fault e := by
  -- branches are only looked at in a state that is ready; any other state stops by itself
  match d with
  | .parallel ⟨common, branches, resultPath, retriers, catchers, transition⟩ =>
    by_cases ready : Parallel.Ready ⟨common, branches, resultPath, retriers, catchers, transition⟩
    · exact ready.build_eq_error_of_branches (build_branches_eq_error branches)
    · refine build_eq_error_of_other fun p hp => ?_
      obtain rfl := State.parallel.inj hp
      exact ready
  | .task _ | .pass _ | .wait _ | .choice _ | .succeed _ | .fail _ =>
    exact build_eq_error_of_other fun p hp => by cases hp

theorem build_branches_eq_error (branches : List (Branch State)) :
    ∀ b ∈ branches, ∀ e, b.build = .error e ↔ b.Fault e := by
  match branches with
  | [] => exact nofun
  | ⟨comment, startAt, states⟩ :: branches =>
    refine List.forall_mem_cons.mpr ⟨fun e => ?_, build_branches_eq_error branches⟩
    exact Branch.build_eq_error_of_states (build_states_eq_error states)

theorem build_states_eq_error (states : States) :
    ∀ entry ∈ states, ∀ e, State.build entry.2 = .error e ↔ State.Fault entry.2 e := by
  match states with
  | [] => exact nofun
  | (name, d) :: states =>
    exact List.forall_mem_cons.mpr ⟨build_eq_error d, build_states_eq_error states⟩

end

end State

/-- **A branch stops at its faults**, at any depth of branches in it. -/
theorem Branch.build_eq_error (b : Branch State) (e : Defect) : b.build = .error e ↔ b.Fault e :=
  build_eq_error_of_states (State.build_states_eq_error b.states)

namespace Machine

/-- **A build points at the first fault**, at any depth. A machine whose timeout is fine and that
names its first state stops at its first state that cannot be built, with the defect of that state
behind its name, and otherwise at the first complaint about its graph. The defect of a state is
found in the same way: one that is ready to run branches stops at the first of them that cannot be
built, then at its retriers, its catchers and its transition, and a branch stops as a machine does.
It is never the document that is malformed. -/
theorem build_first_fault {m : Machine} (timeout : m.timeoutSeconds ≠ some 0) {start : String}
    (named : m.startAt = some start) (nonempty : start ≠ "") :
    (∀ e, m.build = .error e ↔ ScopeFault start m.states e) ∧
    (∀ d e, State.build d = .error e ↔ State.Fault d e) ∧
    (∀ b e, Branch.build b = .error e ↔ Branch.Fault b e) ∧
    ∀ e, m.build = .error e → (DefinitionError.defect e).kind ≠ "MalformedDocument" := by
  refine ⟨fun e => ?_, State.build_eq_error, Branch.build_eq_error, fun e _ => ?_⟩
  · have checked : checkPositive "TimeoutSeconds" m.timeoutSeconds = .ok () :=
      checkPositive_eq_ok.mpr timeout
    have first := requireStart_eq_ok.mpr ⟨nonempty, named.symm⟩
    rw [build, checked, ok_bind, first, ok_bind]
    exact scope_eq_error nonempty (State.build_states_eq_error m.states) _
  · have names : ∀ kind : DefectKind, kind.name ≠ "MalformedDocument" := by
      intro kind
      cases kind <;> decide
    exact names e.kind

/-- A machine with a state in a branch that has no transition. -/
def unfinished : Machine where
  startAt := some "P"
  states := [("P", .parallel {
    branches := [
      { startAt := some "A", states := [("A", .succeed {})] },
      { startAt := some "B", states := [("B", .task { resource := some "arn" })] }]
    transition := some .finish })]

/-- The machine with the unfinished state stops at it, and says the whole way to it. -/
theorem build_first_fault_unfinished :
    ∃ e, unfinished.build = .error e ∧ ScopeFault "P" unfinished.states e ∧
      e.field = "States.P.Branches[1].States.B.Next/End" := by
  have found : (match unfinished.build with
      | .ok _ => none
      | .error e => some e.field) = some "States.P.Branches[1].States.B.Next/End" := by
    decide +kernel
  obtain ⟨stops, -⟩ := build_first_fault (m := unfinished) (by decide) rfl (by decide)
  cases h : unfinished.build with
  | ok built =>
    rw [h] at found
    cases found
  | error e =>
    rw [h] at found
    exact ⟨e, rfl, (stops e).mp h, Option.some.inj found⟩

end Machine

end Draft

end Workflow
