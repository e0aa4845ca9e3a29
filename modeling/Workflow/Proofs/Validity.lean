import Mathlib.Data.List.Basic
import Workflow.Proofs.Rebuild
import Workflow.Proofs.ScopeGraph

/-!
# Which machines can be built

A draft of a machine builds exactly when it follows the rules, which are said here of the draft
itself: every field is right by itself, and every scope, the machine and each of the branches in
it, is sound. That the names in a scope are looked up among the states that were built, and not
among their drafts, makes no difference.

## Main definitions

* `Draft.State.targets`, `Draft.State.leaves`: where a draft sends control
* `Draft.State.Valid`, `Draft.Machine.Valid`: the rules

## Main results

* `Draft.State.exists_build_iff`: what is asked of a state is all that is asked
* `Draft.Machine.buildable_iff_valid`: a machine can be built exactly when it is valid
-/

namespace Workflow

/-- What every item of a list comes from, the list comes from. -/
theorem exists_map_eq {α β : Type} {f : β → α} {Q : β → Prop} {as : List α}
    (h : ∀ a ∈ as, ∃ b, Q b ∧ f b = a) : ∃ bs : List β, (∀ b ∈ bs, Q b) ∧ bs.map f = as := by
  induction as with
  | nil => exact ⟨[], by simp⟩
  | cons a as ih =>
    rw [List.forall_mem_cons] at h
    obtain ⟨⟨b, hb, rfl⟩, has⟩ := h
    obtain ⟨bs, hbs, rfl⟩ := ih has
    exact ⟨b :: bs, List.forall_mem_cons.mpr ⟨hb, hbs⟩, rfl⟩

namespace Scope

variable {σ τ : Type} {f : σ → τ} {targets : τ → List String} {leaves : τ → Bool}
  {states : List (String × σ)}

theorem step_map : Step targets (states.map fun m => (m.1, f m.2)) =
    Step (fun s => targets (f s)) states := by
  ext a b
  simp only [Step, List.mem_map, Prod.mk.injEq, Prod.exists]
  constructor
  · rintro ⟨_, ⟨_, s, hs, rfl, rfl⟩, hb⟩
    exact ⟨s, hs, hb⟩
  · rintro ⟨s, hs, hb⟩
    exact ⟨f s, ⟨a, s, hs, rfl, rfl⟩, hb⟩

theorem moves_map : Moves targets (states.map fun m => (m.1, f m.2)) =
    Moves (fun s => targets (f s)) states := by
  ext a b
  simp only [Moves, Json.get?_map, Option.map_eq_some_iff]
  constructor
  · rintro ⟨_, ⟨s, found, rfl⟩, hb⟩
    exact ⟨s, found, hb⟩
  · rintro ⟨s, found, hb⟩
    exact ⟨f s, ⟨s, found, rfl⟩, hb⟩

theorem canLeave_map {a : String} :
    CanLeave targets leaves (states.map fun m => (m.1, f m.2)) a ↔
      CanLeave (fun s => targets (f s)) (fun s => leaves (f s)) states a := by
  simp only [CanLeave, step_map, List.mem_map, Prod.mk.injEq, Prod.exists]
  constructor
  · rintro ⟨b, _, hab, ⟨_, s, hs, rfl, rfl⟩, hl⟩
    exact ⟨_, s, hab, hs, hl⟩
  · rintro ⟨b, s, hab, hs, hl⟩
    exact ⟨b, f s, hab, ⟨b, s, hs, rfl, rfl⟩, hl⟩

/-- A scope is sound whatever its states are turned into, as long as they send control to the same
states. -/
theorem sound_map {startAt : String} :
    Sound targets leaves startAt (states.map fun m => (m.1, f m.2)) ↔
      Sound (fun s => targets (f s)) (fun s => leaves (f s)) startAt states := by
  have names : (states.map fun m => (m.1, f m.2)).map Prod.fst = states.map Prod.fst := by
    rw [List.map_map]
    rfl
  constructor
  · rintro ⟨hs, hr, he⟩
    rw [names] at hs
    simp only [names, List.forall_mem_map] at hr
    simp only [moves_map, canLeave_map] at he
    exact ⟨hs, hr, he⟩
  · rintro ⟨hs, hr, he⟩
    refine ⟨names ▸ hs, ?_, ?_⟩
    · simpa only [names, List.forall_mem_map] using hr
    · simpa only [moves_map, canLeave_map] using he

end Scope

namespace Draft

/-! ### Where drafts send control -/

/-- The state a transition leads to, if it is there and leads to one. -/
def nextOf (transition : Option Transition) : List String :=
  (transition.bind Transition.next?).toList

/-- Whether a transition is there and leaves the scope. -/
def finishes (transition : Option Transition) : Bool :=
  transition.any Transition.isFinish

namespace State

/-- The states a draft sends control to: by its transition, its rules, its default and its
catchers. -/
def targets : State → List String
  | task t => nextOf t.transition ++ t.catchers.flatMap fun c => nextOf c.transition
  | pass p => nextOf p.transition
  | wait w => nextOf w.transition
  | choice c => (c.rules.flatMap fun r => nextOf r.transition) ++ c.default.toList
  | succeed _ | fail _ => []
  | parallel p => nextOf p.transition ++ p.catchers.flatMap fun c => nextOf c.transition

/-- Whether control can leave the scope right from a draft of a state. -/
def leaves : State → Bool
  | task t => finishes t.transition || t.catchers.any fun c => finishes c.transition
  | pass p => finishes p.transition
  | wait w => finishes w.transition
  | choice _ => false
  | succeed _ | fail _ => true
  | parallel p => finishes p.transition || p.catchers.any fun c => finishes c.transition

theorem targets_toDraft (s : Workflow.State) : s.toDraft.targets = s.successors := by
  have catchers (cs : List Workflow.Catcher) :
      ((cs.map Catcher.toDraft).flatMap fun c => nextOf c.transition) =
        cs.filterMap fun c => c.transition.next? := by
    rw [List.flatMap_map, List.filterMap_eq_flatMap_toList]
    rfl
  have rules (rs : List Workflow.Rule) :
      ((rs.map Rule.toDraft).flatMap fun r => nextOf r.transition) = rs.filterMap Rule.next? := by
    rw [List.flatMap_map, List.filterMap_eq_flatMap_toList]
    rfl
  cases s with
  | task t => exact congrArg₂ _ (List.append_nil _).symm (catchers t.catchers)
  | pass p => exact ((List.append_nil _).trans (List.append_nil _)).symm
  | wait w => exact ((List.append_nil _).trans (List.append_nil _)).symm
  | choice c =>
    refine Eq.trans ?_ (List.append_nil _).symm
    exact congrArg (· ++ c.default.toList) (rules c.rules)
  | succeed _ => rfl
  | fail _ => rfl
  | parallel p => exact congrArg₂ _ (List.append_nil _).symm (catchers p.catchers)

theorem leaves_toDraft (s : Workflow.State) : s.toDraft.leaves = Scope.leaves s := by
  have catchers (cs : List Workflow.Catcher) :
      ((cs.map Catcher.toDraft).any fun c => finishes c.transition) =
        cs.any fun c => c.transition.isFinish := by
    rw [List.any_map]
    rfl
  cases s with
  | task t => exact congrArg (finishes (some t.transition) || ·) (catchers t.catchers)
  | pass p => exact (Bool.or_false _).symm
  | wait w => exact (Bool.or_false _).symm
  | choice _ => rfl
  | succeed _ => rfl
  | fail _ => rfl
  | parallel p => exact congrArg (finishes (some p.transition) || ·) (catchers p.catchers)

@[simp]
theorem targets_settle (d : State) : d.settle.targets = d.targets := by
  cases d <;> rfl

@[simp]
theorem leaves_settle (d : State) : d.settle.leaves = d.leaves := by
  cases d <;> rfl

end State

/-! ### The rules -/

namespace State

mutual

/-- What is asked of a draft of a state, with all that is in its branches. -/
def Valid : State → Prop
  | task t => t.Valid
  | pass p => p.Valid
  | wait w => w.Valid
  | choice c => c.Valid
  | succeed common => common.Valid
  | fail _ => True
  | parallel ⟨common, branches, resultPath, retriers, catchers, transition⟩ =>
    common.Valid ∧ Selector.Conforms .reference resultPath ∧ branches ≠ [] ∧
      ValidBranches branches ∧ (∀ r ∈ retriers, r.Valid) ∧ (∀ c ∈ catchers, c.Valid) ∧
      ∃ t, t.Named ∧ transition = some t

/-- What is asked of branches: each is a sound scope of valid states. -/
def ValidBranches : List (Branch State) → Prop
  | [] => True
  | ⟨_, startAt, states⟩ :: branches =>
    (∃ name, name ≠ "" ∧ startAt = some name ∧ Scope.Sound targets leaves name states) ∧
      ValidStates states ∧ ValidBranches branches

/-- What is asked of the states of a scope, one by one. -/
def ValidStates : List (String × State) → Prop
  | [] => True
  | (_, state) :: states => Valid state ∧ ValidStates states

end

end State

/-- What is asked of a machine: its states are valid, and form a sound scope. -/
structure Machine.Valid (m : Machine) : Prop where
  timeout : m.timeoutSeconds ≠ some 0
  scope : ∃ name, name ≠ "" ∧ m.startAt = some name ∧
    Scope.Sound State.targets State.leaves name m.states
  states : State.ValidStates m.states

/-! ### Fields of valid drafts -/

mutual

theorem Condition.exists_typed {d : Condition} (h : d.Valid) :
    ∃ c : Workflow.Condition, c.Typed ∧ c.toDraft = d := by
  cases d with
  | comparison operator path value =>
    obtain ⟨-, -, hb⟩ := h
    exact ⟨.comparison ⟨⟨value.family, operator, hb⟩, path, value⟩, rfl, rfl⟩
  | and parts =>
    obtain ⟨cs, ht, rfl⟩ := exists_typedParts h.2
    exact ⟨.and cs, ht, rfl⟩
  | or parts =>
    obtain ⟨cs, ht, rfl⟩ := exists_typedParts h.2
    exact ⟨.or cs, ht, rfl⟩
  | not part =>
    obtain ⟨c, ht, rfl⟩ := exists_typed (d := part) h
    exact ⟨.not c, ht, rfl⟩

theorem Condition.exists_typedParts {ds : List Condition} (h : ValidParts ds) :
    ∃ cs, Workflow.Condition.TypedParts cs ∧ Workflow.Condition.toDrafts cs = ds := by
  cases ds with
  | nil => exact ⟨[], trivial, rfl⟩
  | cons d ds =>
    obtain ⟨c, ht, rfl⟩ := exists_typed h.1
    obtain ⟨cs, hts, rfl⟩ := exists_typedParts h.2
    exact ⟨c :: cs, ⟨ht, hts⟩, rfl⟩

end

theorem Catcher.exists_toDraft {d : Catcher} (h : d.Valid) :
    ∃ c : Workflow.Catcher, c.toDraft = d := by
  obtain ⟨t, -, ht⟩ := h.transition
  exact ⟨⟨d.errors, d.resultPath, t⟩, by rw [Workflow.Catcher.toDraft, ← ht]⟩

theorem exists_catchers {ds : List Catcher} (h : ∀ d ∈ ds, d.Valid) :
    ∃ cs : List Workflow.Catcher, cs.map Workflow.Catcher.toDraft = ds := by
  obtain ⟨cs, -, hcs⟩ := exists_map_eq (Q := fun _ => True) fun d hd =>
    (Catcher.exists_toDraft (h d hd)).imp fun _ hc => ⟨trivial, hc⟩
  exact ⟨cs, hcs⟩

theorem Rule.exists_typed {d : Rule} (h : d.Valid) :
    ∃ r : Workflow.Rule, r.condition.Typed ∧ r.toDraft = d := by
  obtain ⟨condition, transition⟩ := d
  obtain ⟨⟨_, hc, rfl⟩, name, -, rfl⟩ := h
  obtain ⟨c, ht, rfl⟩ := Condition.exists_typed hc
  exact ⟨⟨c, .next name⟩, ht, rfl⟩

theorem exists_parameters {o : Option Json} (h : ParametersValid o) :
    ∃ members : Option (List (String × Json)), members.map Json.object = o := by
  cases o with
  | none => exact ⟨none, rfl⟩
  | some value =>
    obtain ⟨members, rfl⟩ := h value rfl
    exact ⟨some members, rfl⟩

/-! ### States without branches -/

theorem Task.exists_build_iff {d : Task} : (∃ t, d.build = .ok t) ↔ d.Valid := by
  simp only [build_eq_ok]
  constructor
  · rintro ⟨-, h, -⟩
    exact h
  · intro h
    obtain ⟨resource, -, hr⟩ := h.resource
    obtain ⟨members, hm⟩ := exists_parameters h.parameters
    obtain ⟨catchers, hc⟩ := exists_catchers h.catchers
    obtain ⟨transition, -, ht⟩ := h.transition
    refine ⟨{ d.toCommon with
      resource, parameters := members, resultPath := d.resultPath,
      timeoutSeconds := d.timeoutSeconds, heartbeatSeconds := d.heartbeatSeconds,
      retriers := d.retriers, catchers, transition }, h, ?_⟩
    rw [Workflow.Task.toDraft, hr, hm, hc, ← ht]

theorem Pass.exists_build_iff {d : Pass} : (∃ p, d.build = .ok p) ↔ d.Valid := by
  simp only [build_eq_ok]
  constructor
  · rintro ⟨-, h, -⟩
    exact h
  · intro h
    obtain ⟨members, hm⟩ := exists_parameters h.parameters
    obtain ⟨transition, -, ht⟩ := h.transition
    have read : ∃ value, buildResult d.result = .ok value := by
      cases hr : d.result with
      | none => exact ⟨none, rfl⟩
      | some r =>
        obtain ⟨value, hv⟩ := r.exists_build_iff.mpr (h.result r hr)
        exact ⟨some value, by rw [buildResult, hv, ok_bind]⟩
    obtain ⟨result, hr⟩ := read
    refine ⟨{ d.toCommon with
      result, parameters := members, resultPath := d.resultPath, transition }, h, ?_⟩
    rw [Workflow.Pass.toDraft, (buildResult_eq_ok.mp hr).2, hm, ← ht, settle]

theorem Wait.exists_build_iff {d : Wait} : (∃ w, d.build = .ok w) ↔ d.Valid := by
  simp only [build_eq_ok]
  constructor
  · rintro ⟨-, h, -⟩
    exact h
  · intro h
    obtain ⟨delay, -, hd⟩ := h.delay
    obtain ⟨transition, -, ht⟩ := h.transition
    refine ⟨{ d.toCommon with delay, transition }, h, ?_⟩
    rw [Workflow.Wait.toDraft, hd, ← ht]

theorem Choice.exists_build_iff {d : Choice} : (∃ c, d.build = .ok c) ↔ d.Valid := by
  simp only [build_eq_ok]
  constructor
  · rintro ⟨-, h, -⟩
    exact h
  · intro h
    obtain ⟨rules, ht, hr⟩ := exists_map_eq fun r hm => Rule.exists_typed (h.rules r hm)
    refine ⟨{ d.toCommon with rules, default := d.default }, h, ht, ?_⟩
    rw [Workflow.Choice.toDraft, hr]

theorem exists_buildPolicies_iff {retriers : List Retrier} {catchers : List Catcher} :
    (∃ rs cs, buildPolicies retriers catchers = .ok (rs, cs)) ↔
      (∀ r ∈ retriers, r.Valid) ∧ ∀ c ∈ catchers, c.Valid := by
  simp only [buildPolicies_eq_ok]
  constructor
  · rintro ⟨_, _, hr, hc, -, -⟩
    exact ⟨hr, hc⟩
  · rintro ⟨hr, hc⟩
    obtain ⟨cs, hcs⟩ := exists_catchers hc
    exact ⟨retriers, cs, hr, hc, rfl, hcs⟩

theorem exists_requireTransition_iff {o : Option Transition} :
    (∃ t, requireTransition o = .ok t) ↔ ∃ t, t.Named ∧ o = some t := by
  simp only [requireTransition_eq_ok]

/-! ### Scopes -/

namespace State

theorem toDraftStates_eq_map (states : Workflow.States) :
    Workflow.State.toDraftStates states = states.map fun m => (m.1, m.2.toDraft) := by
  induction states with
  | nil => rfl
  | cons m states ih =>
    obtain ⟨name, s⟩ := m
    rw [Workflow.State.toDraftStates, ih, List.map_cons]

theorem settleStates_eq_map (states : States) :
    settleStates states = states.map fun m => (m.1, m.2.settle) := by
  induction states with
  | nil => rfl
  | cons m states ih =>
    obtain ⟨name, s⟩ := m
    rw [settleStates, ih, List.map_cons]

/-- **A scope is sound when its drafts are**: what is built sends control where its draft did. -/
theorem check_eq_ok_of_build {ds : States} {ss : Workflow.States} (h : buildStates ds = .ok ss)
    (name : String) : Scope.check name ss = .ok () ↔ Scope.Sound targets leaves name ds := by
  have same : (ss.map fun m => (m.1, m.2.toDraft)) = ds.map fun m => (m.1, m.2.settle) := by
    rw [← toDraftStates_eq_map, ← settleStates_eq_map, toDraftStates_of_build h]
  have built : Scope.Sound Workflow.State.successors Scope.leaves name ss ↔
      Scope.Sound targets leaves name (ss.map fun m => (m.1, m.2.toDraft)) := by
    rw [Scope.sound_map]
    simp only [targets_toDraft, leaves_toDraft]
  rw [Scope.check_eq_ok, built, same, Scope.sound_map]
  simp only [targets_settle, leaves_settle]

mutual

/-- **What is asked of a state is all that is asked.** -/
theorem exists_build_iff (d : State) : (∃ s, d.build = .ok s) ↔ d.Valid := by
  cases d with
  | task t => simp [build, Valid, ← Task.exists_build_iff]
  | pass p => simp [build, Valid, ← Pass.exists_build_iff]
  | wait w => simp [build, Valid, ← Wait.exists_build_iff]
  | choice c => simp [build, Valid, ← Choice.exists_build_iff]
  | succeed common => simp [build, Valid]
  | fail f => simp [build, Valid]
  | parallel p =>
    obtain ⟨common, branches, resultPath, retriers, catchers, transition⟩ := p
    rw [Valid, ← exists_buildBranches_iff 0 branches, ← exists_requireTransition_iff]
    have policies := @exists_buildPolicies_iff retriers catchers
    constructor
    · rintro ⟨s, h⟩
      obtain ⟨hc, hr, hn, bs, hb, rs, cs, hp, t, ht, -⟩ := build_parallel_eq_ok.mp h
      obtain ⟨hrs, hcs⟩ := policies.mp ⟨rs, cs, hp⟩
      exact ⟨hc, hr, hn, ⟨bs, hb⟩, hrs, hcs, t, ht⟩
    · rintro ⟨hc, hr, hn, ⟨bs, hb⟩, hrs, hcs, t, ht⟩
      obtain ⟨rs, cs, hp⟩ := policies.mpr ⟨hrs, hcs⟩
      exact ⟨_, build_parallel_eq_ok.mpr ⟨hc, hr, hn, bs, hb, rs, cs, hp, t, ht, rfl⟩⟩

theorem exists_buildBranches_iff (index : Nat) (ds : List (Branch State)) :
    (∃ bs, buildBranches index ds = .ok bs) ↔ ValidBranches ds := by
  cases ds with
  | nil => simp [buildBranches, ValidBranches]
  | cons d ds =>
    obtain ⟨comment, startAt, states⟩ := d
    rw [ValidBranches, ← exists_buildBranches_iff (index + 1) ds, ← exists_buildStates_iff states]
    simp only [buildBranches, bind_eq_ok, exists_unit, Checked.within_eq_ok, Except.ok.injEq]
    constructor
    · rintro ⟨-, name, hname, ss, hs, hscope, bs, hb, -⟩
      obtain ⟨hn, hstart⟩ := requireStart_eq_ok.mp hname
      exact ⟨⟨name, hn, hstart.symm, (check_eq_ok_of_build hs name).mp hscope⟩, ⟨ss, hs⟩, bs, hb⟩
    · rintro ⟨⟨name, hn, hstart, hsound⟩, ⟨ss, hs⟩, bs, hb⟩
      have hname := requireStart_eq_ok.mpr ⟨hn, hstart.symm⟩
      exact ⟨_, name, hname, ss, hs, (check_eq_ok_of_build hs name).mpr hsound, bs, hb, rfl⟩

theorem exists_buildStates_iff (ds : States) :
    (∃ ss, buildStates ds = .ok ss) ↔ ValidStates ds := by
  cases ds with
  | nil => simp [buildStates, ValidStates]
  | cons m ds =>
    obtain ⟨name, d⟩ := m
    rw [ValidStates, ← exists_build_iff d, ← exists_buildStates_iff ds]
    simp [buildStates]

end

end State

/-- **A machine can be built exactly when it is valid.** -/
theorem Machine.buildable_iff_valid (d : Machine) : (∃ m, d.build = .ok m) ↔ d.Valid := by
  simp only [build_eq_ok]
  constructor
  · rintro ⟨-, ht, name, hn, hstart, ss, hs, hscope, -⟩
    exact ⟨ht, ⟨name, hn, hstart.symm, (State.check_eq_ok_of_build hs name).mp hscope⟩,
      (State.exists_buildStates_iff _).mp ⟨ss, hs⟩⟩
  · rintro ⟨ht, ⟨name, hn, hstart, hsound⟩, hv⟩
    obtain ⟨ss, hs⟩ := (State.exists_buildStates_iff _).mpr hv
    exact ⟨_, ht, name, hn, hstart.symm, ss, hs, (State.check_eq_ok_of_build hs name).mpr hsound,
      rfl⟩

end Draft

end Workflow
