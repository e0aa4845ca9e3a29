import Workflow.Draft.Machine
import Workflow.Proofs.StateChecks

/-!
# The draft of what was built

A state or a machine says everything its draft said, so it can be turned back into a draft. That
draft is the one it was built from, but for fixed results, which have been read; and it builds to
the same state or machine.

## Main definitions

* `State.toDraft`, `Machine.toDraft`: the draft of what was built
* `Draft.State.settle`, `Draft.Machine.settle`: a draft in which every fixed result has been read

## Main results

* `Draft.Machine.toDraft_of_build`: what was built says what its draft said
* `Draft.Machine.build_settle`: it does not matter whether a fixed result has been read
* `Machine.build_toDraft`: what was built can be built again
-/

namespace Workflow

namespace State

mutual

/-- The draft of a state. -/
def toDraft : State → Draft.State
  | task t => .task t.toDraft
  | pass p => .pass p.toDraft
  | wait w => .wait w.toDraft
  | choice c => .choice c.toDraft
  | succeed common => .succeed common
  | fail f => .fail f
  | parallel ⟨common, branches, resultPath, retriers, catchers, transition⟩ =>
    .parallel { common with
      branches := toDraftBranches branches, resultPath, retriers,
      catchers := catchers.map Catcher.toDraft, transition := some transition }

/-- The drafts of branches. -/
def toDraftBranches : List (Branch State) → List (Draft.Branch Draft.State)
  | [] => []
  | ⟨comment, startAt, states⟩ :: branches =>
    ⟨comment, some startAt, toDraftStates states⟩ :: toDraftBranches branches

/-- The drafts of the states of a scope. -/
def toDraftStates : List (String × State) → Draft.States
  | [] => []
  | (name, state) :: states => (name, toDraft state) :: toDraftStates states

end

end State

/-- The draft of a machine. -/
def Machine.toDraft (m : Machine) : Draft.Machine :=
  ⟨m.comment, some m.startAt, m.timeoutSeconds, m.version, State.toDraftStates m.states⟩

namespace Draft

theorem requireStart_eq_ok {o : Option String} {name : String} :
    requireStart o = .ok name ↔ name ≠ "" ∧ some name = o := by
  cases o with
  | none => simp [requireStart]
  | some n =>
    by_cases h : n = ""
    · subst h
      simp [requireStart]
    · simp only [requireStart, if_neg h, Except.ok.injEq, Option.some.injEq]
      grind

namespace State

mutual

/-- A draft in which every fixed result has been read. -/
def settle : State → State
  | pass p => .pass p.settle
  | parallel ⟨common, branches, resultPath, retriers, catchers, transition⟩ =>
    .parallel ⟨common, settleBranches branches, resultPath, retriers, catchers, transition⟩
  | state => state

/-- Branches in which every fixed result has been read. -/
def settleBranches : List (Branch State) → List (Branch State)
  | [] => []
  | ⟨comment, startAt, states⟩ :: branches =>
    ⟨comment, startAt, settleStates states⟩ :: settleBranches branches

/-- States of a scope in which every fixed result has been read. -/
def settleStates : List (String × State) → States
  | [] => []
  | (name, state) :: states => (name, settle state) :: settleStates states

end

/-- A state that runs branches is built from its parts. -/
theorem build_parallel_eq_ok {p : Parallel State} {s : Workflow.State} :
    build (.parallel p) = .ok s ↔
      p.toCommon.Valid ∧ Selector.Conforms .reference p.resultPath ∧ p.branches ≠ [] ∧
        ∃ branches, buildBranches 0 p.branches = .ok branches ∧
          ∃ retriers catchers, buildPolicies p.retriers p.catchers = .ok (retriers, catchers) ∧
            ∃ transition, requireTransition p.transition = .ok transition ∧
              s = .parallel { p.toCommon with
                branches, resultPath := p.resultPath, retriers, catchers, transition } := by
  obtain ⟨common, branches, resultPath, retriers, catchers, transition⟩ := p
  simp only [build, bind_eq_ok, exists_unit, Common.check_eq_ok, checkResultPath_eq_ok,
    ite_throw_eq_ok, List.isEmpty_iff, Prod.exists, pure_eq_ok, @eq_comm _ _ s, ne_eq]

mutual

theorem toDraft_of_build {d : State} {s : Workflow.State} (h : d.build = .ok s) :
    s.toDraft = d.settle := by
  match d with
  | task t =>
    simp only [build, bind_eq_ok, Task.build_eq_ok, Except.ok.injEq] at h
    obtain ⟨t, ⟨-, rfl⟩, rfl⟩ := h
    rfl
  | pass p =>
    simp only [build, bind_eq_ok, Pass.build_eq_ok, Except.ok.injEq] at h
    obtain ⟨q, ⟨-, hq⟩, rfl⟩ := h
    simp only [Workflow.State.toDraft, settle, hq]
  | wait w =>
    simp only [build, bind_eq_ok, Wait.build_eq_ok, Except.ok.injEq] at h
    obtain ⟨w, ⟨-, rfl⟩, rfl⟩ := h
    rfl
  | choice c =>
    simp only [build, bind_eq_ok, Choice.build_eq_ok, Except.ok.injEq] at h
    obtain ⟨c, ⟨-, -, rfl⟩, rfl⟩ := h
    rfl
  | succeed common =>
    simp only [build, bind_eq_ok, Except.ok.injEq] at h
    obtain ⟨-, -, rfl⟩ := h
    rfl
  | fail f =>
    simp only [build, Except.ok.injEq] at h
    subst h
    rfl
  | parallel ⟨common, branches, resultPath, retriers, catchers, transition⟩ =>
    obtain ⟨-, -, -, built, hb, rs, cs, hp, t, ht, rfl⟩ := build_parallel_eq_ok.mp h
    obtain ⟨-, -, rfl, rfl⟩ := buildPolicies_eq_ok.mp hp
    obtain ⟨-, rfl⟩ := requireTransition_eq_ok.mp ht
    simp only [Workflow.State.toDraft, settle, toDraftBranches_of_build hb]

theorem toDraftBranches_of_build {index : Nat} {ds : List (Branch State)}
    {bs : List (Workflow.Branch Workflow.State)} (h : buildBranches index ds = .ok bs) :
    Workflow.State.toDraftBranches bs = settleBranches ds := by
  match ds with
  | [] =>
    obtain rfl : [] = bs := by simpa [buildBranches] using h
    rfl
  | ⟨comment, startAt, states⟩ :: ds =>
    simp only [buildBranches, bind_eq_ok, Checked.within_eq_ok, Except.ok.injEq] at h
    obtain ⟨start, hstart, built, hs, -, -, bs, hbs, rfl⟩ := h
    obtain ⟨-, rfl⟩ := requireStart_eq_ok.mp hstart
    simp only [Workflow.State.toDraftBranches, settleBranches, toDraftStates_of_build hs,
      toDraftBranches_of_build hbs]

theorem toDraftStates_of_build {ds : States} {ss : Workflow.States} (h : buildStates ds = .ok ss) :
    Workflow.State.toDraftStates ss = settleStates ds := by
  match ds with
  | [] =>
    obtain rfl : [] = ss := by simpa [buildStates] using h
    rfl
  | (name, d) :: ds =>
    simp only [buildStates, bind_eq_ok, Checked.within_eq_ok, Except.ok.injEq] at h
    obtain ⟨s, hs, ss, hss, rfl⟩ := h
    simp only [Workflow.State.toDraftStates, settleStates, toDraft_of_build hs,
      toDraftStates_of_build hss]

end

mutual

/-- It does not matter for building whether fixed results have been read before. -/
theorem build_settle (d : State) : d.settle.build = d.build := by
  match d with
  | task _ | wait _ | choice _ | succeed _ | fail _ => rfl
  | pass p => simp only [settle, build, Pass.build_settle]
  | parallel ⟨common, branches, resultPath, retriers, catchers, transition⟩ =>
    have hn : (settleBranches branches).isEmpty = branches.isEmpty := by
      rcases branches with _ | ⟨⟨_, _, _⟩, _⟩ <;> rfl
    simp only [settle, build, hn, buildBranches_settle]

theorem buildBranches_settle (index : Nat) (ds : List (Branch State)) :
    buildBranches index (settleBranches ds) = buildBranches index ds := by
  match ds with
  | [] => rfl
  | ⟨comment, startAt, states⟩ :: ds =>
    simp only [settleBranches, buildBranches, buildStates_settle, buildBranches_settle]

theorem buildStates_settle (ds : States) : buildStates (settleStates ds) = buildStates ds := by
  match ds with
  | [] => rfl
  | (name, d) :: ds => simp only [settleStates, buildStates, build_settle, buildStates_settle]

end

/-- What was built can be built again. -/
theorem build_toDraft {d : State} {s : Workflow.State} (h : d.build = .ok s) :
    s.toDraft.build = .ok s := by
  rw [toDraft_of_build h, build_settle, h]

/-- A state that runs branches can be built again only if its branches can. -/
theorem build_toDraft_parallel {p : Workflow.Parallel Workflow.State}
    (h : (Workflow.State.toDraft (.parallel p)).build = .ok (.parallel p)) :
    buildBranches 0 (Workflow.State.toDraftBranches p.branches) = .ok p.branches := by
  obtain ⟨common, branches, resultPath, retriers, catchers, transition⟩ := p
  obtain ⟨-, -, -, built, hb, rs, cs, -, t, -, hs⟩ := build_parallel_eq_ok.mp h
  simp only [Workflow.State.parallel.injEq, Workflow.Parallel.mk.injEq] at hs
  obtain ⟨-, rfl, -⟩ := hs
  exact hb

/-- Branches can be built again only one by one. -/
theorem build_toDraftBranches_cons {index : Nat} {b : Workflow.Branch Workflow.State}
    {bs : List (Workflow.Branch Workflow.State)}
    (h : buildBranches index (Workflow.State.toDraftBranches (b :: bs)) = .ok (b :: bs)) :
    buildStates (Workflow.State.toDraftStates b.states) = .ok b.states ∧
      buildBranches (index + 1) (Workflow.State.toDraftBranches bs) = .ok bs := by
  obtain ⟨comment, startAt, states⟩ := b
  simp only [Workflow.State.toDraftBranches, buildBranches, bind_eq_ok, Checked.within_eq_ok,
    Except.ok.injEq, List.cons.injEq, Workflow.Branch.mk.injEq] at h
  obtain ⟨_, -, _, hs, -, -, _, hbs, ⟨-, -, rfl⟩, rfl⟩ := h
  exact ⟨hs, hbs⟩

/-- States can be built again only one by one. -/
theorem build_toDraftStates_cons {name : String} {s : Workflow.State} {ss : Workflow.States}
    (h : buildStates (Workflow.State.toDraftStates ((name, s) :: ss)) = .ok ((name, s) :: ss)) :
    s.toDraft.build = .ok s ∧ buildStates (Workflow.State.toDraftStates ss) = .ok ss := by
  simp only [Workflow.State.toDraftStates, buildStates, bind_eq_ok, Checked.within_eq_ok,
    Except.ok.injEq, List.cons.injEq, Prod.mk.injEq] at h
  obtain ⟨_, hs, _, hss, ⟨-, rfl⟩, rfl⟩ := h
  exact ⟨hs, hss⟩

end State

namespace Machine

/-- A machine in which every fixed result has been read. -/
def settle (m : Machine) : Machine :=
  { m with states := State.settleStates m.states }

theorem build_eq_ok {d : Machine} {m : Workflow.Machine} :
    d.build = .ok m ↔
      d.timeoutSeconds ≠ some 0 ∧ ∃ startAt, startAt ≠ "" ∧ some startAt = d.startAt ∧
        ∃ states, State.buildStates d.states = .ok states ∧ Scope.check startAt states = .ok () ∧
          ⟨d.comment, startAt, d.timeoutSeconds, d.version, states⟩ = m := by
  simp only [build, bind_eq_ok, exists_unit, checkPositive_eq_ok, requireStart_eq_ok, and_assoc,
    Except.ok.injEq]

theorem toDraft_of_build {d : Machine} {m : Workflow.Machine} (h : d.build = .ok m) :
    m.toDraft = d.settle := by
  obtain ⟨-, startAt, -, hs, states, hb, -, rfl⟩ := build_eq_ok.mp h
  simp only [Machine.toDraft, settle, State.toDraftStates_of_build hb, hs]

theorem build_settle (d : Machine) : d.settle.build = d.build := by
  simp only [build, settle, State.buildStates_settle]

/-- What was built can be built again. -/
theorem build_toDraft {d : Machine} {m : Workflow.Machine} (h : d.build = .ok m) :
    m.toDraft.build = .ok m := by
  rw [toDraft_of_build h, build_settle, h]

/-- A machine can be built again only if its states can. -/
theorem build_toDraft_states {m : Workflow.Machine} (h : m.toDraft.build = .ok m) :
    State.buildStates (Workflow.State.toDraftStates m.states) = .ok m.states := by
  obtain ⟨-, _, -, -, states, hs, -, hm⟩ := build_eq_ok.mp h
  have same : states = m.states := congrArg Workflow.Machine.states hm
  rw [same] at hs
  exact hs

end Machine

end Draft

end Workflow
