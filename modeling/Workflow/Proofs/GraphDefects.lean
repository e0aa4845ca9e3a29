import Workflow.Document.Decode
import Workflow.Proofs.Results

/-!
# What the field checks leave to the build

The field checks of a state are the checks of its build, without those that look at the names in a
scope. A build may so stop at a defect of the graph where the field checks go on, but it stops at
nothing else that they do not stop at.

States that are read from a document have passed their field checks. What is left to the build of a
machine is then its graph, and the two fields of the machine itself that nothing has looked at: a
timeout of zero and a first state without a name are only refused when the machine is built.

## Main definitions

* `Defect.OfGraph`: a defect of the names in a scope
* `Checked.UpToGraph`: a build that does what a check says, up to defects of the graph

## Main results

* `UpToGraph.bind`: checks and builds that are made of steps
* `Draft.State.upToGraph`: the field checks of a state and its build, at any depth of branches
* `Draft.State.checkFields_of_build`: a state that can be built has nothing wrong with its fields
* `Draft.Machine.build_of_ofText`: how the machine that a text defines is built
-/

namespace Workflow

/-- A defect of the graph of a scope: a mention of a state that is not there, or a state that
control cannot leave. -/
def Defect.OfGraph (d : Defect) : Prop :=
  d.kind = .unresolvedReference ∨ d.kind = .noTerminalPath

/-! ### Checks and builds -/

namespace Checked

variable {α β γ δ : Type}

/-- A build does what a check says, except that it may stop at a defect of the graph, which the
check does not look for. -/
def UpToGraph : Checked α → Checked β → Prop
  | .ok _, build => ∀ d, build = .error d → d.OfGraph
  | .error e, build => ∃ d, build = .error d ∧ (d = e ∨ d.OfGraph)

/-- Where a check has no complaint, there is a result or a defect of the graph. -/
theorem upToGraph_ok {a : α} {build : Checked β} :
    UpToGraph (.ok a) build ↔ (∃ b, build = .ok b) ∨ ∃ d, build = .error d ∧ d.OfGraph := by
  cases build with
  | ok b => simp [UpToGraph]
  | error d => simp [UpToGraph]

namespace UpToGraph

protected theorem refl (x : Checked α) : UpToGraph x x := by
  cases x with
  | ok a => exact nofun
  | error e => exact ⟨e, rfl, .inl rfl⟩

/-- Steps that correspond may be taken on both sides. What comes behind them only matters when both
have a result. -/
theorem bind {x : Checked α} {y : Checked β} {f : α → Checked γ} {g : β → Checked δ}
    (h : UpToGraph x y) (hf : ∀ a b, x = .ok a → y = .ok b → UpToGraph (f a) (g b)) :
    UpToGraph (x >>= f) (y >>= g) := by
  cases x with
  | error e =>
    obtain ⟨d, rfl, hd⟩ := h
    exact ⟨d, rfl, hd⟩
  | ok a =>
    rcases upToGraph_ok.mp h with ⟨b, rfl⟩ | ⟨d, rfl, hd⟩
    · exact hf a b rfl rfl
    · -- the build has stopped, so whatever the check says is overruled
      rw [ok_bind, error_bind]
      cases f a with
      | ok c => exact upToGraph_ok.mpr (.inr ⟨d, rfl, hd⟩)
      | error e => exact ⟨d, rfl, .inr hd⟩

/-- The build may look at the graph in between. -/
theorem graph {x : Checked α} {y : Checked β} {g : β → Checked γ} (hy : UpToGraph (.ok ()) y)
    (h : ∀ b, y = .ok b → UpToGraph x (g b)) : UpToGraph x (y >>= g) :=
  hy.bind (f := fun _ => x) fun _ b _ hb => h b hb

/-- The results do not matter. -/
theorem map {x : Checked α} {y : Checked β} (h : UpToGraph x y) (f : α → γ) (g : β → δ) :
    UpToGraph (x >>= fun a => .ok (f a)) (y >>= fun b => .ok (g b)) :=
  h.bind fun _ _ _ _ => nofun

theorem map_right {x : Checked α} {y : Checked β} (h : UpToGraph x y) (g : β → δ) :
    UpToGraph x (y >>= fun b => .ok (g b)) := by
  have same : (x >>= fun a => .ok a) = x := by cases x <;> rfl
  exact same ▸ h.map id g

theorem within {x : Checked α} {y : Checked β} (h : UpToGraph x y) (step : Step) :
    UpToGraph (x.within step) (y.within step) := by
  cases x with
  | error e =>
    obtain ⟨d, rfl, hd⟩ := h
    exact ⟨d.within step, rfl, hd.imp_left (congrArg _)⟩
  | ok a =>
    rcases upToGraph_ok.mp h with ⟨b, rfl⟩ | ⟨d, rfl, hd⟩
    · exact upToGraph_ok.mpr (.inl ⟨b, rfl⟩)
    · exact upToGraph_ok.mpr (.inr ⟨d.within step, rfl, hd⟩)

/-- The check of what can be built has no complaint. -/
theorem exists_ok {x : Checked α} {y : Checked β} (h : UpToGraph x y) {b : β} (hy : y = .ok b) :
    ∃ a, x = .ok a := by
  cases x with
  | ok a => exact ⟨a, rfl⟩
  | error e =>
    obtain ⟨d, hd, -⟩ := h
    cases hy.symm.trans hd

end UpToGraph

end Checked

open Checked (UpToGraph)

/-! ### Scopes -/

namespace Scope

variable {startAt : String} {states : States} {d : Defect}

theorem ofGraph_of_mem_defects (h : d ∈ defects startAt states) : d.OfGraph := by
  have stray (h : d ∈ unresolved startAt states) : d.OfGraph := by
    obtain ⟨⟨location, target⟩, -, hd⟩ := List.mem_filterMap.mp h
    dsimp only at hd
    split at hd
    · cases hd
    · cases hd
      exact .inl rfl
  unfold defects at h
  split at h
  · obtain ⟨name, -, rfl⟩ := List.mem_map.mp h
    exact .inr rfl
  · exact stray h

theorem upToGraph_check (startAt : String) (states : States) :
    UpToGraph (.ok ()) (check startAt states) := by
  intro d h
  unfold check at h
  split at h
  · cases h
  · next hd =>
    cases h
    exact ofGraph_of_mem_defects (hd ▸ List.mem_cons_self)

end Scope

/-! ### States -/

namespace Draft.State

mutual

/-- **The field checks of a state are its build up to the graph.** -/
theorem upToGraph (d : State) : UpToGraph d.checkFields d.build := by
  match d with
  | .task t => exact (UpToGraph.refl t.build).map (fun _ => ()) _
  | .pass p => exact (UpToGraph.refl p.build).map (fun _ => ()) _
  | .wait w => exact (UpToGraph.refl w.build).map (fun _ => ()) _
  | .choice c => exact (UpToGraph.refl c.build).map (fun _ => ()) _
  | .succeed common => exact (UpToGraph.refl common.check).map_right _
  | .fail f => exact nofun
  | .parallel ⟨common, branches, resultPath, retriers, catchers, transition⟩ =>
    unfold checkFields build
    refine (UpToGraph.refl _).bind fun _ _ _ _ => (UpToGraph.refl _).bind fun _ _ _ _ => ?_
    by_cases hb : branches.isEmpty
    · rw [if_pos hb, if_pos hb]
      exact ⟨_, rfl, .inl rfl⟩
    · rw [if_neg hb, if_neg hb]
      -- only the branches have scopes of their own; the other fields are checked alike
      refine (upToGraph_branches 0 branches).bind fun _ _ _ _ => ?_
      refine (UpToGraph.refl _).bind fun _ _ _ _ => ?_
      exact (UpToGraph.refl _).map _ _

theorem upToGraph_branches (index : Nat) (branches : List (Branch State)) :
    UpToGraph (checkBranches index branches) (buildBranches index branches) := by
  match branches with
  | [] => exact nofun
  | ⟨comment, startAt, states⟩ :: branches =>
    unfold checkBranches buildBranches
    refine (UpToGraph.refl _).bind fun _ start _ _ => ?_
    refine ((upToGraph_states states).within _).bind fun _ built _ _ => ?_
    refine ((Scope.upToGraph_check start built).within _).graph fun _ _ => ?_
    exact (upToGraph_branches (index + 1) branches).map_right _

theorem upToGraph_states (states : States) :
    UpToGraph (checkStates states) (buildStates states) := by
  match states with
  | [] => exact nofun
  | (name, state) :: states =>
    unfold checkStates buildStates
    refine ((upToGraph state).within _).bind fun _ _ _ _ => ?_
    exact (upToGraph_states states).map_right _

end

/-- A state that can be built has nothing wrong with its fields. -/
theorem checkFields_of_build {d : State} {s : Workflow.State} (h : d.build = .ok s) :
    d.checkFields = .ok () := by
  obtain ⟨⟨⟩, checked⟩ := d.upToGraph.exists_ok h
  exact checked

end Draft.State

/-! ### Drafts of documents -/

/-- The states of a scope of a document have passed their field checks. -/
theorem Document.State.checkStates_of_draftStates {states : List (String × State)}
    {drafts : Draft.States} (h : draftStates states = .ok drafts) :
    Draft.State.checkStates drafts = .ok () := by
  induction states generalizing drafts with
  | nil =>
    cases h
    rfl
  | cons member states ih =>
    obtain ⟨name, state⟩ := member
    simp only [draftStates, bind_eq_ok, mapError_eq_ok, exists_unit, Except.ok.injEq] at h
    obtain ⟨d, -, checked, ds, hds, rfl⟩ := h
    rw [checkFields, mapError_eq_ok] at checked
    rw [Draft.State.checkStates, checked, ok_bind]
    exact ih hds

namespace Draft.Machine

theorem checkStates_of_ofText {text : String} {b : Machine} (h : ofText text = .ok b) :
    State.checkStates b.states = .ok () ∧ ∃ name, b.startAt = some name := by
  obtain ⟨document, -, h⟩ := ofReading_eq_ok.mp h
  obtain ⟨drafts, hd, h⟩ := bind_eq_ok.mp h
  cases h
  exact ⟨Document.State.checkStates_of_draftStates hd, _, rfl⟩

/-- **A text is refused, or what it defines is built up to its graph and the two fields of the
machine itself.** A timeout of zero is refused first, and an empty name of the first state
second. -/
theorem build_of_ofText (text : String) :
    (∃ reason, ofText text = .error reason) ∨
    ∃ b, ofText text = .ok b ∧
      (b.timeoutSeconds = some 0 ∧ b.build = .error (.invalid "TimeoutSeconds" .notPositive) ∨
        b.timeoutSeconds ≠ some 0 ∧ b.startAt = some "" ∧ b.build = .error (.missing "StartAt") ∨
        b.timeoutSeconds ≠ some 0 ∧ b.startAt ≠ some "" ∧
          ((∃ m, b.build = .ok m) ∨ ∃ d, b.build = .error d ∧ d.OfGraph)) := by
  cases h : ofText text with
  | error reason => exact .inl ⟨reason, rfl⟩
  | ok b =>
    refine .inr ⟨b, rfl, ?_⟩
    obtain ⟨checked, name, hname⟩ := checkStates_of_ofText h
    unfold build
    by_cases timeout : b.timeoutSeconds = some 0
    · exact .inl ⟨timeout, by rw [checkPositive, if_pos timeout]; rfl⟩
    right
    rw [checkPositive, if_neg timeout, ok_bind, hname, requireStart]
    by_cases start : name = ""
    · exact .inl ⟨timeout, congrArg some start, by rw [if_pos start]; rfl⟩
    right
    refine ⟨timeout, fun he => start (Option.some.inj he), ?_⟩
    rw [if_neg start, ok_bind, ← Checked.upToGraph_ok (a := ())]
    -- the states have been checked, so what is left are their own graphs and that of the machine
    have states := State.upToGraph_states b.states
    rw [checked] at states
    exact states.graph fun built _ => (Scope.upToGraph_check name built).graph fun _ _ => nofun

/-- A definition with a timeout of zero. -/
def instantly : Json :=
  .object [
    ("StartAt", .string "A"),
    ("TimeoutSeconds", .number (.whole ⟨0, by decide, by decide⟩)),
    ("States", .object [("A", .object [("Type", .string "Succeed")])])]

/-- Not everything that a text defines is built up to its graph. -/
theorem build_of_ofText_instantly : ¬∀ text, (∃ reason, ofText text = .error reason) ∨
    ∃ b, ofText text = .ok b ∧
      ((∃ m, b.build = .ok m) ∨ ∃ d, b.build = .error d ∧ d.OfGraph) := by
  intro all
  have stops : ((ofText instantly.compact).toOption.bind fun b =>
      match b.build with
      | .ok _ => none
      | .error d => some d.kind) = some .invalidValue := by
    decide +kernel
  rcases all instantly.compact with ⟨reason, h⟩ | ⟨b, h, ⟨m, hb⟩ | ⟨d, hb, hd⟩⟩
  · simp [h, Except.toOption] at stops
  · simp [h, hb, Except.toOption] at stops
  · have kind : d.kind = .invalidValue := by simpa [h, hb, Except.toOption] using stops
    rw [Defect.OfGraph, kind] at hd
    rcases hd with hd | hd
    · cases hd
    · cases hd

end Draft.Machine

end Workflow
