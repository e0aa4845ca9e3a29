import Mathlib.Data.List.Basic
import Mathlib.Data.List.Induction
import Workflow.Proofs.ScopeGraph

/-!
# What is complained about in a scope

The complaints about a scope are of two kinds, and never of both. The mentions of states that are
not there come first: they are found by going through the places of every state at which another
one may stand, and the names at these places are those that the flow of control goes by. So once
nothing is complained about here, control only gets to states of the scope, and the second question
makes sense: which states can control get to, but not out from?

## Main definitions

* `State.Place`, `State.mention?`: the places in a state, and what is mentioned there
* `Scope.mentions`: everything that is mentioned in a scope, with its place
* `State.Ends`: control leaves the scope with a state

## Main results

* `Scope.unresolved_defects`: the mentions that are complained about, and what is known without any
* `Scope.stranded_defects`: the states that are complained about when every mention is of a state
-/

namespace Workflow

open Relation (ReflTransGen)

/-! ### Where states are mentioned -/

namespace State

/-- A place in a state where another one may be mentioned. -/
inductive Place where
  | next
  | rule (index : Nat)
  | default
  | catcher (index : Nat)

/-- The way from a state to a place in it. -/
def Place.location : Place → Location
  | next => [.key "Next"]
  | rule index => [.item "Choices" index, .key "Next"]
  | default => [.key "Default"]
  | catcher index => [.item "Catch" index, .key "Next"]

/-- The rules of a state. -/
def rules : State → List Rule
  | choice c => c.rules
  | _ => []

/-- The state to which a choice sends control when no rule holds. -/
def default? : State → Option String
  | choice c => c.default
  | _ => none

/-- The places in a state, in the order of its parts. -/
def places (s : State) : List Place :=
  .next :: ((List.range s.rules.length).map .rule ++
    .default :: (List.range s.catchers.length).map .catcher)

/-- The name that stands at a place of a state. -/
def nameAt? (s : State) : Place → Option String
  | .next => s.transition?.bind Transition.next?
  | .rule index => s.rules[index]?.bind Rule.next?
  | .default => s.default?
  | .catcher index => s.catchers[index]?.bind fun c => c.transition.next?

/-- What is mentioned at a place of a state. -/
def mention? (s : State) (place : Place) : Option (Location × String) :=
  (s.nameAt? place).map fun target => (place.location, target)

end State

/-- Looking the items of a list up by their indexes is going through the list. -/
theorem filterMap_range_getElem? {α : Type} (items : List α) (f : α → Option String)
    (place : Nat → Location) :
    ((List.range items.length).filterMap fun index =>
        (items[index]?.bind f).map fun target => (place index, target)) =
      items.zipIdx.filterMap fun (a, index) => (f a).map fun target => (place index, target) := by
  -- the last item has the last index, so the list grows at its end
  induction items using List.reverseRecOn with
  | nil => rfl
  | append_singleton items a ih =>
    have before (index : Nat) (h : index ∈ List.range items.length) :
        (((items ++ [a])[index]?.bind f).map fun target => (place index, target)) =
          (items[index]?.bind f).map fun target => (place index, target) := by
      rw [List.getElem?_append_left (List.mem_range.mp h)]
    rw [List.length_append, List.length_singleton, List.range_succ, List.filterMap_append,
      List.filterMap_congr before, ih, List.zipIdx_append, List.filterMap_append]
    congr 1
    simp [List.filterMap_cons]

namespace State

/-- The parts of a state in which other ones are mentioned: its transition, its rules, its default
and its catchers. -/
theorem references_parts (s : State) :
    s.references =
      (s.transition?.bind Transition.next?).toList.map (fun target => ([.key "Next"], target)) ++
      ((s.rules.zipIdx.filterMap fun (rule, index) =>
          rule.next?.map fun target => ([.item "Choices" index, .key "Next"], target)) ++
        s.default?.toList.map fun target => ([.key "Default"], target)) ++
      s.catchers.zipIdx.filterMap fun (catcher, index) =>
        catcher.transition.next?.map fun target =>
          ([.item "Catch" index, .key "Next"], target) := by
  cases s <;> rfl

/-- What is mentioned in a state is what stands at its places, in their order. -/
theorem references_eq (s : State) : s.references = s.places.filterMap s.mention? := by
  have single (place : Location) (o : Option String) :
      (o.toList.map fun target => (place, target)) =
        (o.map fun target => (place, target)).toList := by
    cases o <;> rfl
  have rules := filterMap_range_getElem? s.rules Rule.next? fun index =>
    [.item "Choices" index, .key "Next"]
  have catchers := filterMap_range_getElem? s.catchers (fun c => c.transition.next?) fun index =>
    [.item "Catch" index, .key "Next"]
  rw [references_parts, ← rules, ← catchers, single, single]
  simp only [places, List.filterMap_eq_flatMap_toList, List.flatMap_cons, List.flatMap_append,
    List.flatMap_map, List.append_assoc]
  rfl

end State

namespace Scope

variable {startAt : String} {states : States}

/-- What is mentioned in a scope: its first state, and what stands at the places of its states. -/
def mentions (startAt : String) (states : States) : List (Location × String) :=
  ([.key "StartAt"], startAt) :: states.flatMap fun (name, s) =>
    (s.places.filterMap s.mention?).map fun (location, target) => (.state name :: location, target)

theorem references_eq_mentions (startAt : String) (states : States) :
    references startAt states = mentions startAt states := by
  simp only [references, mentions, State.references_eq]

/-- The names that are mentioned are those of the first state and of all successors. -/
theorem map_snd_mentions (startAt : String) (states : States) :
    (mentions startAt states).map Prod.snd =
      startAt :: states.flatMap fun m => m.2.successors := by
  rw [← references_eq_mentions, references, List.map_cons, List.map_flatMap]
  congr 2
  funext m
  rw [List.map_map, ← map_references]
  rfl

/-! ### Complaints about mentions -/

/-- A mention is complained about when no state has the name. -/
theorem unresolved_eq (startAt : String) (states : States) :
    unresolved startAt states = ((mentions startAt states).filter fun m => m.2 ∉ states.names).map
      fun m => ⟨m.1, .unresolved m.2⟩ := by
  rw [unresolved, references_eq_mentions, ← List.filterMap_eq_map, List.filterMap_filter]
  refine List.filterMap_congr fun m _ => ?_
  by_cases known : m.2 ∈ states.names
  · simp [known, contains_iff.mpr known]
  · have unknown : ¬states.contains m.2 = true := fun h => known (contains_iff.mp h)
    simp [known, unknown]

theorem kind_of_mem_unresolved {d : Defect} (h : d ∈ unresolved startAt states) :
    d.kind = .unresolvedReference := by
  rw [unresolved_eq] at h
  obtain ⟨m, -, rfl⟩ := List.mem_map.mp h
  rfl

theorem kind_of_mem_stranded {d : Defect} (h : d ∈ stranded startAt states) :
    d.kind = .noTerminalPath := by
  obtain ⟨name, -, rfl⟩ := List.mem_map.mp h
  rfl

/-- The complaints about a scope are about mentions, or about states when none is about a
mention. -/
theorem defects_cases (startAt : String) (states : States) :
    (unresolved startAt states ≠ [] ∧ defects startAt states = unresolved startAt states) ∨
      unresolved startAt states = [] ∧ defects startAt states = stranded startAt states := by
  unfold defects
  split
  · next none => exact .inr ⟨none, rfl⟩
  · next some => exact .inl ⟨some, rfl⟩

/-- **Every mention of a name that no state has is complained about, at its place.** The mentions
name the first state and the successors of all states, in this order. While one of them is
complained about, no state is said to be stranded; and when none is, control only gets to states of
the scope. -/
theorem unresolved_defects (startAt : String) (states : States) :
    (mentions startAt states).map Prod.snd =
        startAt :: states.flatMap (fun m => m.2.successors) ∧
      (defects startAt states).filter (fun d => d.kind = .unresolvedReference) =
        ((mentions startAt states).filter fun m => m.2 ∉ states.names).map
          (fun m => ⟨m.1, .unresolved m.2⟩) ∧
      ((∃ d ∈ defects startAt states, d.kind = .unresolvedReference) →
        ∀ d ∈ defects startAt states, d.kind ≠ .noTerminalPath) ∧
      ((∀ d ∈ defects startAt states, d.kind ≠ .unresolvedReference) →
        ∀ name ∈ reachable startAt states, name ∈ states.names) := by
  refine ⟨map_snd_mentions startAt states, ?_⟩
  rw [← unresolved_eq]
  rcases defects_cases startAt states with ⟨some, eq⟩ | ⟨none, eq⟩
  · -- all complaints are about mentions
    rw [eq]
    refine ⟨?_, ?_, ?_⟩
    · exact List.filter_eq_self.mpr fun d hd => by simp [kind_of_mem_unresolved hd]
    · intro _ d hd
      simp [kind_of_mem_unresolved hd]
    · intro all
      obtain ⟨d, hd⟩ := List.exists_mem_of_ne_nil _ some
      exact absurd (kind_of_mem_unresolved hd) (all d hd)
  · -- all complaints are about states, and all mentions are of states
    rw [eq, none]
    refine ⟨?_, ?_, ?_⟩
    · exact List.filter_eq_nil_iff.mpr fun d hd => by simp [kind_of_mem_stranded hd]
    · rintro ⟨d, hd, unresolved⟩
      rw [kind_of_mem_stranded hd] at unresolved
      cases unresolved
    · intro _ name hn
      obtain ⟨start, resolved⟩ := unresolved_eq_nil.mp none
      exact mem_names_of_reachable start resolved (mem_reachable_iff.mp hn)

/-- A state that has work done, and where control goes when that succeeds or fails. -/
def workThen (transition caught : Transition) : State :=
  .task ⟨{}, "work", none, none, none, none, [], [⟨[everyError], none, caught⟩], transition⟩

/-- A state that sends control to another one when a flag is set, and to a third one otherwise. -/
def fork (whenSet otherwise : String) : State :=
  .choice ⟨{}, [⟨.comparison ⟨⟨.boolean, .equals, fun _ => rfl⟩, "$.flag", .boolean true⟩,
    .next whenSet⟩], some otherwise⟩

example : (defects "Start" [("Work", workThen (.next "Missing") (.next "Ghost")),
      ("Check", fork "Ghost" "Work")]).map Defect.field =
    ["StartAt", "States.Work.Next", "States.Work.Catch[0].Next",
      "States.Check.Choices[0].Next"] := by
  decide

end Scope

/-! ### Complaints about states -/

/-- Control leaves the scope with a state: the state ends it, its transition finishes, or one of its
catchers does. -/
inductive State.Ends : State → Prop
  | succeed (common : Common) : Ends (.succeed common)
  | fail (f : Fail) : Ends (.fail f)
  | finish {s : State} (h : s.transition? = some .finish) : Ends s
  | caught {s : State} {c : Catcher} (hc : c ∈ s.catchers) (h : c.transition = .finish) : Ends s

theorem Transition.isFinish_iff {t : Transition} : t.isFinish = true ↔ t = .finish := by
  cases t <;> simp [isFinish]

theorem State.isTerminal_iff {s : State} : s.isTerminal = true ↔
    (∃ common, s = .succeed common) ∨ (∃ f, s = .fail f) ∨ s.transition? = some .finish := by
  cases s <;> simp [isTerminal, transition?, Transition.isFinish_iff]

namespace Scope

variable {startAt : String} {states : States}

theorem leaves_iff {s : State} : leaves s = true ↔ s.Ends := by
  simp only [leaves, Bool.or_eq_true, State.isTerminal_iff, List.any_eq_true,
    Transition.isFinish_iff]
  constructor
  · rintro ((⟨common, rfl⟩ | ⟨f, rfl⟩ | h) | ⟨c, hc, h⟩)
    · exact .succeed common
    · exact .fail f
    · exact .finish h
    · exact .caught hc h
  · rintro (common | f | h | ⟨hc, h⟩)
    · exact .inl (.inl ⟨common, rfl⟩)
    · exact .inl (.inr (.inl ⟨f, rfl⟩))
    · exact .inl (.inr (.inr h))
    · exact .inr ⟨_, hc, h⟩

/-- **The states that are complained about are those that control can get to but not out from**,
each of them once and in their order, when every mention in the scope is of a state. -/
theorem stranded_defects (distinct : states.names.Nodup) (start : startAt ∈ states.names)
    (resolved : ∀ m ∈ states, ∀ target ∈ m.2.successors, target ∈ states.names) :
    ∃ names : List String,
      defects startAt states = names.map (fun name => ⟨[.state name], .stranded⟩) ∧
      names.Sublist states.names ∧ names.Nodup ∧
      ∀ name, name ∈ names ↔
        ReflTransGen (Step State.successors states) startAt name ∧
          ¬∃ last s, ReflTransGen (Step State.successors states) name last ∧
            (last, s) ∈ states ∧ s.Ends := by
  have none : unresolved startAt states = [] := unresolved_eq_nil.mpr ⟨start, resolved⟩
  rcases defects_cases startAt states with ⟨some, -⟩ | ⟨-, eq⟩
  · exact absurd none some
  refine ⟨_, eq, List.filter_sublist, distinct.filter _, fun name => ?_⟩
  have escapes : name ∈ terminating states ↔ ∃ last s,
      ReflTransGen (Step State.successors states) name last ∧ (last, s) ∈ states ∧ s.Ends := by
    simp only [mem_terminating_iff, CanLeave, leaves_iff]
  have gets : name ∈ reachable startAt states ↔
      ReflTransGen (Step State.successors states) startAt name := by
    rw [mem_reachable_iff, moves_eq_step distinct]
  rw [← escapes, ← gets, List.mem_filter]
  simp only [Bool.and_eq_true, Bool.not_eq_true', List.contains_iff_mem, ← Bool.not_eq_true]
  constructor
  · exact And.right
  · rintro ⟨reached, stuck⟩
    -- only names of states are looked at, but all names that control gets to are among them
    have inside := mem_names_of_reachable start resolved (mem_reachable_iff.mp reached)
    exact ⟨inside, reached, stuck⟩

/-- A scope with a circle that control can leave, one that it cannot leave, and one that it does
not get to. -/
def circles : States := [
  ("Turn", fork "Spin" "Turn"),
  ("Start", workThen (.next "Spin") (.next "Retry")),
  ("Spin", fork "Turn" "Turn"),
  ("Retry", workThen (.next "Start") .finish),
  ("Orphan", fork "Orphan" "Orphan")]

theorem stranded_circles : circles.names.Nodup ∧ "Start" ∈ circles.names ∧
    (∀ m ∈ circles, ∀ target ∈ m.2.successors, target ∈ circles.names) ∧
    (defects "Start" circles).map Defect.field = ["States.Turn", "States.Spin"] ∧
    ∃ names : List String,
      defects "Start" circles = names.map (fun name => ⟨[.state name], .stranded⟩) ∧
      names.Sublist circles.names ∧ names.Nodup ∧
      ∀ name, name ∈ names ↔
        ReflTransGen (Step State.successors circles) "Start" name ∧
          ¬∃ last s, ReflTransGen (Step State.successors circles) name last ∧
            (last, s) ∈ circles ∧ s.Ends := by
  have distinct : circles.names.Nodup := by decide
  have start : "Start" ∈ circles.names := by decide
  have resolved : ∀ m ∈ circles, ∀ target ∈ m.2.successors, target ∈ circles.names := by decide
  exact ⟨distinct, start, resolved, by decide +kernel, stranded_defects distinct start resolved⟩

end Scope

end Workflow
