import Workflow.Defect
import Workflow.State.Flow

/-!
# Checks over the states of a scope

A scope is sound when every name in it is the name of one of its states, and control can get out
of it from every state that it can get to. The second question is only asked when the first one
has no complaint.

## Main definitions

* `State.references`: every mention of another state, with its place
* `unresolved`: the mentions that name no state
* `walk`, `reachable`: the names control can get to
* `sweep`, `saturate`, `terminating`: the names control can get out from
* `stranded`: the states control can get to but not out from
* `Scope.defects`: every complaint about a scope
* `Scope.check`: the first complaint
-/

namespace Workflow

/-- Every mention of another state in a state, with the place of the mention. -/
def State.references (s : State) : List (Location × String) :=
  let transition := (s.transition?.bind Transition.next?).toList.map fun target =>
    ([.key "Next"], target)
  let choice := match s with
    | .choice c =>
      (c.rules.zipIdx.filterMap fun (rule, index) =>
        rule.next?.map fun target => ([.item "Choices" index, .key "Next"], target)) ++
      c.default.toList.map fun target => ([.key "Default"], target)
    | _ => []
  let catchers := s.catchers.zipIdx.filterMap fun (catcher, index) =>
    catcher.transition.next?.map fun target => ([.item "Catch" index, .key "Next"], target)
  transition ++ choice ++ catchers

namespace Scope

/-- Every mention of a state in a scope, with its place. -/
def references (startAt : String) (states : States) : List (Location × String) :=
  ([.key "StartAt"], startAt) :: states.flatMap fun (name, state) =>
    state.references.map fun (location, target) => (.state name :: location, target)

/-- The mentions that name no state of the scope. -/
def unresolved (startAt : String) (states : States) : List Defect :=
  (references startAt states).filterMap fun (location, target) =>
    if states.contains target then none else some ⟨location, .unresolved target⟩

/-! ### What is left to be done

The two searches below end because every name they find takes something away from what the states
that are not found yet amount to. -/

/-- What the states amount to that are not among some names. -/
def outside (weight : State → Nat) (names : List String) : States → Nat
  | [] => 0
  | (name, state) :: states =>
    (if names.contains name then 0 else weight state) + outside weight names states

theorem outside_le {weight : State → Nat} {names more : List String}
    (grow : ∀ name ∈ names, name ∈ more) (states : States) :
    outside weight more states ≤ outside weight names states := by
  induction states with
  | nil => exact Nat.le_refl 0
  | cons entry states ih =>
    obtain ⟨name, state⟩ := entry
    simp only [outside, List.contains_iff_mem]
    by_cases known : name ∈ names
    · rw [if_pos known, if_pos (grow name known)]
      omega
    · rw [if_neg known]
      split <;> omega

/-- A state whose name is found amounts to nothing any more. -/
theorem outside_add_le {weight : State → Nat} {names more : List String} {states : States}
    {name : String} {state : State} (grow : ∀ name ∈ names, name ∈ more)
    (mem : (name, state) ∈ states) (new : name ∉ names) (found : name ∈ more) :
    outside weight more states + weight state ≤ outside weight names states := by
  induction states with
  | nil => cases mem
  | cons entry states ih =>
    rcases List.mem_cons.mp mem with rfl | mem
    -- the state itself counts no more, and the others count no more than before
    · have rest : outside weight more states ≤ outside weight names states :=
        outside_le grow states
      simp only [outside, List.contains_iff_mem, if_neg new, if_pos found]
      omega
    · have rest := ih mem
      obtain ⟨other, s⟩ := entry
      have first : outside weight more [(other, s)] ≤ outside weight names [(other, s)] :=
        outside_le grow _
      simp only [outside, List.contains_iff_mem] at first ⊢
      omega

/-! ### Where control can get to -/

/-- The transitions of the states that are not reached yet. -/
def unfollowed (states : States) (reached : List String) : Nat :=
  outside (fun state => state.successors.length) reached states

/-- Takes the names out of a queue from its front. A name that is taken for the first time is
reached, and the successors of its state join the queue. -/
def walk (states : States) (reached : List String) : (queue : List String) → List String
  | [] => reached
  | name :: queue =>
    if reached.contains name then walk states reached queue
    else
      match _found : states.get? name with
      | none => walk states (name :: reached) queue
      | some state => walk states (name :: reached) (queue ++ state.successors)
termination_by queue => unfollowed states reached + queue.length
decreasing_by
  · simp
  · have less : unfollowed states (name :: reached) ≤ unfollowed states reached :=
      outside_le (fun _ => List.mem_cons_of_mem name) states
    rw [List.length_cons]
    omega
  · next new =>
    -- the transitions of the state go over from those that are not followed to the queue
    have less : unfollowed states (name :: reached) + state.successors.length ≤
        unfollowed states reached :=
      outside_add_le (fun _ => List.mem_cons_of_mem name) (States.mem_of_get? ‹_›)
        (by simpa using new) List.mem_cons_self
    rw [List.length_append, List.length_cons]
    omega

/-- The names control can get to from a name. -/
def reachable (startAt : String) (states : States) : List String :=
  walk states [] [startAt]

/-! ### Where control can get out from -/

/-- Whether control can leave the scope right from a state: when the state completes, or when
one of its catchers applies. -/
def leaves (state : State) : Bool :=
  state.isTerminal || state.catchers.any fun catcher => catcher.transition.isFinish

/-- Goes over the states once. The name of a state that has a successor among the names found so far
is found as well. -/
def sweep (states : States) (names : List String) : List String :=
  states.foldl
    (fun names (name, state) =>
      if !names.contains name && state.successors.any names.contains then name :: names else names)
    names

theorem sweep_cons (name : String) (state : State) (states : States) (names : List String) :
    sweep ((name, state) :: states) names =
      sweep states
        (if !names.contains name && state.successors.any names.contains then name :: names
        else names) :=
  rfl

/-- A sweep only adds names of states, each of them new. -/
theorem exists_sweep_eq (states : States) (names : List String) :
    ∃ new, sweep states names = new ++ names ∧
      ∀ name ∈ new, name ∉ names ∧ ∃ state, (name, state) ∈ states := by
  induction states generalizing names with
  | nil => exact ⟨[], rfl, nofun⟩
  | cons entry states ih =>
    obtain ⟨name, state⟩ := entry
    rw [sweep_cons]
    -- what is found further on is new to a list that may have the name of this state already
    split
    · next adds =>
      obtain ⟨unknown, -⟩ : name ∉ names ∧ _ := by simpa using adds
      obtain ⟨new, eq, inside⟩ := ih (name :: names)
      refine ⟨new ++ [name], by rw [eq, List.append_cons], fun other ho => ?_⟩
      rcases List.mem_append.mp ho with ho | ho
      · obtain ⟨unseen, s, hs⟩ := inside other ho
        exact ⟨fun hm => unseen (List.mem_cons_of_mem name hm), s, List.mem_cons_of_mem _ hs⟩
      · obtain rfl := List.mem_singleton.mp ho
        exact ⟨unknown, state, List.mem_cons_self⟩
    · obtain ⟨new, eq, inside⟩ := ih names
      refine ⟨new, eq, fun other ho => ?_⟩
      obtain ⟨unseen, s, hs⟩ := inside other ho
      exact ⟨unseen, s, List.mem_cons_of_mem _ hs⟩

/-- After a sweep that found something there are fewer states left to be found. -/
theorem outside_sweep_lt {states : States} {names : List String}
    (more : (sweep states names).length ≠ names.length) :
    outside (fun _ => 1) (sweep states names) states < outside (fun _ => 1) names states := by
  obtain ⟨new, eq, inside⟩ := exists_sweep_eq states names
  cases new with
  | nil => simp [eq] at more
  | cons name new =>
    obtain ⟨unknown, state, mem⟩ := inside name List.mem_cons_self
    have less : outside (fun _ => 1) (name :: new ++ names) states + 1 ≤
        outside (fun _ => 1) names states :=
      outside_add_le (fun _ => List.mem_append_right _) mem unknown List.mem_cons_self
    rw [eq]
    exact less

/-- Sweeps over the states until a sweep finds nothing. -/
def saturate (states : States) (names : List String) : List String :=
  let more := sweep states names
  if more.length = names.length then more else saturate states more
termination_by outside (fun _ => 1) names states
decreasing_by exact outside_sweep_lt ‹_›

/-- The names of the states from which control can get out: those that leave by themselves, and
all that lead to one of these. -/
def terminating (states : States) : List String :=
  saturate states ((states.filter fun (_, state) => leaves state).map Prod.fst)

/-! ### Complaints -/

/-- The states control can get to but not out from, in their order. -/
def stranded (startAt : String) (states : States) : List Defect :=
  let reached := reachable startAt states
  let ending := terminating states
  (states.names.filter fun name => reached.contains name && !ending.contains name).map
    fun name => ⟨[.state name], .stranded⟩

/-- Every complaint about a scope. -/
def defects (startAt : String) (states : States) : List Defect :=
  match unresolved startAt states with
  | [] => stranded startAt states
  | defects => defects

/-- The first complaint about a scope, if there is one. -/
def check (startAt : String) (states : States) : Checked Unit :=
  match defects startAt states with
  | [] => .ok ()
  | defect :: _ => .error defect

end Scope

end Workflow
