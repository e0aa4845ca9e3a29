import Workflow.Document.Read
import Workflow.Document.Rule
import Workflow.Proofs.StateReading

/-!
# The normal form of a definition

A definition can be written in many ways that say the same. In the normal form of a value the keys
of every object of the grammar stand in canonical order, members that say nothing are left out, and
numbers and timestamps are spelt in one way. Names, texts, payloads and the order of states and of
all arrays stay as they are, and so does every key the grammar does not know.

## Main definitions

* `NormalForm.machine`: the normal form of the value of a machine
* `NormalForm.IsMachine`: machines, branches, states and policies are written as objects

## Main results

* `NormalForm.arrange_eq`: members whose keys are among some keys in order, in canonical order
-/

namespace Workflow.NormalForm

open Json (get?)
open Document (kindKey)

/-! ### Members -/

/-- The keys under which null says something. -/
def nullableKeys : List String := ["InputPath", "OutputPath", "ResultPath", "Result"]

/-- The keys of lists that may as well be left out when they are empty. -/
def policyKeys : List String := ["Retry", "Catch"]

/-- Whether a member says nothing. -/
def isSilent (key : String) : Json → Bool
  | .null => !nullableKeys.contains key
  | .array [] => policyKeys.contains key
  | _ => false

/-- Puts members in the order of some keys, with all others behind them. -/
def arrange (keys : List String) (members : Members) : Members :=
  (keys.filterMap fun key => (get? key members).map fun value => (key, value)) ++
    members.filter fun member => !keys.contains member.1

/-- An object whose members have been put in the order of some keys, without those that say
nothing. -/
def object (keys : List String) (members : Members) : Json :=
  .object (arrange keys (members.filter fun member => !isSilent member.1 member.2))

/-- Rewrites the value of every member by its key. -/
def rewrite (f : String → Json → Json) (members : Members) : Members :=
  members.map fun member => (member.1, f member.1 member.2)

/-! ### Numbers and timestamps -/

/-- A number as a double. -/
def double : Json → Json
  | .number n => Datum.ofDouble n.toDouble
  | other => other

/-- A number, as a double if it is a whole one that is no integer of 64 bits. -/
def numeric : Json → Json
  | .number (.whole n) =>
    if n.toInt64?.isSome then .number (.whole n) else double (.number (.whole n))
  | other => other

/-- A text in the canonical form of the timestamp it says. -/
def timestamp : Json → Json
  | .string text =>
    match Timestamp.parse text with
    | .ok t => .string t.text
    | .error _ => .string text
  | other => other

/-! ### Policies -/

/-- The keys of retriers. -/
def retrierKeys : List String := ["ErrorEquals", "IntervalSeconds", "MaxAttempts", "BackoffRate"]

/-- The keys of catchers. -/
def catcherKeys : List String := ["ErrorEquals", "ResultPath", "Next", "End"]

/-- The normal form of what stands in a retrier under a key. -/
def retrierMember (key : String) (value : Json) : Json :=
  if key = "BackoffRate" then double value else value

/-- The normal form of a retrier. -/
def retrier : Json → Json
  | .object members => object retrierKeys (rewrite retrierMember members)
  | other => other

/-- The normal form of a catcher. -/
def catcher : Json → Json
  | .object members => object catcherKeys members
  | other => other

/-! ### Rules -/

/-- The value that is compared with, under the name of a comparator. -/
def expected (key : String) (value : Json) : Json :=
  match (Comparator.ofKey? key).map Comparator.family with
  | some .numeric => numeric value
  | some .timestamp => timestamp value
  | _ => value

/-- The keys of conditions. -/
def conditionKeys : List String :=
  "Variable" :: Comparator.all.map Comparator.key ++ ["And", "Or", "Not"]

/-- The keys of rules and of the conditions in them. -/
def ruleKeys : List String :=
  conditionKeys ++ ["Next"]

mutual

/-- The normal form of a rule, or of a condition in one. -/
def rule : Json → Json
  | .object members => object ruleKeys (ruleMembers members)
  | other => other

/-- The members of a rule with their values in normal form. -/
def ruleMembers : Members → Members
  | [] => []
  | (key, value) :: members => (key, ruleMember key value) :: ruleMembers members

/-- The normal form of what stands in a rule under a key. -/
def ruleMember (key : String) : Json → Json
  | .array parts =>
    if key = "And" ∨ key = "Or" then .array (ruleItems parts) else .array parts
  | .object part => if key = "Not" then object ruleKeys (ruleMembers part) else .object part
  | value => expected key value

/-- The parts of a combination in normal form. -/
def ruleItems : List Json → List Json
  | [] => []
  | part :: parts => rule part :: ruleItems parts

end

/-! ### States and machines -/

/-- The keys of states of all kinds. -/
def stateKeys : List String :=
  ["Type", "Comment", "InputPath", "OutputPath", "Result", "Resource", "Parameters", "Seconds",
    "SecondsPath", "Timestamp", "TimestampPath", "Choices", "Default", "Error", "Cause",
    "Branches", "ResultPath", "TimeoutSeconds", "HeartbeatSeconds", "Retry", "Catch", "Next",
    "End"]

/-- The keys of branches. -/
def branchKeys : List String := ["Comment", "StartAt", "States"]

/-- The keys of machines. -/
def machineKeys : List String := ["Comment", "StartAt", "TimeoutSeconds", "Version", "States"]

mutual

/-- The normal form of a state. -/
def state : Json → Json
  | .object members => object stateKeys (stateMembers members)
  | other => other

/-- The members of a state with their values in normal form. -/
def stateMembers : Members → Members
  | [] => []
  | (key, value) :: members => (key, stateMember key value) :: stateMembers members

/-- The normal form of what stands in a state under a key. -/
def stateMember (key : String) : Json → Json
  | .array items =>
    if key = "Branches" then .array (branches items)
    else if key = "Retry" then .array (items.map retrier)
    else if key = "Catch" then .array (items.map catcher)
    else if key = "Choices" then .array (items.map rule)
    else .array items
  | .string text => if key = "Timestamp" then timestamp (.string text) else .string text
  | other => other

/-- Branches in normal form. -/
def branches : List Json → List Json
  | [] => []
  | item :: items => branch item :: branches items

/-- The normal form of a branch. -/
def branch : Json → Json
  | .object members => object branchKeys (scopeMembers members)
  | other => other

/-- The members of a branch or a machine with their values in normal form. -/
def scopeMembers : Members → Members
  | [] => []
  | (key, value) :: members => (key, scopeMember key value) :: scopeMembers members

/-- The normal form of what stands in a branch or a machine under a key. -/
def scopeMember (key : String) : Json → Json
  | .object members => if key = "States" then .object (states members) else .object members
  | other => other

/-- States in normal form, in the order in which they are written. -/
def states : Members → Members
  | [] => []
  | (name, value) :: members => (name, state value) :: states members

end

/-- The normal form of a machine. -/
def machine : Json → Json
  | .object members => object machineKeys (scopeMembers members)
  | other => other

/-! ### Objects -/

/-- A value is an object. -/
def IsObject (value : Json) : Prop := ∃ members, value = .object members

mutual

/-- A state is written as an object that says its kind by its name, and so are the states inside
it; branches and policies are written as objects. -/
def IsState : Json → Prop
  | .object members =>
    (∃ name, get? kindKey members = some (.string name)) ∧ HasStateMembers members
  | _ => False

/-- Branches, policies and the states inside the members of a state are written as objects. -/
def HasStateMembers : Members → Prop
  | [] => True
  | (key, value) :: members => IsStateMember key value ∧ HasStateMembers members

/-- Branches, policies and states inside what stands in a state under a key are written as
objects. -/
def IsStateMember (key : String) : Json → Prop
  | .array items =>
    (key = "Branches" → AreBranches items) ∧ (key ∈ policyKeys → ∀ item ∈ items, IsObject item)
  | _ => True

/-- Branches and the states inside them are written as objects. -/
def AreBranches : List Json → Prop
  | [] => True
  | item :: items => IsBranch item ∧ AreBranches items

/-- A branch and the states inside it are written as objects. -/
def IsBranch : Json → Prop
  | .object members => HasStates members
  | _ => False

/-- The states among the members of a branch or a machine are written as objects. -/
def HasStates : Members → Prop
  | [] => True
  | (key, value) :: members => (key = "States" → AreStates value) ∧ HasStates members

/-- The states of a scope are written as objects. -/
def AreStates : Json → Prop
  | .object members => AllStates members
  | _ => True

/-- The values of members are states that are written as objects. -/
def AllStates : Members → Prop
  | [] => True
  | (_, value) :: members => IsState value ∧ AllStates members

end

/-- A machine, and all branches, states and policies inside it, are written as objects, and the
kinds of the states are given by their names. -/
def IsMachine : Json → Prop
  | .object members => HasStates members
  | _ => False

/-! ### What is left of the members of an object -/

theorem stateMembers_eq_rewrite (members : Members) :
    stateMembers members = rewrite stateMember members := by
  induction members with
  | nil => rfl
  | cons m members ih => simpa [stateMembers, rewrite] using ih

theorem scopeMembers_eq_rewrite (members : Members) :
    scopeMembers members = rewrite scopeMember members := by
  induction members with
  | nil => rfl
  | cons m members ih => simpa [scopeMembers, rewrite] using ih

theorem ruleMembers_eq_rewrite (members : Members) :
    ruleMembers members = rewrite ruleMember members := by
  induction members with
  | nil => rfl
  | cons m members ih => simpa [ruleMembers, rewrite] using ih

/-- Leaves a value as it is, whatever its key. -/
def keep (_ : String) (value : Json) : Json := value

@[simp]
theorem rewrite_keep (members : Members) : rewrite keep members = members :=
  List.map_id members

@[simp]
theorem keys_rewrite (f : String → Json → Json) (members : Members) :
    (rewrite f members).map Prod.fst = members.map Prod.fst := by
  simp [rewrite]

theorem get?_rewrite (f : String → Json → Json) (key : String) (members : Members) :
    get? key (rewrite f members) = (get? key members).map (f key) := by
  induction members with
  | nil => rfl
  | cons m members ih =>
    obtain ⟨k, v⟩ := m
    by_cases h : k = key
    · subst h
      simp [rewrite, get?]
    · simpa [rewrite, get?, h] using ih

/-- A member that is kept is found where it was found before. -/
theorem get?_filter {members : Members} (hn : (members.map Prod.fst).Nodup)
    (p : String × Json → Bool) (key : String) :
    get? key (members.filter p) =
      (get? key members).bind fun value => if p (key, value) then some value else none := by
  induction members with
  | nil => rfl
  | cons m members ih =>
    obtain ⟨k, v⟩ := m
    obtain ⟨hk, hn⟩ := List.nodup_cons.mp hn
    by_cases h : k = key
    · subst h
      -- no other member has this key, so there is nothing to find once it is dropped
      have gone : get? k (members.filter p) = none :=
        Json.get?_eq_none.mpr fun hm => hk ((List.filter_sublist.map _).subset hm)
      by_cases hp : p (k, v) <;> simp [get?, hp, gone]
    · by_cases hp : p (k, v) <;> simp [get?, hp, h, ih hn]

/-- What the normal form of an object says under a key. -/
def said (f : String → Json → Json) (members : Members) (key : String) : Option Json :=
  (get? key members).bind fun value =>
    if isSilent key (f key value) then none else some (f key value)

/-- Names that are not found can be left out of an order. -/
theorem filterMap_of_sublist {β : Type} {g : String → Option β} {names keys : List String}
    (h : names.Sublist keys) (hn : keys.Nodup)
    (hg : ∀ key ∈ keys, key ∉ names → g key = none) : keys.filterMap g = names.filterMap g := by
  induction h with
  | slnil => rfl
  | cons key h ih =>
    obtain ⟨hk, hn⟩ := List.nodup_cons.mp hn
    have gone := hg key List.mem_cons_self fun hm => hk (h.subset hm)
    rw [List.filterMap_cons_none gone, ih hn fun k hm => hg k (List.mem_cons_of_mem _ hm)]
  | cons_cons key h ih =>
    obtain ⟨hk, hn⟩ := List.nodup_cons.mp hn
    have rest := ih hn fun k hm hk' => hg k (List.mem_cons_of_mem _ hm) fun hm' => by
      rcases List.mem_cons.mp hm' with rfl | hm'
      · exact hk hm
      · exact hk' hm'
    rw [List.filterMap_cons, List.filterMap_cons, rest]

/-- What is found under some names in turn, as members. -/
theorem filterMap_found {found : String → Option Json} (names : List String) :
    (names.filterMap fun key => (found key).map fun value => (key, value)) =
      names.flatMap fun key => Members.optional key id (found key) := by
  induction names with
  | nil => rfl
  | cons name names ih =>
    rw [List.flatMap_cons, ← ih]
    cases h : found name <;> simp [h, Members.optional]

/-- An object that has no keys but some names says what it says under these names, in canonical
order. -/
theorem object_rewrite {keys names : List String} {members : Members}
    (hm : Document.Shape.KeysIn names members) (hk : keys.Nodup) (hs : names.Sublist keys)
    (f : String → Json → Json) :
    object keys (rewrite f members) =
      .object (names.flatMap fun key => Members.optional key id (said f members key)) := by
  let kept := (rewrite f members).filter fun m => !isSilent m.1 m.2
  have found (key : String) : get? key kept = said f members key := by
    rw [get?_filter (by simpa using hm.nodup), get?_rewrite, said]
    cases get? key members with
    | none => rfl
    | some value => by_cases h : isSilent key (f key value) <;> simp [h]
  have known : ∀ key ∈ kept.map Prod.fst, key ∈ names := fun key hmem => by
    apply hm.known
    rw [← keys_rewrite f members]
    exact (List.filter_sublist.map _).subset hmem
  -- all keys that are kept have a place, so no member is put behind them
  have others : kept.filter (fun m => !keys.contains m.1) = [] := by
    rw [List.filter_eq_nil_iff]
    intro m hmem
    have := hs.subset (known m.1 (List.mem_map_of_mem hmem))
    simpa using this
  have absent : ∀ key ∈ keys, key ∉ names →
      ((get? key kept).map fun value => (key, value)) = none := fun key _ hne => by
    rw [Json.get?_eq_none.mpr fun hmem => hne (known key hmem), Option.map_none]
  show Json.object (arrange keys kept) = _
  rw [arrange, others, List.append_nil, filterMap_of_sublist hs hk absent]
  simp only [found, filterMap_found]

end Workflow.NormalForm
