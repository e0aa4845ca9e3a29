import Workflow.Document.Encode

/-!
# The nodes of a machine and where they are written

The objects in the value of a machine are written for its nodes: for the machine itself, the states
and branches, their policies and rules, and the parts of conditions. A pointer says where in a value
something stands. The pointer to a node follows the nodes around it, so what is known of the members
of each kind of node is known at every depth.

## Main definitions

* `Json.Pointer`, `Json.At`: the ways into a value, and what stands at the end of them
* `Node`: a part of a machine that is written as an object
* `Node.children`: the nodes directly in a node, with the pointers to them
* `Node.Has`: the nodes in a node, at any depth
* `Node.selectors`, `Node.payloads`: the path fields of a node, and its values of any shape

## Main results

* `Node.Has.written`: the members of a node are written at its pointer
* `Node.selector_mem`, `Node.payload_mem`: fields are written under their keys
-/

namespace Workflow

namespace Json

/-! ### Pointers -/

/-- A step into a value: to a member of an object, or to an item of an array. -/
inductive Step where
  | key (name : String)
  | index (i : Nat)
  deriving DecidableEq

/-- The way to something in a value, from the outside in. -/
abbrev Pointer := List Step

/-- Something stands in a value at a pointer. Where an object repeats a key, several things do. -/
inductive At : Json → Pointer → Json → Prop
  | here {v : Json} : At v [] v
  | member {members : List (String × Json)} {key : String} {v w : Json} {rest : Pointer}
    (mem : (key, v) ∈ members) (deeper : At v rest w) : At (.object members) (.key key :: rest) w
  | item {items : List Json} {i : Nat} {v w : Json} {rest : Pointer}
    (found : items[i]? = some v) (deeper : At v rest w) : At (.array items) (.index i :: rest) w

namespace At

theorem trans {u v w : Json} {p q : Pointer} (h : u.At p v) (h' : v.At q w) :
    u.At (p ++ q) w := by
  induction h with
  | here => exact h'
  | member mem _ ih => exact .member mem (ih h')
  | item found _ ih => exact .item found (ih h')

/-- The value of a member. -/
theorem value {members : List (String × Json)} {key : String} {v : Json}
    (mem : (key, v) ∈ members) : (object members).At [.key key] v :=
  .member mem .here

end At

end Json

open Json (Pointer)

namespace Members

theorem mem_optional {α : Type} {toJson : α → Json} {o : Option α} {a : α} (h : o = some a)
    (key : String) : (key, toJson a) ∈ optional key toJson o := by
  subst h
  exact List.mem_cons_self

theorem mem_list {α : Type} {toJson : α → Json} {items : List α} (h : items ≠ [])
    (key : String) : (key, .array (items.map toJson)) ∈ list key toJson items := by
  cases items with
  | nil => exact absurd rfl h
  | cons a items => exact List.mem_cons_self

end Members

theorem Condition.toItems_eq_map (parts : List Condition) :
    toItems parts = parts.map fun part => .object part.toMembers := by
  induction parts with
  | nil => rfl
  | cons part parts ih => rw [toItems, ih, List.map_cons]

theorem State.branchItems_eq_map (branches : List (Branch State)) :
    branchItems branches = branches.map fun b =>
      .object (branchMembers b.comment b.startAt (stateMembers b.states)) := by
  induction branches with
  | nil => rfl
  | cons b branches ih => rw [branchItems, ih, List.map_cons]

theorem State.stateMembers_eq_map (states : States) :
    stateMembers states = states.map fun entry => (entry.1, .object entry.2.toMembers) := by
  induction states with
  | nil => rfl
  | cons entry states ih => rw [stateMembers, ih, List.map_cons]

/-! ### Nodes -/

/-- Where a state puts its result, if it has a place for it. -/
def State.resultPath? : State → Option Selector
  | task t => t.resultPath
  | pass p => p.resultPath
  | parallel p => p.resultPath
  | _ => none

/-- A part of a machine that is written as an object. The condition of a rule is written in the
object of the rule. -/
inductive Node where
  | machine (m : Machine)
  | state (s : State)
  | branch (b : Branch State)
  | retrier (r : Retrier)
  | catcher (c : Catcher)
  | rule (r : Rule)
  | condition (c : Condition)

namespace Node

/-- The members of the object of a node. -/
def members : Node → Members
  | machine m => m.toMembers
  | state s => s.toMembers
  | branch b => branchMembers b.comment b.startAt (State.stateMembers b.states)
  | retrier r => r.toMembers
  | catcher c => c.toMembers
  | rule r => r.toMembers
  | condition c => c.toMembers

/-- The object of a node. -/
def toJson (n : Node) : Json :=
  .object n.members

/-- The nodes of a list that is written under a key. -/
def listed {α : Type} (key : String) (node : α → Node) (items : List α) : List (Pointer × Node) :=
  items.zipIdx.map fun (a, i) => ([.key key, .index i], node a)

/-- The nodes of the states of a scope. -/
def scope (states : States) : List (Pointer × Node) :=
  states.map fun (name, s) => ([.key "States", .key name], state s)

/-- The nodes of the parts of a condition. -/
def parts : Condition → List (Pointer × Node)
  | .comparison _ => []
  | .and parts => listed "And" condition parts
  | .or parts => listed "Or" condition parts
  | .not part => [([.key "Not"], condition part)]

/-- The nodes directly in a node. -/
def children : Node → List (Pointer × Node)
  | machine m => scope m.states
  | branch b => scope b.states
  | state (.task t) => listed "Retry" retrier t.retriers ++ listed "Catch" catcher t.catchers
  | state (.choice c) => listed "Choices" rule c.rules
  | state (.parallel p) =>
    listed "Branches" branch p.branches ++ listed "Retry" retrier p.retriers ++
      listed "Catch" catcher p.catchers
  | state _ => []
  | retrier _ | catcher _ => []
  | rule r => parts r.condition
  | condition c => parts c

/-- The condition of a node that has one. -/
def condition? : Node → Option Condition
  | rule r => some r.condition
  | condition c => some c
  | _ => none

/-- A field that may be absent, under its key. -/
def field {α : Type} (key : String) (o : Option α) : List (String × α) :=
  (o.map fun a => (key, a)).toList

/-- The path fields of a node. -/
def selectors : Node → List (String × Selector)
  | state s =>
    field "InputPath" s.common.inputPath ++ field "OutputPath" s.common.outputPath ++
      field "ResultPath" s.resultPath?
  | catcher c => field "ResultPath" c.resultPath
  | _ => []

/-- The values of any shape in a node. -/
def payloads : Node → List (String × Json)
  | state (.task t) => field "Parameters" (t.parameters.map Json.object)
  | state (.pass p) => field "Result" p.result ++ field "Parameters" (p.parameters.map Json.object)
  | _ => []

/-- A node stands in a node, at any depth. -/
inductive Has : Node → Pointer → Node → Prop
  | self (n : Node) : Has n [] n
  | child {n c d : Node} {p q : Pointer} (mem : (p, c) ∈ n.children) (deeper : Has c q d) :
    Has n (p ++ q) d

theorem Has.single {n c : Node} {p : Pointer} (mem : (p, c) ∈ n.children) : n.Has p c := by
  rw [← List.append_nil p]
  exact .child mem (.self c)

/-! ### Where nodes are written -/

section

variable {α : Type} {key : String} {node : α → Node} {items : List α} {p : Pointer} {n : Node}

theorem mem_listed :
    (p, n) ∈ listed key node items ↔
      ∃ i a, items[i]? = some a ∧ p = [.key key, .index i] ∧ n = node a := by
  simp only [listed, List.mem_map, Prod.exists, List.mem_zipIdx_iff_getElem?, Prod.mk.injEq]
  constructor
  · rintro ⟨a, i, found, rfl, rfl⟩
    exact ⟨i, a, found, rfl, rfl⟩
  · rintro ⟨i, a, found, rfl, rfl⟩
    exact ⟨a, i, found, rfl, rfl⟩

theorem mem_field {a : α} {k : String} {o : Option α} :
    (k, a) ∈ field key o ↔ k = key ∧ o = some a := by
  cases o <;> simp [field, eq_comm]

/-- The nodes of a list are written one by one, wherever the list is. -/
theorem at_listed {members : Members} {toJson : α → Json}
    (written : (key, .array (items.map toJson)) ∈ members) (hn : ∀ a, (node a).toJson = toJson a)
    (h : (p, n) ∈ listed key node items) : (Json.object members).At p n.toJson := by
  obtain ⟨i, a, found, rfl, rfl⟩ := mem_listed.mp h
  have item : (items.map toJson)[i]? = some (node a).toJson := by
    rw [List.getElem?_map, found, Option.map_some, hn]
  exact .member written (.item item .here)

/-- The same for a list that is left out when it is empty. -/
theorem at_list {members : Members} {toJson : α → Json}
    (written : Members.list key toJson items ⊆ members) (hn : ∀ a, (node a).toJson = toJson a)
    (h : (p, n) ∈ listed key node items) : (Json.object members).At p n.toJson := by
  refine at_listed (written (Members.mem_list ?_ key)) hn h
  rintro rfl
  cases h

/-- The policies of a state are written in their lists. -/
theorem at_policies {members : Members} {rs : List Retrier} {cs : List Catcher}
    (hr : Members.list "Retry" Retrier.toJson rs ⊆ members)
    (hc : Members.list "Catch" Catcher.toJson cs ⊆ members)
    (h : (p, n) ∈ listed "Retry" retrier rs ++ listed "Catch" catcher cs) :
    (Json.object members).At p n.toJson := by
  rcases List.mem_append.mp h with h | h
  · exact at_list hr (fun _ => rfl) h
  · exact at_list hc (fun _ => rfl) h

/-- The states of a scope are written under their names. -/
theorem at_scope {members : Members} {states : States}
    (written : ("States", .object (State.stateMembers states)) ∈ members)
    (h : (p, n) ∈ scope states) : (Json.object members).At p n.toJson := by
  obtain ⟨⟨name, s⟩, hs, he⟩ := List.mem_map.mp h
  obtain ⟨rfl, rfl⟩ := Prod.mk.inj he
  rw [State.stateMembers_eq_map] at written
  exact .member written (.value (List.mem_map_of_mem hs))

/-- The parts of a condition are written in its object. -/
theorem at_parts {members : Members} {c : Condition} (hm : c.toMembers ⊆ members)
    (h : (p, n) ∈ parts c) : (Json.object members).At p n.toJson := by
  cases c with
  | comparison c => cases h
  | and cs =>
    rw [Condition.toMembers, Condition.toItems_eq_map] at hm
    exact at_listed (hm List.mem_cons_self) (fun _ => rfl) h
  | or cs =>
    rw [Condition.toMembers, Condition.toItems_eq_map] at hm
    exact at_listed (hm List.mem_cons_self) (fun _ => rfl) h
  | not part =>
    obtain ⟨rfl, rfl⟩ := Prod.mk.inj (List.mem_singleton.mp h)
    exact .value (hm List.mem_cons_self)

end

/-- A node is written where the node around it says. -/
theorem at_child {n c : Node} {p : Pointer} (h : (p, c) ∈ n.children) :
    n.toJson.At p c.toJson := by
  cases n with
  | machine m => exact at_scope (by simp [members, Machine.toMembers]) h
  | branch b => exact at_scope (by simp [members, branchMembers]) h
  | retrier r => cases h
  | catcher c => cases h
  | rule r => exact at_parts (List.subset_append_left ..) h
  | condition c => exact at_parts (List.Subset.refl _) h
  | state s =>
    cases s with
    | task t =>
      have policies : Members.list "Retry" Retrier.toJson t.retriers ⊆ t.toMembers ∧
          Members.list "Catch" Catcher.toJson t.catchers ⊆ t.toMembers :=
        ⟨fun m hm => by simp [Task.toMembers, hm], fun m hm => by simp [Task.toMembers, hm]⟩
      exact at_policies policies.1 policies.2 h
    | choice c =>
      have rules :
          ("Choices", .array (c.rules.map fun r => .object r.toMembers)) ∈ c.toMembers := by
        simp [Choice.toMembers]
      exact at_listed rules (fun _ => rfl) h
    | parallel p =>
      have branches :
          ("Branches", .array (State.branchItems p.branches)) ∈ (State.parallel p).toMembers := by
        simp [State.toMembers]
      have policies :
          Members.list "Retry" Retrier.toJson p.retriers ⊆ (State.parallel p).toMembers ∧
            Members.list "Catch" Catcher.toJson p.catchers ⊆ (State.parallel p).toMembers :=
        ⟨fun m hm => by simp [State.toMembers, hm], fun m hm => by simp [State.toMembers, hm]⟩
      rw [State.branchItems_eq_map] at branches
      rw [children, List.append_assoc] at h
      rcases List.mem_append.mp h with h | h
      · exact at_listed branches (fun _ => rfl) h
      · exact at_policies policies.1 policies.2 h
    | _ => cases h

/-- **The members of a node** are written at its pointer. -/
theorem Has.written {n d : Node} {p : Pointer} (h : n.Has p d) : n.toJson.At p d.toJson := by
  induction h with
  | self => exact .here
  | child mem _ ih => exact (at_child mem).trans ih

/-! ### Fields that are written as they are -/

theorem common_subset (s : State) : s.common.toMembers s.kind ⊆ s.toMembers := by
  intro m hm
  cases s <;> simp_all [State.common, State.kind, State.toMembers, Task.toMembers, Pass.toMembers,
    Wait.toMembers, Choice.toMembers, Fail.toMembers]

theorem resultPath_subset (s : State) :
    Members.optional "ResultPath" Selector.toJson s.resultPath? ⊆ s.toMembers := by
  intro m hm
  cases s with
  | task t => simp_all [State.resultPath?, State.toMembers, Task.toMembers]
  | pass p => simp_all [State.resultPath?, State.toMembers, Pass.toMembers]
  | parallel p => simp_all [State.resultPath?, State.toMembers]
  | _ => cases hm

/-- A path field is written under its key. -/
theorem selector_mem {n : Node} {key : String} {sel : Selector} (h : (key, sel) ∈ n.selectors) :
    (key, sel.toJson) ∈ n.members := by
  cases n with
  | state s =>
    rcases List.mem_append.mp h with h | h
    · apply common_subset s
      rcases List.mem_append.mp h with h | h
      · obtain ⟨rfl, hs⟩ := mem_field.mp h
        simp [Common.toMembers, Members.mem_optional hs]
      · obtain ⟨rfl, hs⟩ := mem_field.mp h
        simp [Common.toMembers, Members.mem_optional hs]
    · obtain ⟨rfl, hs⟩ := mem_field.mp h
      exact resultPath_subset s (Members.mem_optional hs _)
  | catcher c =>
    obtain ⟨rfl, hs⟩ := mem_field.mp h
    simp [members, Catcher.toMembers, Members.mem_optional hs]
  | _ => cases h

/-- A value of any shape is written under its key. -/
theorem payload_mem {n : Node} {key : String} {v : Json} (h : (key, v) ∈ n.payloads) :
    (key, v) ∈ n.members := by
  cases n with
  | state s =>
    cases s with
    | task t =>
      obtain ⟨rfl, hv⟩ := mem_field.mp h
      obtain ⟨parameters, hp, rfl⟩ := Option.map_eq_some_iff.mp hv
      simp [members, State.toMembers, Task.toMembers, Members.mem_optional hp]
    | pass p =>
      rcases List.mem_append.mp h with h | h
      · obtain ⟨rfl, hv⟩ := mem_field.mp h
        have result : ("Result", id v) ∈ Members.optional "Result" id p.result :=
          Members.mem_optional hv _
        simp_all [members, State.toMembers, Pass.toMembers]
      · obtain ⟨rfl, hv⟩ := mem_field.mp h
        obtain ⟨parameters, hp, rfl⟩ := Option.map_eq_some_iff.mp hv
        simp [members, State.toMembers, Pass.toMembers, Members.mem_optional hp]
    | _ => cases h
  | _ => cases h

end Node

end Workflow
