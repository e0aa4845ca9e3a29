import Workflow.Proofs.Nodes
import Workflow.Proofs.Rounding
import Workflow.Proofs.ScopeNames

/-!
# Where the value of a machine is null

A number that is not finite would be written as null, and is refused when a machine is built: a
backoff rate with its retrier, an expected value with its comparison. These are far apart in the
machine, so what every node was built from is followed down to them, through branches and conditions
of any depth. Then the value of a machine is null exactly where it was asked for: where a path
discards data, and in values that are given as they are.

## Main definitions

* `Node.Built`: a node is built from a draft
* `Json.NeverNull`: there is no null in a value
* `Node.Discards`, `Node.Carries`: the places in which a node discards data, or carries a null in a
  value of any shape

## Main results

* `Node.Built.child`: the nodes in a node that was built were built
* `Node.Built.null_cases`: a null in a node is that of a field, or in a node inside
* `Node.Built.at_null_iff`: the places of all nulls
* `Draft.Machine.nulls_of_build`: the value of a machine that was built
-/

namespace Workflow

open Json (Pointer)

/-! ### Nodes that were built -/

namespace Condition

theorem valid_of_mem {cs : List Condition} (h : Draft.Condition.ValidParts (toDrafts cs))
    (ht : TypedParts cs) {c : Condition} (hc : c ∈ cs) : c.toDraft.Valid ∧ c.Typed := by
  induction cs with
  | nil => cases hc
  | cons first cs ih =>
    rcases List.mem_cons.mp hc with rfl | hc
    · exact ⟨h.1, ht.1⟩
    · exact ih h.2 ht.2 hc

end Condition

namespace Node

/-- A node is built from a draft. -/
def Built : Node → Prop
  | machine m => ∃ d : Draft.Machine, d.build = .ok m
  | state s => ∃ d : Draft.State, d.build = .ok s
  | branch b => ∃ ds, Draft.State.buildStates ds = .ok b.states
  | retrier r => r.Valid
  | catcher c => ∃ d : Draft.Catcher, d.build = .ok c
  | rule r => ∃ d : Draft.Rule, d.build = .ok r
  | condition c => ∃ d : Draft.Condition, d.build = .ok c

section

variable {α : Type} {key : String} {node : α → Node} {items : List α} {p : Pointer} {n : Node}

theorem built_of_mem_listed (h : (p, n) ∈ listed key node items)
    (hi : ∀ a ∈ items, (node a).Built) : n.Built := by
  obtain ⟨i, a, found, -, rfl⟩ := mem_listed.mp h
  exact hi a (List.mem_of_getElem? found)

theorem built_of_mem_scope {ds : Draft.States} {states : States}
    (hs : Draft.State.buildStates ds = .ok states) (h : (p, n) ∈ scope states) : n.Built := by
  obtain ⟨⟨name, s⟩, hm, he⟩ := List.mem_map.mp h
  obtain ⟨-, rfl⟩ := Prod.mk.inj he
  obtain ⟨d, -, built⟩ := Draft.State.exists_of_mem_buildStates hs hm
  exact ⟨d, built⟩

theorem built_of_mem_parts {c : Condition} (hc : (condition c).Built) (h : (p, n) ∈ parts c) :
    n.Built := by
  obtain ⟨d, hd⟩ := hc
  obtain ⟨valid, typed, rfl⟩ := Draft.Condition.build_eq_ok.mp hd
  have built {c : Condition} (h : c.toDraft.Valid ∧ c.Typed) : (condition c).Built :=
    ⟨c.toDraft, Draft.Condition.build_eq_ok.mpr ⟨h.1, h.2, rfl⟩⟩
  cases c with
  | comparison c => cases h
  | and cs | or cs =>
    exact built_of_mem_listed h fun c hc => built (Condition.valid_of_mem valid.2 typed hc)
  | not part =>
    obtain ⟨-, rfl⟩ := Prod.mk.inj (List.mem_singleton.mp h)
    exact built ⟨valid, typed⟩

/-- The policies of a state were built if the lists of them were. -/
theorem built_of_mem_policies {rs : List Retrier} {cs : List Catcher}
    (hr : ∀ r ∈ rs, r.Valid) (hc : ∀ c ∈ cs.map Catcher.toDraft, c.Valid)
    (h : (p, n) ∈ listed "Retry" retrier rs ++ listed "Catch" catcher cs) : n.Built := by
  rcases List.mem_append.mp h with h | h
  · exact built_of_mem_listed h hr
  · refine built_of_mem_listed h fun c hm => ⟨c.toDraft, ?_⟩
    exact Draft.Catcher.build_eq_ok.mpr ⟨hc _ (List.mem_map_of_mem hm), rfl⟩

end

/-- The condition of a node that was built was built. -/
theorem Built.condition {n : Node} (h : n.Built) {c : Condition} (hc : n.condition? = some c) :
    (Node.condition c).Built := by
  cases n with
  | rule r =>
    cases hc
    obtain ⟨d, hd⟩ := h
    obtain ⟨⟨⟨c, hc, hs⟩, -⟩, typed, rfl⟩ := Draft.Rule.build_eq_ok.mp hd
    obtain rfl := Option.some.inj hs
    exact ⟨_, Draft.Condition.build_eq_ok.mpr ⟨hc, typed, rfl⟩⟩
  | condition c => cases hc; exact h
  | _ => cases hc

/-- **The nodes in a node that was built** were built. -/
theorem Built.child {n c : Node} {p : Pointer} (h : n.Built) (hc : (p, c) ∈ n.children) :
    c.Built := by
  cases n with
  | machine m =>
    obtain ⟨d, hd⟩ := h
    obtain ⟨-, _, -, -, states, hs, -, rfl⟩ := Draft.Machine.build_eq_ok.mp hd
    exact built_of_mem_scope hs hc
  | branch b =>
    obtain ⟨ds, hs⟩ := h
    exact built_of_mem_scope hs hc
  | retrier r => cases hc
  | catcher c => cases hc
  | rule r => exact built_of_mem_parts (h.condition rfl) hc
  | condition c => exact built_of_mem_parts h hc
  | state s =>
    obtain ⟨d, hd⟩ := h
    -- a state can be built again from its own draft, whose kind is known
    have again := Draft.State.build_toDraft hd
    cases s with
    | task t =>
      simp only [State.toDraft, Draft.State.build, bind_eq_ok, Draft.Task.build_eq_ok] at again
      obtain ⟨_, ⟨valid, -⟩, -⟩ := again
      exact built_of_mem_policies valid.retriers valid.catchers hc
    | choice c =>
      simp only [State.toDraft, Draft.State.build, bind_eq_ok, Draft.Choice.build_eq_ok] at again
      obtain ⟨_, ⟨valid, typed, -⟩, he⟩ := again
      cases he
      refine built_of_mem_listed hc fun r hr => ⟨r.toDraft, ?_⟩
      exact Draft.Rule.build_eq_ok.mpr ⟨valid.rules _ (List.mem_map_of_mem hr), typed r hr, rfl⟩
    | parallel p =>
      have branches := Draft.State.build_toDraft_parallel again
      obtain ⟨-, -, -, -, -, rs, cs, policies, -⟩ := Draft.State.build_parallel_eq_ok.mp again
      obtain ⟨hrs, hcs, -, -⟩ := Draft.buildPolicies_eq_ok.mp policies
      rw [children, List.append_assoc] at hc
      rcases List.mem_append.mp hc with hc | hc
      · refine built_of_mem_listed hc fun b hb => ?_
        obtain ⟨d, -, hs⟩ := Draft.State.exists_of_mem_buildBranches branches hb
        exact ⟨d.states, hs⟩
      · exact built_of_mem_policies hrs hcs hc
    | _ => cases hc

/-- Every node in a node that was built was built. -/
theorem Built.has {n d : Node} {p : Pointer} (h : n.Built) (hd : n.Has p d) : d.Built := by
  induction hd with
  | self => exact h
  | child mem _ ih => exact ih (h.child mem)

end Node

/-! ### Numbers -/

/-- Every number in a value is finite. -/
theorem Json.Number.isFinite_toDouble (n : Json.Number) : n.toDouble.isFinite = true := by
  cases n with
  | whole n =>
    have lower := n.lower
    have upper := n.upper
    exact Double.isFinite_ofInt (by omega)
  | real x => rfl

/-- A finite double is written as a number. -/
theorem Datum.exists_ofDouble {x : Double} (h : x.isFinite = true) :
    ∃ y, x = .finite y ∧ ofDouble x = .number (.real y) := by
  cases x with
  | finite y => exact ⟨y, rfl, rfl⟩
  | _ => cases h

/-- A number that can be written is written as itself. -/
theorem Expected.exists_number {value : Numeric} (h : (numeric value).Writable) :
    ∃ x, (numeric value).toJson = .number x ∧ x.toDouble = value.toDouble := by
  cases value with
  | integer n => exact ⟨_, rfl, rfl⟩
  | double x =>
    obtain ⟨y, rfl, -⟩ := Datum.exists_ofDouble h
    exact ⟨_, rfl, rfl⟩

/-! ### Values without null -/

/-- There is no null in a value. -/
def Json.NeverNull (v : Json) : Prop :=
  ∀ p, ¬v.At p .null

namespace Json

theorem neverNull_bool (b : Bool) : (bool b).NeverNull := fun _ h => by cases h

theorem neverNull_number (n : Number) : (number n).NeverNull := fun _ h => by cases h

theorem neverNull_string (text : String) : (string text).NeverNull := fun _ h => by cases h

theorem neverNull_array {items : List Json} (h : ∀ v ∈ items, v.NeverNull) :
    (array items).NeverNull := by
  intro p hp
  cases hp with
  | item found deeper => exact h _ (List.mem_of_getElem? found) _ deeper

end Json

theorem neverNull_errorsJson (names : List String) : (errorsJson names).NeverNull := by
  refine Json.neverNull_array fun v hv => ?_
  obtain ⟨name, -, rfl⟩ := List.mem_map.mp hv
  exact Json.neverNull_string name

/-- An expected value that can be written is not null. -/
theorem Expected.neverNull_toJson {e : Expected} (h : e.Writable) : e.toJson.NeverNull := by
  cases e with
  | string text => exact Json.neverNull_string text
  | numeric value =>
    obtain ⟨x, hx, -⟩ := exists_number h
    exact hx ▸ Json.neverNull_number x
  | timestamp t => exact Json.neverNull_string _
  | boolean b => exact Json.neverNull_bool b

namespace Members

variable {α : Type} {key : String} {toJson : α → Json} {P : String × Json → Prop}

theorem forall_mem_optional {o : Option α} :
    (∀ m ∈ optional key toJson o, P m) ↔ ∀ a, o = some a → P (key, toJson a) := by
  cases o <;> simp [optional]

theorem forall_mem_list {items : List α} (h : P (key, .array (items.map toJson))) :
    ∀ m ∈ list key toJson items, P m := by
  cases items with
  | nil => exact fun _ hm => by cases hm
  | cons a items => exact List.forall_mem_singleton.mpr h

end Members

/-! ### Where the nulls of a node are -/

namespace Node

/-- A null in a node is that of a path field that discards data, or stands in a value of any shape
or in a node inside. -/
inductive Accounts (n : Node) : Pointer → Prop
  | selector {key : String} (mem : (key, .discard) ∈ n.selectors) : Accounts n [.key key]
  | payload {key : String} {v : Json} {p : Pointer} (mem : (key, v) ∈ n.payloads)
    (null : v.At p .null) : Accounts n (.key key :: p)
  | child {c : Node} {p q : Pointer} (mem : (p, c) ∈ n.children) (inside : p ≠ [])
    (null : c.toJson.At q .null) : Accounts n (p ++ q)

/-- All nulls in a member are accounted for. -/
def Covers (n : Node) (m : String × Json) : Prop :=
  ∀ p, m.2.At p .null → n.Accounts (.key m.1 :: p)

section

variable {n : Node} {key : String}

theorem covers_of_neverNull {v : Json} (h : v.NeverNull) : n.Covers (key, v) :=
  fun p hp => absurd hp (h p)

theorem covers_string (text : String) : n.Covers (key, .string text) :=
  covers_of_neverNull (Json.neverNull_string text)

theorem covers_number (x : Json.Number) : n.Covers (key, .number x) :=
  covers_of_neverNull (Json.neverNull_number x)

theorem covers_selector {sel : Selector} (h : (key, sel) ∈ n.selectors) :
    n.Covers (key, sel.toJson) := by
  intro p hp
  cases sel with
  | path text => exact absurd hp (Json.neverNull_string text p)
  | discard =>
    cases hp with
    | here => exact .selector h

theorem covers_payload {v : Json} (h : (key, v) ∈ n.payloads) : n.Covers (key, v) :=
  fun _ hp => .payload h hp

theorem covers_listed {α : Type} {node : α → Node} {items : List α} {toJson : α → Json}
    (h : listed key node items ⊆ n.children) (hn : ∀ a, (node a).toJson = toJson a) :
    n.Covers (key, .array (items.map toJson)) := by
  intro p hp
  cases hp with
  | @item _ i v _ rest found deeper =>
    rw [List.getElem?_map] at found
    obtain ⟨a, ha, rfl⟩ := Option.map_eq_some_iff.mp found
    have mem : ([.key key, .index i], node a) ∈ listed key node items :=
      mem_listed.mpr ⟨i, a, ha, rfl, rfl⟩
    exact .child (h mem) nofun (hn a ▸ deeper)

theorem covers_scope {states : States} (h : scope states ⊆ n.children) :
    n.Covers ("States", .object (State.stateMembers states)) := by
  intro p hp
  rw [State.stateMembers_eq_map] at hp
  cases hp with
  | member mem deeper =>
    obtain ⟨⟨name, s⟩, hs, he⟩ := List.mem_map.mp mem
    obtain ⟨rfl, rfl⟩ := Prod.mk.inj he
    have found : ([.key "States", .key name], state s) ∈ scope states :=
      List.mem_map.mpr ⟨_, hs, rfl⟩
    exact .child (h found) nofun deeper

theorem covers_transition (t : Transition) : ∀ m ∈ t.toMembers, n.Covers m := by
  cases t with
  | next name => exact List.forall_mem_singleton.mpr (covers_string name)
  | finish => exact List.forall_mem_singleton.mpr (covers_of_neverNull (Json.neverNull_bool true))

end

/-- The members that states have in common are null only to discard data. -/
theorem covers_common (s : State) : ∀ m ∈ s.common.toMembers s.kind, (state s).Covers m := by
  simp only [Common.toMembers, List.forall_mem_append, List.forall_mem_singleton,
    Members.forall_mem_optional, and_assoc]
  refine ⟨covers_string _, fun text _ => covers_string text, fun sel hs => ?_, fun sel hs => ?_⟩
  · exact covers_selector (by simp [selectors, mem_field, hs])
  · exact covers_selector (by simp [selectors, mem_field, hs])

theorem covers_resultPath (s : State) {sel : Selector} (h : s.resultPath? = some sel) :
    (state s).Covers ("ResultPath", sel.toJson) :=
  covers_selector (by simp [selectors, mem_field, h])

/-- The members of a comparison that was built are not null, and those of a combination are null
only in its parts. -/
theorem covers_condition {n : Node} {c : Condition} (h : (Node.condition c).Built)
    (hc : parts c ⊆ n.children) : ∀ m ∈ c.toMembers, n.Covers m := by
  cases c with
  | comparison c =>
    obtain ⟨d, hd⟩ := h
    obtain ⟨valid, -, rfl⟩ := Draft.Condition.build_eq_ok.mp hd
    refine List.forall_mem_cons.mpr ⟨covers_string _, List.forall_mem_singleton.mpr ?_⟩
    exact covers_of_neverNull (Expected.neverNull_toJson valid.2.1)
  | and cs =>
    rw [Condition.toMembers, Condition.toItems_eq_map, List.forall_mem_singleton]
    exact covers_listed hc fun _ => rfl
  | or cs =>
    rw [Condition.toMembers, Condition.toItems_eq_map, List.forall_mem_singleton]
    exact covers_listed hc fun _ => rfl
  | not part =>
    refine List.forall_mem_singleton.mpr fun p hp => ?_
    exact .child (hc List.mem_cons_self) nofun hp

theorem covers_task (t : Task) : ∀ m ∈ t.toMembers, (state (.task t)).Covers m := by
  simp only [Task.toMembers, List.forall_mem_append, List.forall_mem_singleton,
    Members.forall_mem_optional, and_assoc]
  have retriers : listed "Retry" retrier t.retriers ⊆ (state (.task t)).children :=
    List.subset_append_left ..
  have catchers : listed "Catch" catcher t.catchers ⊆ (state (.task t)).children :=
    List.subset_append_right ..
  refine ⟨covers_common (.task t), covers_string _, fun ps hp => ?_, fun sel hs => ?_,
    fun k _ => covers_number _, fun k _ => covers_number _, ?_, ?_, covers_transition _⟩
  · exact covers_payload (by simp [payloads, mem_field, hp])
  · exact covers_resultPath (.task t) hs
  · exact Members.forall_mem_list (covers_listed retriers fun _ => rfl)
  · exact Members.forall_mem_list (covers_listed catchers fun _ => rfl)

theorem covers_pass (q : Pass) : ∀ m ∈ q.toMembers, (state (.pass q)).Covers m := by
  simp only [Pass.toMembers, List.forall_mem_append, Members.forall_mem_optional, and_assoc]
  refine ⟨covers_common (.pass q), fun v hv => ?_, fun ps hp => ?_, fun sel hs => ?_,
    covers_transition _⟩
  · exact covers_payload (by simp [payloads, mem_field, hv])
  · exact covers_payload (by simp [payloads, mem_field, hp])
  · exact covers_resultPath (.pass q) hs

theorem covers_wait (w : Wait) : ∀ m ∈ w.toMembers, (state (.wait w)).Covers m := by
  simp only [Wait.toMembers, List.forall_mem_append, List.forall_mem_singleton, and_assoc]
  refine ⟨covers_common (.wait w), ?_, covers_transition _⟩
  cases w.delay with
  | seconds count => exact covers_number _
  | _ => exact covers_string _

theorem covers_choice (c : Choice) : ∀ m ∈ c.toMembers, (state (.choice c)).Covers m := by
  simp only [Choice.toMembers, List.forall_mem_append, List.forall_mem_singleton,
    Members.forall_mem_optional, and_assoc]
  have rules : listed "Choices" rule c.rules ⊆ (state (.choice c)).children := List.Subset.refl _
  exact ⟨covers_common (.choice c), covers_listed rules fun _ => rfl,
    fun name _ => covers_string name⟩

theorem covers_fail (f : Fail) : ∀ m ∈ f.toMembers, (state (.fail f)).Covers m := by
  simp only [Fail.toMembers, List.forall_mem_append, Members.forall_mem_optional, and_assoc]
  exact ⟨covers_common (.fail f), fun text _ => covers_string text,
    fun text _ => covers_string text⟩

theorem covers_parallel (p : Parallel State) :
    ∀ m ∈ (State.parallel p).toMembers, (state (.parallel p)).Covers m := by
  simp only [State.toMembers, State.branchItems_eq_map, List.forall_mem_append,
    List.forall_mem_singleton, Members.forall_mem_optional, and_assoc]
  have branches : listed "Branches" branch p.branches ⊆ (state (.parallel p)).children :=
    List.Subset.trans (List.subset_append_left ..) (List.subset_append_left ..)
  have retriers : listed "Retry" retrier p.retriers ⊆ (state (.parallel p)).children :=
    List.Subset.trans (List.subset_append_right ..) (List.subset_append_left ..)
  have catchers : listed "Catch" catcher p.catchers ⊆ (state (.parallel p)).children :=
    List.subset_append_right ..
  refine ⟨covers_common (.parallel p), covers_listed branches fun _ => rfl, fun sel hs => ?_, ?_,
    ?_, covers_transition _⟩
  · exact covers_resultPath (.parallel p) hs
  · exact Members.forall_mem_list (covers_listed retriers fun _ => rfl)
  · exact Members.forall_mem_list (covers_listed catchers fun _ => rfl)

theorem covers_state (s : State) : ∀ m ∈ s.toMembers, (state s).Covers m := by
  cases s with
  | task t => exact covers_task t
  | pass q => exact covers_pass q
  | wait w => exact covers_wait w
  | choice c => exact covers_choice c
  | succeed common => exact covers_common (.succeed common)
  | fail f => exact covers_fail f
  | parallel p => exact covers_parallel p

/-- **All nulls in the members of a node that was built are accounted for.** -/
theorem Built.covers {n : Node} (h : n.Built) : ∀ m ∈ n.members, n.Covers m := by
  cases n with
  | machine m =>
    simp only [members, Machine.toMembers, List.forall_mem_append, List.forall_mem_singleton,
      Members.forall_mem_optional, and_assoc]
    exact ⟨fun text _ => covers_string text, covers_string _, fun k _ => covers_number _,
      fun text _ => covers_string text, covers_scope (List.Subset.refl _)⟩
  | branch b =>
    simp only [members, branchMembers, List.forall_mem_append, List.forall_mem_cons,
      Members.forall_mem_optional]
    exact ⟨fun text _ => covers_string text, covers_string _, covers_scope (List.Subset.refl _),
      List.forall_mem_nil _⟩
  | retrier r =>
    simp only [members, Retrier.toMembers, List.forall_mem_append, List.forall_mem_singleton,
      Members.forall_mem_optional, and_assoc]
    refine ⟨covers_of_neverNull (neverNull_errorsJson _), fun k _ => covers_number _,
      fun k _ => covers_number _, fun rate hr => ?_⟩
    -- the rate has been checked, so it is written as a number
    obtain ⟨x, rfl, written⟩ := Datum.exists_ofDouble (h.backoff _ hr).1
    exact written ▸ covers_number _
  | catcher c =>
    simp only [members, Catcher.toMembers, List.forall_mem_append, List.forall_mem_singleton,
      Members.forall_mem_optional, and_assoc]
    refine ⟨covers_of_neverNull (neverNull_errorsJson _), fun sel hs => ?_, covers_transition _⟩
    exact covers_selector (by simp [selectors, mem_field, hs])
  | rule r =>
    simp only [members, Rule.toMembers, List.forall_mem_append]
    refine ⟨covers_condition (h.condition rfl) (List.Subset.refl _), fun m hm => ?_⟩
    obtain ⟨name, -, rfl⟩ := Option.map_eq_some_iff.mp (Option.mem_toList.mp hm)
    exact covers_string name
  | condition c => exact covers_condition h (List.Subset.refl _)
  | state s => exact covers_state s

/-- **A null in a node that was built** is that of a field, or stands in a node inside. -/
theorem Built.null_cases {n : Node} (h : n.Built) {p : Pointer} (hp : n.toJson.At p .null) :
    n.Accounts p := by
  cases hp with
  | member mem deeper => exact h.covers _ mem _ deeper

/-! ### Where all nulls are -/

/-- The places at which a node, or one in it, discards data. -/
def Discards (n : Node) (p : Pointer) : Prop :=
  ∃ place d key, n.Has place d ∧ (key, .discard) ∈ d.selectors ∧ p = place ++ [.key key]

/-- The places of the nulls in the values of any shape of a node, and of those in it. -/
def Carries (n : Node) (p : Pointer) : Prop :=
  ∃ place d key v rest, n.Has place d ∧ (key, v) ∈ d.payloads ∧ v.At rest .null ∧
    p = place ++ .key key :: rest

section

variable {n c : Node} {p q : Pointer}

theorem Discards.outside (mem : (p, c) ∈ n.children) (h : c.Discards q) : n.Discards (p ++ q) := by
  obtain ⟨place, d, key, has, discard, rfl⟩ := h
  exact ⟨p ++ place, d, key, .child mem has, discard, (List.append_assoc ..).symm⟩

theorem Carries.outside (mem : (p, c) ∈ n.children) (h : c.Carries q) : n.Carries (p ++ q) := by
  obtain ⟨place, d, key, v, rest, has, payload, null, rfl⟩ := h
  exact ⟨p ++ place, d, key, v, rest, .child mem has, payload, null, (List.append_assoc ..).symm⟩

theorem Discards.at_null (h : n.Discards p) : n.toJson.At p .null := by
  obtain ⟨place, d, key, has, discard, rfl⟩ := h
  exact has.written.trans (.value (selector_mem discard))

theorem Carries.at_null (h : n.Carries p) : n.toJson.At p .null := by
  obtain ⟨place, d, key, v, rest, has, payload, null, rfl⟩ := h
  exact has.written.trans (.member (payload_mem payload) null)

/-- **The nulls in a node that was built** are those that discard data and those of values of any
shape. -/
theorem Built.at_null_iff (h : n.Built) : n.toJson.At p .null ↔ n.Discards p ∨ n.Carries p := by
  constructor
  · -- by the length of the pointer, which gets shorter with every node
    intro hp
    induction hl : p.length using Nat.strong_induction_on generalizing n p with
    | _ length ih =>
      cases h.null_cases hp with
      | selector mem => exact .inl ⟨[], n, _, .self n, mem, rfl⟩
      | payload mem null => exact .inr ⟨[], n, _, _, _, .self n, mem, null, rfl⟩
      | @child c q rest mem inside null =>
        have shorter : rest.length < length := by
          have := List.length_pos_of_ne_nil inside
          rw [List.length_append] at hl
          omega
        exact (ih _ shorter (h.child mem) null rfl).imp (.outside mem) (.outside mem)
  · rintro (discards | carries)
    · exact discards.at_null
    · exact carries.at_null

end

end Node

/-! ### The value of a machine -/

namespace Node

variable {n : Node}

/-- The rate of a retrier that was built is finite, and is written as itself. -/
theorem Built.rate_mem {r : Retrier} (h : (retrier r).Built) {rate : Double}
    (hr : r.backoffRate = some rate) :
    ∃ x, rate = .finite x ∧ ("BackoffRate", .number (.real x)) ∈ (retrier r).members := by
  obtain ⟨x, rfl, written⟩ := Datum.exists_ofDouble (h.backoff _ hr).1
  refine ⟨x, rfl, List.mem_append_right _ ?_⟩
  rw [← written]
  exact Members.mem_optional hr _

/-- The expected value of a comparison that was built can be written, and is written under the name
of the comparator. -/
theorem Built.expected_mem (h : n.Built) {c : Comparison}
    (hc : n.condition? = some (.comparison c)) :
    c.expected.Writable ∧ (c.comparator.key, c.expected.toJson) ∈ n.members := by
  constructor
  · obtain ⟨d, hd⟩ := h.condition hc
    obtain ⟨valid, -, rfl⟩ := Draft.Condition.build_eq_ok.mp hd
    exact valid.2.1
  · cases n with
    | rule r =>
      cases r with
      | mk c' t =>
        cases hc
        exact List.mem_append_left _ (List.mem_cons_of_mem _ List.mem_cons_self)
    | condition c' =>
      cases hc
      exact List.mem_cons_of_mem _ List.mem_cons_self
    | _ => cases hc

end Node

namespace Draft.Machine

/-- **The value of a machine that was built is null only where it was asked for**: where a path
discards data, and inside values that are given as they are. All rates are finite and are written;
so are the expected values of all comparisons, at any depth and none of them as null; and so every
number in the value of the machine is finite. -/
theorem nulls_of_build {b : Machine} {m : Workflow.Machine} (h : b.build = .ok m) :
    (∀ p, m.toJson.At p .null ↔ (Node.machine m).Discards p ∨ (Node.machine m).Carries p) ∧
      (∀ p r rate, (Node.machine m).Has p (.retrier r) → r.backoffRate = some rate →
        ∃ x, rate = .finite x ∧ m.toJson.At (p ++ [.key "BackoffRate"]) (.number (.real x))) ∧
      (∀ p n c, (Node.machine m).Has p n → n.condition? = some (.comparison c) →
        m.toJson.At (p ++ [.key c.comparator.key]) c.expected.toJson ∧
          c.expected.toJson ≠ .null ∧
          ∀ value, c.expected = .numeric value → value.isFinite = true ∧
            ∃ x, c.expected.toJson = .number x ∧ x.toDouble = value.toDouble) ∧
      ∀ p x, m.toJson.At p (.number x) → x.toDouble.isFinite = true := by
  have built : (Node.machine m).Built := ⟨b, h⟩
  refine ⟨fun p => built.at_null_iff, fun p r rate has hr => ?_, fun p n c has hc => ?_,
    fun _ x _ => x.isFinite_toDouble⟩
  · obtain ⟨x, rfl, mem⟩ := (built.has has).rate_mem hr
    exact ⟨x, rfl, has.written.trans (.value mem)⟩
  · obtain ⟨writable, mem⟩ := (built.has has).expected_mem hc
    refine ⟨has.written.trans (.value mem), fun null => ?_, fun value he => ?_⟩
    · exact (null ▸ Expected.neverNull_toJson writable) [] .here
    · rw [he] at writable ⊢
      exact ⟨writable, Expected.exists_number writable⟩

/-- A draft in which data is discarded, with a rate and a comparison in a negation. -/
def discarding : Machine where
  startAt := some "Try"
  states := [
    ("Try", .task {
      resource := some "work"
      parameters := some (.object [("a", .null)])
      resultPath := some .discard
      retriers := [⟨["E"], none, none, some .two⟩]
      transition := some (.next "Look") }),
    ("Look", .choice {
      rules := [{
        condition := some (.not (.comparison .equals "$.x" (.numeric (.double .two))))
        transition := some (.next "Try") }]
      default := some "Stop" }),
    ("Stop", .succeed { inputPath := some .discard })]

/-- The result is discarded, and the rate and the value in the negation are numbers. -/
theorem nulls_of_build_discarding :
    let again : Retrier := ⟨["E"], none, none, some .two⟩
    let work : Workflow.Task :=
      ⟨{}, "work", some [("a", .null)], some .discard, none, none, [again], [], .next "Look"⟩
    let twice : Comparison := ⟨⟨.numeric, .equals, nofun⟩, "$.x", .numeric (.double .two)⟩
    let rule : Workflow.Rule := ⟨.not (.comparison twice), .next "Try"⟩
    let m : Workflow.Machine := ⟨none, "Try", none, none, [
      ("Try", .task work), ("Look", .choice ⟨{}, [rule], some "Stop"⟩),
      ("Stop", .succeed { inputPath := some .discard })]⟩
    discarding.build = .ok m ∧
      m.toJson.At [.key "States", .key "Try", .key "ResultPath"] .null ∧
      (∃ x, m.toJson.At [.key "States", .key "Try", .key "Retry", .index 0, .key "BackoffRate"]
        (.number (.real x))) ∧
      m.toJson.At [.key "States", .key "Look", .key "Choices", .index 0, .key "Not",
        .key "NumericEquals"] twice.expected.toJson ∧ twice.expected.toJson ≠ .null := by
  intro again work twice rule m
  have built : discarding.build = .ok m := by with_unfolding_all rfl
  obtain ⟨nulls, rates, values, -⟩ := nulls_of_build built
  -- the nodes on the way, each in the one before it
  have task : ([.key "States", .key "Try"], .state (.task work)) ∈ (Node.machine m).children :=
    List.mem_cons_self
  have retrier : ([.key "Retry", .index 0], .retrier again) ∈ (Node.state (.task work)).children :=
    List.mem_cons_self
  have choice : ([.key "States", .key "Look"], .state (.choice ⟨{}, [rule], some "Stop"⟩)) ∈
      (Node.machine m).children := List.mem_cons_of_mem _ List.mem_cons_self
  have first : ([.key "Choices", .index 0], .rule rule) ∈
      (Node.state (.choice ⟨{}, [rule], some "Stop"⟩)).children := List.mem_cons_self
  have negated : ([.key "Not"], .condition (.comparison twice)) ∈ (Node.rule rule).children :=
    List.mem_cons_self
  have discards : (Node.machine m).Discards [.key "States", .key "Try", .key "ResultPath"] :=
    ⟨_, _, _, .single task, List.mem_cons_self, rfl⟩
  obtain ⟨x, -, rate⟩ := rates _ again .two (.child task (.single retrier)) rfl
  obtain ⟨value, real, -⟩ := values _ _ twice (.child choice (.child first (.single negated))) rfl
  exact ⟨built, (nulls _).mpr (.inl discards), ⟨x, rate⟩, value, real⟩

end Draft.Machine

end Workflow
