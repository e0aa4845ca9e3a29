import Workflow.Proofs.ReadBack
import Workflow.Proofs.SoundValues

/-!
# Keys and names are not repeated

A value that was read repeats no key in an object, and a scope registers every name once. Drafts
inherit both from the ways in which they are put together, and hand them on to the value of what
is built: no object in it repeats a key.

## Main definitions

* `Draft.State.Distinct`, `Draft.Machine.Distinct`: no scope repeats a name, and no payload a key

## Main results

* `Json.distinct_of_parse`: a text never says a value with a repeated key
* `Draft.Machine.Distinct.edit`, `Draft.Machine.distinct_editAll`: changes keep names and keys
  distinct
* `Draft.Machine.distinct_toJson`: the value of what is built repeats no key
-/

namespace Workflow

namespace Json

/-! ### Objects -/

theorem nodup_insert {α : Type} (key : String) (value : α) {members : List (String × α)}
    (h : (members.map Prod.fst).Nodup) : ((insert key value members).map Prod.fst).Nodup := by
  rw [keys_insert]
  split
  · exact h
  · next hk =>
    refine List.nodup_append.mpr ⟨h, by simp, ?_⟩
    rintro k hm _ hk' rfl
    exact hk (List.mem_singleton.mp hk' ▸ hm)

theorem mem_of_mem_insert {α : Type} {key : String} {value : α} {members : List (String × α)}
    {m : String × α} (h : m ∈ insert key value members) : m = (key, value) ∨ m ∈ members := by
  induction members with
  | nil => exact .inl (by simpa [insert] using h)
  | cons n members ih =>
    obtain ⟨k, v⟩ := n
    rw [insert] at h
    split at h
    · rcases List.mem_cons.mp h with rfl | h
      · exact .inl rfl
      · exact .inr (List.mem_cons_of_mem _ h)
    · rcases List.mem_cons.mp h with rfl | h
      · exact .inr List.mem_cons_self
      · exact (ih h).imp_right (List.mem_cons_of_mem _)

theorem nodup_merge {α : Type} (members : List (String × α)) :
    ((merge members).map Prod.fst).Nodup := by
  induction members using List.reverseRecOn with
  | nil => exact List.nodup_nil
  | append_singleton members m ih =>
    rw [merge_snoc]
    exact nodup_insert m.1 m.2 ih

theorem mem_of_mem_merge {α : Type} {members : List (String × α)} {m : String × α}
    (h : m ∈ merge members) : m ∈ members := by
  induction members using List.reverseRecOn with
  | nil => exact h
  | append_singleton members n ih =>
    rw [merge_snoc] at h
    rw [List.mem_append, List.mem_singleton]
    exact (mem_of_mem_insert h).symm.imp_left ih

theorem distinct_merge {members : List (String × Json)} (h : DistinctMembers members) :
    (object (merge members)).Distinct :=
  ⟨nodup_merge members, distinctMembers_iff.mpr fun m hm =>
    distinctMembers_iff.mp h m (mem_of_mem_merge hm)⟩

end Json

/-! ### What is read -/

namespace Written

mutual

/-- A value that was read repeats no key, whatever was written. -/
theorem distinct_of_toJson {w : Written} {value : Json} (h : w.toJson = .ok value) :
    value.Distinct := by
  cases w with
  | null | bool _ | number _ | string _ => cases h; trivial
  | broken fault => cases h
  | array items fault =>
    obtain ⟨values, hv, h⟩ := bind_eq_ok.mp h
    cases fault with
    | some fault => cases h
    | none =>
      cases h
      exact distinct_of_toItems hv
  | object members fault =>
    obtain ⟨values, hv, h⟩ := bind_eq_ok.mp h
    cases fault with
    | some fault => cases h
    | none =>
      cases h
      -- of equal keys the last one stays, whatever was written
      exact Json.distinct_merge (distinct_of_toMembers hv)

theorem distinct_of_toItems {items : List Written} {values : List Json}
    (h : toItems items = .ok values) : Json.DistinctItems values := by
  cases items with
  | nil => cases h; trivial
  | cons item items =>
    simp only [toItems, bind_eq_ok, Except.ok.injEq] at h
    obtain ⟨v, hv, vs, hvs, rfl⟩ := h
    exact ⟨distinct_of_toJson hv, distinct_of_toItems hvs⟩

theorem distinct_of_toMembers {members : List (String × Written)} {values : Members}
    (h : toMembers members = .ok values) : Json.DistinctMembers values := by
  cases members with
  | nil => cases h; trivial
  | cons m members =>
    obtain ⟨key, w⟩ := m
    simp only [toMembers, bind_eq_ok, Except.ok.injEq] at h
    obtain ⟨v, hv, vs, hvs, rfl⟩ := h
    exact ⟨distinct_of_toJson hv, distinct_of_toMembers hvs⟩

end

end Written

theorem Json.distinct_of_parse {text : String} {value : Json} (h : parse text = .ok value) :
    value.Distinct :=
  Written.distinct_of_toJson (parse_eq_ok.mp h).1

/-! ### Drafts -/

namespace Draft

/-- A fixed result that is given as a value repeats no key. -/
def Result.Distinct : Result → Prop
  | value json => json.Distinct
  | text _ | unrepresentable _ => True

namespace State

mutual

/-- No scope in a state repeats a name, and no payload repeats a key. -/
def Distinct : State → Prop
  | task t => ∀ value ∈ t.parameters, value.Distinct
  | pass p => (∀ value ∈ p.parameters, value.Distinct) ∧ ∀ r ∈ p.result, r.Distinct
  | parallel ⟨_, branches, _, _, _, _⟩ => DistinctBranches branches
  | wait _ | choice _ | succeed _ | fail _ => True

/-- No scope in branches repeats a name, and no payload repeats a key. -/
def DistinctBranches : List (Branch State) → Prop
  | [] => True
  | ⟨_, _, states⟩ :: branches =>
    ((states.map Prod.fst).Nodup ∧ DistinctStates states) ∧ DistinctBranches branches

/-- No scope inside the states of a scope repeats a name, and no payload repeats a key. -/
def DistinctStates : States → Prop
  | [] => True
  | (_, state) :: states => Distinct state ∧ DistinctStates states

end

theorem distinctStates_iff {states : States} :
    DistinctStates states ↔ ∀ m ∈ states, m.2.Distinct := by
  induction states with
  | nil => simp [DistinctStates]
  | cons m states ih => simp [DistinctStates, ih]

end State

/-- Removing a name removes nothing else. -/
theorem States.remove_sublist (name : String) (states : States) :
    (remove name states).Sublist states := by
  rw [remove_eq_eraseP]
  exact List.eraseP_sublist

/-- No scope of a machine repeats a name, and no payload repeats a key. -/
structure Machine.Distinct (m : Machine) : Prop where
  names_nodup : (m.states.map Prod.fst).Nodup
  states : State.DistinctStates m.states

namespace Machine

theorem distinct_empty : Distinct {} :=
  ⟨List.nodup_nil, trivial⟩

theorem Distinct.register {m : Machine} (h : m.Distinct) (name : String) {state : State}
    (hs : state.Distinct) : (m.register name state).Distinct := by
  refine ⟨Json.nodup_insert name state h.names_nodup, State.distinctStates_iff.mpr ?_⟩
  intro n hn
  rcases Json.mem_of_mem_insert hn with rfl | hn
  · exact hs
  · exact State.distinctStates_iff.mp h.states n hn

theorem Distinct.remove {m : Machine} (h : m.Distinct) (name : String) :
    (m.remove name).Distinct := by
  have kept := States.remove_sublist name m.states
  refine ⟨h.names_nodup.sublist (kept.map _), State.distinctStates_iff.mpr fun n hn => ?_⟩
  exact State.distinctStates_iff.mp h.states n (kept.subset hn)

/-- Changes keep names and keys distinct when the states that are registered do. -/
theorem Distinct.edit {m : Machine} (h : m.Distinct) (e : Edit)
    (he : ∀ name state, e = .register name state → state.Distinct) : (m.edit e).Distinct := by
  cases e with
  | register name state => exact h.register name (he name state rfl)
  | remove name => exact h.remove name
  | _ => exact ⟨h.names_nodup, h.states⟩

/-- So names and keys are distinct in every draft that is made by changes. -/
theorem distinct_editAll {edits : List Edit}
    (h : ∀ name state, .register name state ∈ edits → state.Distinct) :
    Distinct (editAll {} edits) := by
  induction edits using List.reverseRecOn with
  | nil => exact distinct_empty
  | append_singleton edits e ih =>
    rw [editAll, List.foldl_append]
    refine (ih fun name state hm => h name state (List.mem_append_left _ hm)).edit e ?_
    rintro name state rfl
    exact h name state (List.mem_append_right _ List.mem_cons_self)

end Machine

/-! ### What is built -/

theorem Result.Distinct.distinct_of_build {r : Result} (h : r.Distinct) {value : Json}
    (hb : r.build = .ok value) : value.Distinct := by
  cases r with
  | value json => cases hb; exact h
  | text text =>
    rw [build] at hb
    split at hb
    · next hp => cases hb; exact Json.distinct_of_parse hp
    · cases hb
  | unrepresentable reason => cases hb

end Draft

/-! ### Values of what is built -/

namespace Json

@[simp]
theorem distinctMembers_append {xs ys : Members} :
    DistinctMembers (xs ++ ys) ↔ DistinctMembers xs ∧ DistinctMembers ys := by
  simp [distinctMembers_iff, or_imp, forall_and]

theorem distinctMembers_optional {α : Type} (key : String) {toJson : α → Json} {o : Option α}
    (h : ∀ a ∈ o, (toJson a).Distinct) : DistinctMembers (Members.optional key toJson o) := by
  cases o with
  | none => trivial
  | some a => exact ⟨h a rfl, trivial⟩

theorem distinctItems_map {α : Type} {toJson : α → Json} {items : List α}
    (h : ∀ a ∈ items, (toJson a).Distinct) : DistinctItems (items.map toJson) := by
  rw [distinctItems_iff]
  intro item hm
  obtain ⟨a, ha, rfl⟩ := List.mem_map.mp hm
  exact h a ha

theorem distinctMembers_list {α : Type} (key : String) {toJson : α → Json} {items : List α}
    (h : ∀ a ∈ items, (toJson a).Distinct) : DistinctMembers (Members.list key toJson items) := by
  cases items with
  | nil => trivial
  | cons a items => exact ⟨distinctItems_map h, trivial⟩

end Json

open Json (distinctMembers_optional distinctMembers_list)

theorem Selector.distinct_toJson (s : Selector) : s.toJson.Distinct := by
  cases s <;> trivial

theorem distinct_errorsJson (names : List String) : (errorsJson names).Distinct :=
  Json.distinctItems_map fun _ _ => trivial

theorem Datum.distinct_ofDouble (x : Double) : (Datum.ofDouble x).Distinct := by
  cases x <;> trivial

theorem Transition.distinct_toMembers (t : Transition) : Json.DistinctMembers t.toMembers := by
  cases t <;> exact ⟨trivial, trivial⟩

theorem Common.distinct_toMembers (kind : StateKind) (c : Common) :
    Json.DistinctMembers (c.toMembers kind) := by
  simp only [toMembers, Json.distinctMembers_append]
  exact ⟨⟨⟨⟨trivial, trivial⟩, distinctMembers_optional _ fun _ _ => trivial⟩,
    distinctMembers_optional _ fun _ _ => Selector.distinct_toJson _⟩,
    distinctMembers_optional _ fun _ _ => Selector.distinct_toJson _⟩

theorem Retrier.distinct_toJson (r : Retrier) : r.toJson.Distinct := by
  refine ⟨List.Nodup.sublist r.keys_toMembers Document.retrierShape_regular.names_nodup, ?_⟩
  simp only [toMembers, Json.distinctMembers_append]
  exact ⟨⟨⟨⟨distinct_errorsJson _, trivial⟩, distinctMembers_optional _ fun _ _ => trivial⟩,
    distinctMembers_optional _ fun _ _ => trivial⟩,
    distinctMembers_optional _ fun _ _ => Datum.distinct_ofDouble _⟩

theorem Catcher.distinct_toJson (c : Catcher) : c.toJson.Distinct := by
  refine ⟨List.Nodup.sublist c.keys_toMembers Document.catcherShape_regular.names_nodup, ?_⟩
  simp only [toMembers, Json.distinctMembers_append]
  exact ⟨⟨⟨distinct_errorsJson _, trivial⟩,
    distinctMembers_optional _ fun _ _ => Selector.distinct_toJson _⟩,
    c.transition.distinct_toMembers⟩

theorem Expected.distinct_toJson (value : Expected) : value.toJson.Distinct := by
  cases value with
  | numeric value =>
    cases value with
    | integer n => trivial
    | double x => exact Datum.distinct_ofDouble x
  | _ => trivial

namespace Condition

mutual

theorem distinct_toMembers (c : Condition) : (Json.object c.toMembers).Distinct := by
  cases c with
  | comparison c =>
    have h := c.comparator.key_notMem_wordKeys
    simp only [wordKeys, List.mem_cons, not_or] at h
    exact ⟨by simpa [toMembers] using Ne.symm h.1, trivial, c.expected.distinct_toJson, trivial⟩
  | and parts => exact ⟨by simp [toMembers], distinct_toItems parts, trivial⟩
  | or parts => exact ⟨by simp [toMembers], distinct_toItems parts, trivial⟩
  | not part => exact ⟨by simp [toMembers], distinct_toMembers part, trivial⟩

theorem distinct_toItems (cs : List Condition) : Json.DistinctItems (toItems cs) := by
  cases cs with
  | nil => trivial
  | cons c cs => exact ⟨distinct_toMembers c, distinct_toItems cs⟩

end

end Condition

theorem Rule.distinct_toMembers (r : Rule) : (Json.object r.toMembers).Distinct := by
  obtain ⟨hn, hd⟩ := r.condition.distinct_toMembers
  rw [toMembers]
  cases r.next? with
  | none => simpa using ⟨hn, hd⟩
  | some name =>
    refine ⟨?_, by simpa using ⟨hd, trivial, trivial⟩⟩
    rw [List.map_append, List.nodup_append]
    refine ⟨hn, by simp, ?_⟩
    rintro key hk _ hm rfl
    obtain rfl : key = "Next" := by simpa using hm
    exact r.condition.next_notMem_toMembers hk

open Json (distinctMembers_append)

theorem Task.distinct_toMembers (t : Task)
    (parameters : ∀ ms ∈ t.parameters, (Json.object ms).Distinct) :
    (Json.object t.toMembers).Distinct := by
  refine ⟨List.Nodup.sublist t.keys_toMembers (by decide), ?_⟩
  simp only [toMembers, distinctMembers_append]
  exact ⟨⟨⟨⟨⟨⟨⟨⟨Common.distinct_toMembers .., trivial, trivial⟩,
    distinctMembers_optional _ parameters⟩,
    distinctMembers_optional _ fun _ _ => Selector.distinct_toJson _⟩,
    distinctMembers_optional _ fun _ _ => trivial⟩,
    distinctMembers_optional _ fun _ _ => trivial⟩,
    distinctMembers_list _ fun r _ => r.distinct_toJson⟩,
    distinctMembers_list _ fun c _ => c.distinct_toJson⟩, t.transition.distinct_toMembers⟩

theorem Pass.distinct_toMembers (p : Pass)
    (parameters : ∀ ms ∈ p.parameters, (Json.object ms).Distinct)
    (result : ∀ value ∈ p.result, value.Distinct) : (Json.object p.toMembers).Distinct := by
  refine ⟨List.Nodup.sublist p.keys_toMembers (by decide), ?_⟩
  simp only [toMembers, distinctMembers_append]
  exact ⟨⟨⟨⟨Common.distinct_toMembers .., distinctMembers_optional _ result⟩,
    distinctMembers_optional _ parameters⟩,
    distinctMembers_optional _ fun _ _ => Selector.distinct_toJson _⟩,
    p.transition.distinct_toMembers⟩

theorem Wait.distinct_toMembers (w : Wait) : (Json.object w.toMembers).Distinct := by
  refine ⟨List.Nodup.sublist w.keys_toMembers (by decide), ?_⟩
  have delay : Json.DistinctMembers [w.delay.toMember] := by
    cases w.delay <;> exact ⟨trivial, trivial⟩
  simp only [toMembers, distinctMembers_append]
  exact ⟨⟨Common.distinct_toMembers .., delay⟩, w.transition.distinct_toMembers⟩

theorem Choice.distinct_toMembers (c : Choice) : (Json.object c.toMembers).Distinct := by
  refine ⟨List.Nodup.sublist c.keys_toMembers (by decide), ?_⟩
  simp only [toMembers, distinctMembers_append]
  exact ⟨⟨Common.distinct_toMembers .., Json.distinctItems_map fun r _ => r.distinct_toMembers,
    trivial⟩, distinctMembers_optional _ fun _ _ => trivial⟩

theorem Fail.distinct_toMembers (f : Fail) : (Json.object f.toMembers).Distinct := by
  refine ⟨List.Nodup.sublist f.keys_toMembers (by decide), ?_⟩
  simp only [toMembers, distinctMembers_append]
  exact ⟨⟨Common.distinct_toMembers .., distinctMembers_optional _ fun _ _ => trivial⟩,
    distinctMembers_optional _ fun _ _ => trivial⟩

theorem State.distinct_toMembers_parallel {p : Parallel State}
    (branches : Json.DistinctItems (branchItems p.branches)) :
    (Json.object (parallel p).toMembers).Distinct := by
  have keys := keys_toMembers_parallel (fun _ => .ok (.succeed {})) p
  refine ⟨List.Nodup.sublist keys (by decide), ?_⟩
  simp only [toMembers, distinctMembers_append]
  exact ⟨⟨⟨⟨⟨Common.distinct_toMembers .., branches, trivial⟩,
    distinctMembers_optional _ fun _ _ => Selector.distinct_toJson _⟩,
    distinctMembers_list _ fun r _ => r.distinct_toJson⟩,
    distinctMembers_list _ fun c _ => c.distinct_toJson⟩, p.transition.distinct_toMembers⟩

namespace Draft.State

theorem names_of_buildStates {ds : States} {ss : Workflow.States} (h : buildStates ds = .ok ss) :
    ss.map Prod.fst = ds.map Prod.fst := by
  induction ds generalizing ss with
  | nil => cases h; rfl
  | cons d ds ih =>
    obtain ⟨name, d⟩ := d
    simp only [buildStates, bind_eq_ok, Except.ok.injEq] at h
    obtain ⟨s, -, ss, hss, rfl⟩ := h
    rw [List.map_cons, List.map_cons, ih hss]

mutual

/-- The object of a state that is built repeats no key. -/
theorem distinct_toMembers {d : State} (hd : d.Distinct) {s : Workflow.State}
    (h : d.build = .ok s) : (Json.object s.toMembers).Distinct := by
  cases d with
  | task d =>
    obtain ⟨t, hb, he⟩ := bind_eq_ok.mp h
    cases he
    obtain ⟨-, rfl⟩ := Task.build_eq_ok.mp hb
    refine t.distinct_toMembers fun ms hm => ?_
    exact hd (.object ms) (by simpa [Workflow.Task.toDraft] using hm)
  | pass d =>
    obtain ⟨p, hb, he⟩ := bind_eq_ok.mp h
    cases he
    have said := (Pass.build_eq_ok.mp hb).2
    have parameters : p.parameters.map Json.object = d.parameters := congrArg Pass.parameters said
    have result : p.result.map Result.value = d.result.map Result.settle :=
      congrArg Pass.result said
    refine p.distinct_toMembers (fun ms hm => ?_) fun value hm => ?_
    · exact hd.1 (.object ms) (by simpa [← parameters] using hm)
    · -- the value of the result was read, or was given as it is
      rw [Option.mem_def.mp hm, Option.map_some, eq_comm, Option.map_eq_some_iff] at result
      obtain ⟨r, hr, hv⟩ := result
      exact (hd.2 r hr).distinct_of_build (by rw [← r.build_settle, hv, Result.build])
  | wait d =>
    obtain ⟨w, -, he⟩ := bind_eq_ok.mp h
    cases he
    exact w.distinct_toMembers
  | choice d =>
    obtain ⟨c, -, he⟩ := bind_eq_ok.mp h
    cases he
    exact c.distinct_toMembers
  | succeed common =>
    obtain ⟨_, -, he⟩ := bind_eq_ok.mp h
    cases he
    exact ⟨List.Nodup.sublist (common.keys_toMembers .succeed) (by simp),
      common.distinct_toMembers .succeed⟩
  | fail f =>
    cases h
    exact f.distinct_toMembers
  | parallel p =>
    obtain ⟨common, branches, resultPath, retriers, catchers, transition⟩ := p
    obtain ⟨-, -, -, built, hb, rs, cs, -, t, -, rfl⟩ := build_parallel_eq_ok.mp h
    exact Workflow.State.distinct_toMembers_parallel (distinct_branchItems hd hb)

theorem distinct_branchItems {index : Nat} {ds : List (Branch State)} (hd : DistinctBranches ds)
    {bs : List (Workflow.Branch Workflow.State)} (h : buildBranches index ds = .ok bs) :
    Json.DistinctItems (Workflow.State.branchItems bs) := by
  cases ds with
  | nil => cases h; trivial
  | cons d ds =>
    obtain ⟨comment, startAt, states⟩ := d
    simp only [buildBranches, bind_eq_ok, Checked.within_eq_ok, Except.ok.injEq] at h
    obtain ⟨start, -, ss, hs, -, -, bs, hbs, rfl⟩ := h
    obtain ⟨⟨names, scope⟩, hds⟩ := hd
    have keys : ((Workflow.State.stateMembers ss).map Prod.fst).Nodup := by
      rw [Workflow.State.keys_stateMembers, names_of_buildStates hs]
      exact names
    refine ⟨⟨List.Nodup.sublist (Workflow.State.keys_branchMembers ..) (by simp), ?_⟩,
      distinct_branchItems hds hbs⟩
    rw [branchMembers, distinctMembers_append]
    exact ⟨distinctMembers_optional _ fun _ _ => trivial, trivial,
      ⟨keys, distinct_stateMembers scope hs⟩, trivial⟩

theorem distinct_stateMembers {ds : States} (hd : DistinctStates ds) {ss : Workflow.States}
    (h : buildStates ds = .ok ss) :
    Json.DistinctMembers (Workflow.State.stateMembers ss) := by
  cases ds with
  | nil => cases h; trivial
  | cons d ds =>
    obtain ⟨name, d⟩ := d
    simp only [buildStates, bind_eq_ok, Checked.within_eq_ok, Except.ok.injEq] at h
    obtain ⟨s, hs, ss, hss, rfl⟩ := h
    exact ⟨distinct_toMembers hd.1 hs, distinct_stateMembers hd.2 hss⟩

end

end Draft.State

/-- The value of a machine that is built repeats no key. -/
theorem Draft.Machine.distinct_toJson {d : Machine} (hd : d.Distinct) {m : Workflow.Machine}
    (h : d.build = .ok m) : m.toJson.Distinct := by
  obtain ⟨-, startAt, -, -, states, hs, -, rfl⟩ := build_eq_ok.mp h
  have keys : ((State.stateMembers states).map Prod.fst).Nodup := by
    rw [State.keys_stateMembers, State.names_of_buildStates hs]
    exact hd.names_nodup
  refine ⟨List.Nodup.sublist (Machine.keys_toMembers _) (by simp), ?_⟩
  simp only [Machine.toMembers, Json.distinctMembers_append]
  exact ⟨⟨⟨⟨distinctMembers_optional _ fun _ _ => trivial, trivial, trivial⟩,
    distinctMembers_optional _ fun _ _ => trivial⟩, distinctMembers_optional _ fun _ _ => trivial⟩,
    ⟨keys, State.distinct_stateMembers hd.states hs⟩, trivial⟩

end Workflow
