import Workflow.Proofs.Nesting
import Workflow.Proofs.Registration
import Workflow.Proofs.Sites

/-!
# The names in a scope

However a scope has been put together, no name is in it twice. This goes for a scope whose states
were registered one by one, for one that was read from a document, and for every scope in their
branches, and it carries over to every scope of what is built from them.

## Main definitions

* `Draft.States.Assembled`: states were registered one by one, as were those inside them
* `Draft.Machine.Initial`: a draft that is empty, or that has been read
* `States.Holds`: a scope is one of states, or of a branch at any depth inside them
* `States.Indexed`: a scope repeats no name, and finds a state where it stands

## Main results

* `Draft.States.Assembled.nodup_of_holds`: no scope that is built repeats a name
* `Draft.Machine.Initial.assembled`: drafts that are read have been assembled
* `Draft.registration_ordered`: registration is an ordered map, for machines and for branches
-/

namespace Workflow

namespace Draft

namespace States

/-! ### Scopes that have been put together -/

/-- States have been registered one by one, with names removed in between, and so have those in all
branches in them. -/
inductive Assembled : States → Prop
  | empty : Assembled []
  | register {states : States} (name : String) {s : State} (scope : Assembled states)
      (inside : ∀ p, s = .parallel p → ∀ b ∈ p.branches, Assembled b.states) :
      Assembled (register name s states)
  | remove {states : States} (name : String) (scope : Assembled states) :
      Assembled (remove name states)

end States

/-- Whatever is in the branches of a state has been assembled. -/
def State.Assembled (s : State) : Prop :=
  ∀ p, s = .parallel p → ∀ b ∈ p.branches, States.Assembled b.states

namespace States

namespace Assembled

variable {states : States}

theorem names_nodup (h : Assembled states) : (names states).Nodup := by
  induction h with
  | empty => exact List.nodup_nil
  | register name scope inside ih => exact Json.nodup_insert name _ ih
  | remove name scope ih => exact ih.sublist ((remove_sublist name _).map _)

theorem branches (h : Assembled states) {name : String} {p : Parallel State}
    (hp : (name, .parallel p) ∈ states) {b : Branch State} (hb : b ∈ p.branches) :
    Assembled b.states := by
  induction h with
  | empty => cases hp
  | register _ _ inside ih =>
    rcases Json.mem_of_mem_insert hp with he | hp
    · exact inside p (Prod.mk.inj he).2.symm b hb
    · exact ih hp
  | remove key scope ih => exact ih ((remove_sublist key _).subset hp)

/-- States under different names can be registered one by one, in their order. -/
theorem of_nodup (unique : (names states).Nodup)
    (inside : ∀ entry ∈ states, State.Assembled entry.2) : Assembled states := by
  induction states using List.reverseRecOn with
  | nil => exact .empty
  | append_singleton states entry ih =>
    obtain ⟨name, s⟩ := entry
    rw [names, List.map_append, List.nodup_append] at unique
    obtain ⟨before, -, apart⟩ := unique
    have fresh : name ∉ states.map Prod.fst := fun hm => apart name hm name (by simp) rfl
    -- a name that is not there yet is registered behind all others
    rw [← Json.insert_of_notMem fresh]
    exact .register name (ih before fun e he => inside e (List.mem_append_left _ he))
      (inside (name, s) (List.mem_append_right _ (List.mem_singleton_self _)))

end Assembled

end States

end Draft

namespace States

/-- The scopes in states: the states themselves, and those in the branches of parallel states. -/
inductive Holds (scope : States) : States → Prop
  | self : Holds scope scope
  | inside {states : States} {name : String} {p : Parallel State} {b : Branch State}
      (state : (name, .parallel p) ∈ states) (branch : b ∈ p.branches)
      (deeper : Holds scope b.states) : Holds scope states

/-- No name is repeated in a scope, and a state is found under a name exactly when it stands in
some place under it. -/
structure Indexed (states : States) : Prop where
  nodup : states.names.Nodup
  get? : ∀ name s, states.get? name = some s ↔ ∃ i : ℕ, states[i]? = some (name, s)

theorem indexed_iff {states : States} : states.Indexed ↔ states.names.Nodup := by
  constructor
  · exact Indexed.nodup
  · intro unique
    refine ⟨unique, fun name s => ?_⟩
    rw [get?_eq, ← List.mem_iff_getElem?]
    exact ⟨Json.mem_of_get?, Json.get?_of_mem unique⟩

end States

namespace Draft

namespace State

theorem exists_of_mem_buildStates {ds : States} {ss : Workflow.States}
    (h : buildStates ds = .ok ss) {name : String} {s : Workflow.State} (hs : (name, s) ∈ ss) :
    ∃ d, (name, d) ∈ ds ∧ d.build = .ok s := by
  induction ds generalizing ss with
  | nil =>
    cases h
    cases hs
  | cons entry ds ih =>
    obtain ⟨key, d⟩ := entry
    simp only [buildStates, bind_eq_ok, Checked.within_eq_ok, Except.ok.injEq] at h
    obtain ⟨t, ht, ts, hts, rfl⟩ := h
    rcases List.mem_cons.mp hs with he | hs
    · obtain ⟨rfl, rfl⟩ := Prod.mk.inj he
      exact ⟨d, List.mem_cons_self, ht⟩
    · obtain ⟨d', hd', built⟩ := ih hts hs
      exact ⟨d', List.mem_cons_of_mem _ hd', built⟩

theorem exists_of_mem_buildBranches {index : ℕ} {ds : List (Branch State)}
    {bs : List (Workflow.Branch Workflow.State)} (h : buildBranches index ds = .ok bs)
    {b : Workflow.Branch Workflow.State} (hb : b ∈ bs) :
    ∃ d ∈ ds, buildStates d.states = .ok b.states := by
  induction ds generalizing index bs with
  | nil =>
    cases h
    cases hb
  | cons d ds ih =>
    obtain ⟨comment, startAt, states⟩ := d
    simp only [buildBranches, bind_eq_ok, Checked.within_eq_ok, Except.ok.injEq] at h
    obtain ⟨start, -, ss, hs, -, -, rest, hrest, rfl⟩ := h
    rcases List.mem_cons.mp hb with rfl | hb
    · exact ⟨_, List.mem_cons_self, hs⟩
    · obtain ⟨d', hd', built⟩ := ih hrest hb
      exact ⟨d', List.mem_cons_of_mem _ hd', built⟩

/-- What runs branches was built from a draft that does, branch by branch. -/
theorem exists_of_build_parallel {d : State} {p : Workflow.Parallel Workflow.State}
    (h : d.build = .ok (.parallel p)) :
    ∃ q, d = .parallel q ∧ buildBranches 0 q.branches = .ok p.branches := by
  cases d with
  | parallel q =>
    obtain ⟨-, -, -, branches, hb, _, _, -, _, -, he⟩ := build_parallel_eq_ok.mp h
    obtain rfl := Workflow.State.parallel.inj he
    exact ⟨q, rfl, hb⟩
  | fail f => cases h
  | _ =>
    -- every other kind is built to a state of that kind
    simp [build, bind_eq_ok] at h

end State

/-- **No scope that is built repeats a name**, at any depth. -/
theorem States.Assembled.nodup_of_holds {ds : States} (h : Assembled ds) {ss : Workflow.States}
    (built : State.buildStates ds = .ok ss) {scope : Workflow.States} (hs : scope.Holds ss) :
    scope.names.Nodup := by
  -- by the way to the scope: what was built from a draft leads to the drafts of its parts
  induction hs generalizing ds with
  | self =>
    rw [Workflow.States.names, State.names_of_buildStates built]
    exact h.names_nodup
  | inside state branch deeper ih =>
    obtain ⟨d, hd, hb⟩ := State.exists_of_mem_buildStates built state
    obtain ⟨q, rfl, hq⟩ := State.exists_of_build_parallel hb
    obtain ⟨b, hb, within⟩ := State.exists_of_mem_buildBranches hq branch
    exact ih (h.branches hd hb) within

end Draft

/-! ### Scopes that have been read -/

namespace Document

section

variable {α σ : Type}

/-- What must be there was read from something. -/
theorem Must.exists_read {read : Written → Reading α} {o : Option Written} {a : α}
    (h : Must read o a) : ∃ w, read w = .ok a := by
  cases o with
  | none => exact h.elim
  | some w => exact ⟨w, h⟩

/-- What is in a list was read from an item. -/
theorem Listed.exists_item {read : Written → Reading α} {o : Option Written} {as : List α}
    (h : Listed read o as) {a : α} (ha : a ∈ as) :
    ∃ items fault, o = some (.array items fault) ∧ ∃ item ∈ items, read item = .ok a := by
  cases o with
  | none =>
    obtain rfl : as = [] := h
    cases ha
  | some w =>
    obtain ⟨items, rfl, each⟩ := list_eq_ok.mp h
    exact ⟨items, none, rfl, exists_related_of_mem each.flip ha⟩

/-- No name is repeated in a scope that was read, and every state in it was read from some
definition of it. -/
theorem scopeStates_ok {read : Written → Reading σ} (sound : Reader.Sound read)
    {w : Written} {ss : List (String × σ)} (h : scopeStates read w = .ok ss) :
    (ss.map Prod.fst).Nodup ∧ ∀ entry ∈ ss, ∃ v, read v = .ok entry.2 := by
  cases w with
  | object members fault =>
    obtain ⟨-, rfl⟩ := Written.sound_object.mp (scopeStates_sound sound _ _ h)
    obtain ⟨ss', each, rfl⟩ := stateMembers_eq_ok.mp h
    refine ⟨Json.nodup_merge ss', fun entry he => ?_⟩
    obtain ⟨⟨_, v⟩, -, -, hv⟩ := exists_related_of_mem each.flip (Json.mem_of_mem_merge he)
    exact ⟨v, hv⟩
  | _ => cases h

end

namespace State

theorem names_of_draftStates {states : List (String × State)} {ds : Draft.States}
    (h : draftStates states = .ok ds) : Draft.States.names ds = states.map Prod.fst := by
  induction states generalizing ds with
  | nil =>
    cases h
    rfl
  | cons entry states ih =>
    obtain ⟨name, s⟩ := entry
    simp only [draftStates, bind_eq_ok, mapError_eq_ok, exists_unit, Except.ok.injEq] at h
    obtain ⟨d, -, -, ds, hds, rfl⟩ := h
    simp only [Draft.States.names, List.map_cons, List.cons.injEq, true_and]
    exact ih hds

theorem exists_of_mem_draftStates {states : List (String × State)} {ds : Draft.States}
    (h : draftStates states = .ok ds) {entry : String × Draft.State} (he : entry ∈ ds) :
    ∃ s, (entry.1, s) ∈ states ∧ s.draft = .ok entry.2 := by
  induction states generalizing ds with
  | nil =>
    cases h
    cases he
  | cons first states ih =>
    obtain ⟨name, s⟩ := first
    simp only [draftStates, bind_eq_ok, mapError_eq_ok, exists_unit, Except.ok.injEq] at h
    obtain ⟨d, hd, -, ds, hds, rfl⟩ := h
    rcases List.mem_cons.mp he with rfl | he
    · exact ⟨s, List.mem_cons_self, hd⟩
    · obtain ⟨s', hs', drafted⟩ := ih hds he
      exact ⟨s', List.mem_cons_of_mem _ hs', drafted⟩

theorem exists_of_mem_draftBranches {index : ℕ} {branches : List (Branch State)}
    {ds : List (Draft.Branch Draft.State)} (h : draftBranches index branches = .ok ds)
    {d : Draft.Branch Draft.State} (hd : d ∈ ds) :
    ∃ b ∈ branches, draftStates b.states = .ok d.states := by
  induction branches generalizing index ds with
  | nil =>
    cases h
    cases hd
  | cons first branches ih =>
    obtain ⟨comment, startAt, states⟩ := first
    simp only [draftBranches, bind_eq_ok, mapError_eq_ok, Except.ok.injEq] at h
    obtain ⟨drafts, hs, ds, hds, rfl⟩ := h
    rcases List.mem_cons.mp hd with rfl | hd
    · exact ⟨_, List.mem_cons_self, hs⟩
    · obtain ⟨b, hb, drafted⟩ := ih hds hd
      exact ⟨b, List.mem_cons_of_mem _ hb, drafted⟩

/-- The branches of a draft are those of the document. -/
theorem branches_of_draft {s : State} {p : Draft.Parallel Draft.State}
    (h : s.draft = .ok (.parallel p)) : draftBranches 0 s.branches = .ok p.branches := by
  cases s with
  | parallel q =>
    simp only [draft, bind_eq_ok, Except.ok.injEq] at h
    obtain ⟨branches, hb, _, -, _, -, he⟩ := h
    obtain rfl := Draft.State.parallel.inj he
    exact hb
  | succeed common => cases h
  | fail f => cases h
  | _ =>
    -- every other kind has drafts of that kind
    simp [draft, map_eq_ok] at h

/-- The branches of a state that was read were read from sound values. -/
theorem ReadAs.exists_branch {nested : Bool} {below : ℕ} {w : Written} {kind : StateKind}
    {s : State} (h : ReadAs nested below w kind s) (sound : w.Sound) {b : Branch State}
    (hb : b ∈ s.branches) :
    ∃ v : Written, v.Sound ∧ (branchShape (State.read true below)).read v = .ok b := by
  obtain ⟨items, fault, found, v, hv, read⟩ := h.parts.branches.exists_item hb
  have inside : (Written.array items fault).Sound :=
    @Site.hereditary_entries _ Written.hereditary_sound ⟨.state nested, w⟩ sound _
      (Json.mem_of_get? found)
  exact ⟨v, Written.hereditary_sound.item inside v hv, read⟩

end State

/-- A scope that is read has been assembled, if the states that are read have. -/
theorem assembled_of_scope {read : Written → Reading State} (sound : Reader.Sound read)
    (inside : ∀ w s d, read w = .ok s → s.draft = .ok d → d.Assembled) {w : Written}
    {ss : List (String × State)} (h : scopeStates read w = .ok ss) {ds : Draft.States}
    (hd : State.draftStates ss = .ok ds) : Draft.States.Assembled ds := by
  obtain ⟨unique, source⟩ := scopeStates_ok sound h
  rw [← State.names_of_draftStates hd] at unique
  refine .of_nodup unique fun entry he => ?_
  obtain ⟨s, mem, drafted⟩ := State.exists_of_mem_draftStates hd he
  obtain ⟨v, hv⟩ := source _ mem
  exact inside v s entry.2 hv drafted

/-- **Whatever is in the branches of a state that is read has been assembled.** -/
theorem State.assembled_of_read {nested : Bool} {levels : ℕ} {w : Written} {s : State}
    {d : Draft.State} (h : State.read nested levels w = .ok s) (hd : s.draft = .ok d) :
    d.Assembled := by
  -- each branch is read with one level less than the state around it
  induction levels generalizing nested w s d with
  | zero => cases h
  | succ below ih =>
    rintro p rfl b hb
    obtain ⟨document, hm, drafted⟩ := exists_of_mem_draftBranches (branches_of_draft hd) hb
    obtain ⟨_, kind, he, readAs⟩ := State.exists_readAs h
    obtain rfl := Nat.succ.inj he
    obtain ⟨v, sound, read⟩ := readAs.exists_branch (State.read_sound _ _ w s h) hm
    obtain ⟨-, fields⟩ := ofMembers_branchShape.mp ((branch_read_eq_ok sound).mp read).2
    obtain ⟨states, scope⟩ := fields.states.exists_read
    exact assembled_of_scope (State.read_sound true _) (fun _ _ _ => ih) scope drafted

/-- The states of a machine that is read have been assembled. -/
theorem Machine.assembled_of_read {excess : List Written → Option Json.Fault → Reading Unit}
    (closed : Closed excess) {w : Written} (sound : w.Sound) {m : Machine}
    (h : Machine.ofWritten excess w = .ok m) {d : Draft.Machine} (hd : m.draft = .ok d) :
    Draft.States.Assembled d.states := by
  have entries := ((Machine.ofWritten_eq_ok closed sound).mp h).2
  obtain ⟨-, fields⟩ := ofMembers_machineShape.mp entries
  obtain ⟨states, scope⟩ := fields.states.exists_read
  simp only [Machine.draft, bind_eq_ok, Except.ok.injEq] at hd
  obtain ⟨ds, drafted, rfl⟩ := hd
  have inside (w : Written) (s : State) (d : Draft.State) (h : State.ofWritten w = .ok s)
      (hd : s.draft = .ok d) : d.Assembled := State.assembled_of_read h hd
  exact assembled_of_scope State.ofWritten_sound inside scope drafted

end Document

namespace Draft

/-! ### Drafts -/

/-- A draft before any change of it: it is empty, or a text or a value defines it. -/
inductive Machine.Initial : Machine → Prop
  | empty : Initial {}
  | text {text : String} {d : Machine} (read : ofText text = .ok d) : Initial d
  | value {value : Json} {d : Machine} (read : ofJson value = .ok d) : Initial d

/-- **Drafts that are read have been assembled.** -/
theorem Machine.Initial.assembled {d : Machine} (h : d.Initial) : States.Assembled d.states := by
  cases h with
  | empty => exact .empty
  | text read =>
    obtain ⟨document, hm, hd⟩ := ofReading_eq_ok.mp read
    have written := (Document.Machine.ofText_eq_ok.mp hm).1
    have sound := Document.Machine.ofWritten_sound _ document written
    exact Document.Machine.assembled_of_read Document.closed_endOfArray sound written hd
  | @value value _ read =>
    obtain ⟨document, hm, hd⟩ := ofReading_eq_ok.mp read
    exact Document.Machine.assembled_of_read (Document.closed_endOfValue _) value.sound_written
      hm hd

/-- Changes keep a draft assembled, if the states that are registered have been assembled. -/
theorem assembled_editAll {d : Machine} (hd : States.Assembled d.states) {history : List Edit}
    (h : ∀ name s, .register name s ∈ history → s.Assembled) :
    States.Assembled (d.editAll history).states := by
  induction history using List.reverseRecOn with
  | nil => exact hd
  | append_singleton history e ih =>
    have before := ih fun name s hs => h name s (List.mem_append_left _ hs)
    rw [Machine.editAll, List.foldl_append]
    cases e with
    | register name s =>
      have inside := h name s (List.mem_append_right _ (List.mem_singleton_self _))
      exact .register name before inside
    | remove name => exact .remove name before
    | _ => exact before

theorem assembled_registerAll {b : Branch State} (hb : States.Assembled b.states)
    {calls : List (String × State)} (h : ∀ call ∈ calls, call.2.Assembled) :
    States.Assembled (b.registerAll calls).states := by
  induction calls using List.reverseRecOn with
  | nil => exact hb
  | append_singleton calls call ih =>
    rw [Branch.registerAll, List.foldl_append]
    have inside := h call (List.mem_append_right _ (List.mem_singleton_self _))
    exact .register call.1 (ih fun c hc => h c (List.mem_append_left _ hc)) inside

/-- **Registration is an ordered map.** After any history, a draft of a machine has the states that
were registered last under the names that are still registered, in the order of their first
registration that stands, and so has a branch. A registration or removal changes neither the states
under other names nor their order. In every scope of what is built, at any depth, no name is
repeated, and a state is found under a name exactly when it stands in some place under it. This goes
for changes to a draft that has been read, too, and its states may be registered elsewhere. -/
theorem registration_ordered :
    (∀ history, Records history (Machine.editAll {} history).states) ∧
    (∀ comment startAt calls, Records (calls.map fun call => .register call.1 call.2)
      (Branch.registerAll ⟨comment, startAt, []⟩ calls).states) ∧
    (∀ name s states,
      States.others name (States.register name s states) = States.others name states ∧
        States.others name (States.remove name states) = States.others name states) ∧
    (∀ d : Machine, d.Initial → ∀ history m,
      (∀ name s, .register name s ∈ history → s.Assembled) →
        (d.editAll history).build = .ok m →
          ∀ scope, Workflow.States.Holds scope m.states → scope.Indexed) ∧
    (∀ comment startAt calls b, (∀ call ∈ calls, call.2.Assembled) →
      (Branch.registerAll ⟨comment, startAt, []⟩ calls).build = .ok b →
        ∀ scope, Workflow.States.Holds scope b.states → scope.Indexed) ∧
    ∀ d : Machine, d.Initial → ∀ entry ∈ d.states, State.Assembled entry.2 := by
  refine ⟨records_editAll, records_registerAll, fun name s states => ?_, ?_, ?_, ?_⟩
  · exact ⟨States.others_register name s states, States.others_remove name states⟩
  · intro d initial history m inside built scope holds
    obtain ⟨-, _, -, -, states, hb, -, rfl⟩ := Machine.build_eq_ok.mp built
    have assembled := assembled_editAll initial.assembled inside
    exact Workflow.States.indexed_iff.mpr (assembled.nodup_of_holds hb holds)
  · intro comment startAt calls b inside built scope holds
    simp only [Branch.build, bind_eq_ok, Except.ok.injEq] at built
    obtain ⟨_, -, states, hb, -, -, rfl⟩ := built
    have assembled := assembled_registerAll (b := ⟨comment, startAt, []⟩) .empty inside
    exact Workflow.States.indexed_iff.mpr (assembled.nodup_of_holds hb holds)
  · rintro d initial ⟨name, s⟩ he p rfl b hb
    exact initial.assembled.branches he hb

/-- A history in which one name is registered again and another one after it was removed. -/
def reregistered : List Edit :=
  [.startAt "A", .register "A" (.succeed {}), .register "B" (.succeed {}),
    .register "A" (.pass { transition := some (.next "P") }), .remove "B",
    .register "P" (.parallel {
      branches := [Branch.registerAll ⟨none, some "B", []⟩ [("B", .succeed {})]]
      transition := some (.next "B") }),
    .register "B" (.succeed {})]

/-- Branches that have been registered one by one have been assembled. -/
theorem assembled_reregistered : ∀ name s, .register name s ∈ reregistered → s.Assembled := by
  intro name s hs
  simp only [reregistered, List.mem_cons, Edit.register.injEq, List.not_mem_nil, or_false,
    reduceCtorEq, false_or] at hs
  have simple (common : Common) : (State.succeed common).Assembled := by
    intro p hp
    cases hp
  rcases hs with ⟨-, rfl⟩ | ⟨-, rfl⟩ | ⟨-, rfl⟩ | ⟨-, rfl⟩ | ⟨-, rfl⟩
  · exact simple _
  · exact simple _
  · intro p hp
    cases hp
  · intro p hp b hb
    obtain rfl := State.parallel.inj hp
    obtain rfl := List.mem_singleton.mp hb
    exact assembled_registerAll .empty (by simpa using simple {})
  · exact simple _

/-- The name that was registered again kept its place, and the removed one has a new place. -/
theorem registration_ordered_reregistered :
    States.names (Machine.editAll {} reregistered).states = ["A", "P", "B"] ∧
      ∃ m, (Machine.editAll {} reregistered).build = .ok m ∧ m.states.Indexed := by
  obtain ⟨-, -, -, scopes, -⟩ := registration_ordered
  have built : (Machine.editAll {} reregistered).build.toOption.isSome = true := by
    decide +kernel
  obtain ⟨m, hm⟩ := exists_ok_of_isSome built
  exact ⟨by decide +kernel, m, hm, scopes {} .empty _ m assembled_reregistered hm _ .self⟩

end Draft

end Workflow
