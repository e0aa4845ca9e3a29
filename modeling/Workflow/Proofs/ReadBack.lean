import Workflow.Proofs.StateReading
import Workflow.Proofs.WrittenFields

/-!
# What is written is read back

The object that is written for a state, read as a document, is the document of the state. States
inside branches are read with a bound on how deep they nest; any bound that is not below the height
of the object will do.

## Main results

* `State.read_toMembers`: the object of a state is read back
* `Machine.ofJson_toJson`: the value of a machine is read back
-/

namespace Workflow

open Document
open Json (get?)

/-! ### Policies -/

theorem Retrier.keys_toMembers (r : Retrier) :
    (r.toMembers.map Prod.fst).Sublist (retrierShape.fields.map Field.name) := by
  simp only [toMembers, List.map_append]
  exact (((List.Sublist.refl ["ErrorEquals"]).append (Members.keys_optional ..)).append
    (Members.keys_optional ..)).append (Members.keys_optional ..)

theorem Retrier.read_toJson {r : Retrier} (h : ∀ x ∈ r.backoffRate, x.isFinite = true) :
    retrierShape.read r.toJson.written = .ok r := by
  rw [toJson, Shape.read_object]
  refine ofMembers_retrierShape.mpr
    ⟨.of_sublist retrierShape_regular.names_nodup (by simpa using r.keys_toMembers), ?_⟩
  have errors : list text (errorsJson r.errors).written = .ok (r.errors.map id) :=
    list_array fun _ _ => rfl
  rw [List.map_id] at errors
  simpa [retrierRead_iff, toMembers, Json.get?_append, Must, errors] using
    ⟨maybe_natural32_written _, maybe_natural32_written _, maybe_double_written h⟩

theorem Catcher.keys_toMembers (c : Catcher) :
    (c.toMembers.map Prod.fst).Sublist (catcherShape.fields.map Field.name) := by
  simp only [toMembers, List.map_append]
  exact ((List.Sublist.refl ["ErrorEquals"]).append (Members.keys_optional ..)).append
    c.transition.keys_toMembers

theorem Catcher.read_toJson (c : Catcher) :
    catcherShape.read c.toJson.written = .ok c.toDocument := by
  rw [toJson, Shape.read_object]
  refine ofMembers_catcherShape.mpr
    ⟨.of_sublist catcherShape_regular.names_nodup (by simpa using c.keys_toMembers), ?_⟩
  have errors : list text (errorsJson c.errors).written = .ok (c.errors.map id) :=
    list_array fun _ _ => rfl
  rw [List.map_id] at errors
  simpa [catcherRead_iff, exitRead_iff, toMembers, Json.get?_append] using
    ⟨errors, may_selector_written _, maybe_next_written _, maybe_finish_written _⟩

/-! ### The fields of a state -/

/-- The fields of a state besides its kind, as they are written. -/
def Document.fieldsBesideKind (members : Members) : List (String × Written) :=
  (Json.writtenMembers members).filter fun member => member.1 ≠ kindKey

@[simp]
theorem get?_fieldsBesideKind {key : String} (h : key ≠ "Type") (members : Members) :
    get? key (fieldsBesideKind members) = (get? key members).map Json.written := by
  rw [fieldsBesideKind, kindKey, Json.get?_filter_ne h, Json.get?_writtenMembers]

/-- Keys that are written in the order of a list of names, behind the kind, are among them. -/
theorem Document.keysIn_fieldsBesideKind {names : List String} {members : Members}
    (hn : ("Type" :: names).Nodup) (h : (members.map Prod.fst).Sublist ("Type" :: names)) :
    Shape.KeysIn names (fieldsBesideKind members) := by
  have keys : (fieldsBesideKind members).map Prod.fst =
      (members.map Prod.fst).filter (· ≠ "Type") := by
    rw [fieldsBesideKind, ← Json.map_fst_writtenMembers members, List.filter_map]
    rfl
  apply Shape.KeysIn.of_sublist (List.nodup_cons.mp hn).2
  have rest : ("Type" :: names).filter (· ≠ "Type") = names := by
    rw [List.filter_cons_of_neg (by simp), List.filter_eq_self]
    intro name hm
    simpa using fun he : name = "Type" => (List.nodup_cons.mp hn).1 (he ▸ hm)
  rw [keys, ← rest]
  exact h.filter _

theorem Task.keys_toMembers (t : Task) :
    (t.toMembers.map Prod.fst).Sublist ("Type" :: taskShape.fields.map Field.name) := by
  simp only [toMembers, List.map_append]
  exact ((((((((t.toCommon.keys_toMembers .task).append (.refl ["Resource"])).append
    (Members.keys_optional ..)).append (Members.keys_optional ..)).append
    (Members.keys_optional ..)).append (Members.keys_optional ..)).append
    (Members.keys_list ..)).append (Members.keys_list ..)).append t.transition.keys_toMembers

theorem Task.ofMembers_toMembers {t : Task} (hp : ∀ ms ∈ t.parameters, (Json.object ms).Distinct)
    (hr : ∀ r ∈ t.retriers, ∀ x ∈ r.backoffRate, x.isFinite = true) :
    taskShape.ofMembers (fieldsBesideKind t.toMembers) none = .ok t.toDocument := by
  refine ofMembers_taskShape.mpr ⟨keysIn_fieldsBesideKind (by decide) t.keys_toMembers, ?_⟩
  have retriers : Listed retrierShape.read _ (t.retriers.map id) :=
    Listed.written fun r hm => Retrier.read_toJson (hr r hm)
  rw [List.map_id] at retriers
  have catchers := Listed.written fun c (_ : c ∈ t.catchers) => Catcher.read_toJson c
  have parameters : May anything (t.parameters.map (Json.written ∘ Json.object))
      (t.parameters.map .object) := by
    simpa using may_anything_written (o := t.parameters.map .object) (by simpa using hp)
  simpa [taskRead_iff, commonRead_iff, exitRead_iff, toMembers, Common.toMembers,
    Json.get?_append] using
    ⟨⟨maybe_text_written _, may_selector_written _, may_selector_written _⟩, rfl, parameters,
      may_selector_written _, maybe_natural32_written _, maybe_natural32_written _, retriers,
      catchers, maybe_next_written _, maybe_finish_written _⟩

theorem Task.distinct_parameters {t : Task} (hd : (Json.object t.toMembers).Distinct) :
    ∀ ms ∈ t.parameters, (Json.object ms).Distinct := by
  intro ms hm
  apply hd.2.of_get? "Parameters"
  simp [toMembers, Common.toMembers, Json.get?_append, Option.mem_def.mp hm]

theorem Pass.keys_toMembers (p : Pass) :
    (p.toMembers.map Prod.fst).Sublist ("Type" :: passShape.fields.map Field.name) := by
  simp only [toMembers, List.map_append]
  exact ((((p.toCommon.keys_toMembers .pass).append (Members.keys_optional ..)).append
    (Members.keys_optional ..)).append (Members.keys_optional ..)).append
    p.transition.keys_toMembers

theorem Pass.ofMembers_toMembers {p : Pass} (hp : ∀ ms ∈ p.parameters, (Json.object ms).Distinct)
    (hr : ∀ value ∈ p.result, value.Distinct) :
    passShape.ofMembers (fieldsBesideKind p.toMembers) none = .ok p.toDocument := by
  refine ofMembers_passShape.mpr ⟨keysIn_fieldsBesideKind (by decide) p.keys_toMembers, ?_⟩
  have parameters : May anything (p.parameters.map (Json.written ∘ Json.object))
      (p.parameters.map .object) := by
    simpa using may_anything_written (o := p.parameters.map .object) (by simpa using hp)
  simpa [passRead_iff, commonRead_iff, exitRead_iff, toMembers, Common.toMembers,
    Json.get?_append] using
    ⟨⟨maybe_text_written _, may_selector_written _, may_selector_written _⟩,
      may_anything_written hr, parameters, may_selector_written _, maybe_next_written _,
      maybe_finish_written _⟩

theorem Pass.distinct_parameters {p : Pass} (hd : (Json.object p.toMembers).Distinct) :
    ∀ ms ∈ p.parameters, (Json.object ms).Distinct := by
  intro ms hm
  apply hd.2.of_get? "Parameters"
  simp [toMembers, Common.toMembers, Json.get?_append, Option.mem_def.mp hm]

theorem Pass.distinct_result {p : Pass} (hd : (Json.object p.toMembers).Distinct) :
    ∀ value ∈ p.result, value.Distinct := by
  intro value hm
  apply hd.2.of_get? "Result"
  simp [toMembers, Common.toMembers, Json.get?_append, Option.mem_def.mp hm]

theorem Wait.keys_toMembers (w : Wait) :
    (w.toMembers.map Prod.fst).Sublist ("Type" :: waitShape.fields.map Field.name) := by
  have delay : ([w.delay.toMember].map Prod.fst).Sublist
      ["Seconds", "SecondsPath", "Timestamp", "TimestampPath"] := by
    cases w.delay <;> simp [Delay.toMember]
  simp only [toMembers, List.map_append]
  exact ((w.toCommon.keys_toMembers .wait).append delay).append w.transition.keys_toMembers

theorem Wait.ofMembers_toMembers (w : Wait) :
    waitShape.ofMembers (fieldsBesideKind w.toMembers) none = .ok w.toDocument := by
  refine ofMembers_waitShape.mpr ⟨keysIn_fieldsBesideKind (by decide) w.keys_toMembers, ?_⟩
  obtain ⟨common, delay, transition⟩ := w
  cases delay with
  | seconds count =>
    simpa [waitRead_iff, commonRead_iff, exitRead_iff, toMembers, Common.toMembers,
      Delay.toMember, Json.get?_append] using
      ⟨⟨maybe_text_written _, may_selector_written _, may_selector_written _⟩,
        ⟨count, natural64_eq_ok.mpr rfl, rfl⟩, rfl, rfl, rfl, maybe_next_written _,
        maybe_finish_written _⟩
  | secondsPath path =>
    simpa [waitRead_iff, commonRead_iff, exitRead_iff, toMembers, Common.toMembers,
      Delay.toMember, Json.get?_append] using
      ⟨⟨maybe_text_written _, may_selector_written _, may_selector_written _⟩, rfl,
        ⟨path, rfl, rfl⟩, rfl, rfl, maybe_next_written _, maybe_finish_written _⟩
  | timestamp instant =>
    simpa [waitRead_iff, commonRead_iff, exitRead_iff, toMembers, Common.toMembers,
      Delay.toMember, Json.get?_append] using
      ⟨⟨maybe_text_written _, may_selector_written _, may_selector_written _⟩, rfl, rfl,
        ⟨instant.text, rfl, rfl⟩, rfl, maybe_next_written _, maybe_finish_written _⟩
  | timestampPath path =>
    simpa [waitRead_iff, commonRead_iff, exitRead_iff, toMembers, Common.toMembers,
      Delay.toMember, Json.get?_append] using
      ⟨⟨maybe_text_written _, may_selector_written _, may_selector_written _⟩, rfl, rfl, rfl,
        ⟨path, rfl, rfl⟩, maybe_next_written _, maybe_finish_written _⟩

theorem Choice.keys_toMembers (c : Choice) :
    (c.toMembers.map Prod.fst).Sublist ("Type" :: choiceShape.fields.map Field.name) := by
  simp only [toMembers, List.map_append]
  exact ((c.toCommon.keys_toMembers .choice).append (.refl ["Choices"])).append
    (Members.keys_optional ..)

theorem Choice.ofMembers_toMembers {c : Choice}
    (hr : ∀ r ∈ c.rules, (Json.object r.toMembers).Distinct) :
    choiceShape.ofMembers (fieldsBesideKind c.toMembers) none = .ok c.toDocument := by
  refine ofMembers_choiceShape.mpr ⟨keysIn_fieldsBesideKind (by decide) c.keys_toMembers, ?_⟩
  have rules : list rule (Json.array (c.rules.map fun r => .object r.toMembers)).written =
      .ok (c.rules.map Rule.toMembers) :=
    list_array fun r hm => rule_written (hr r hm)
  rw [choiceRead_iff, commonRead_iff]
  simpa [toMembers, Common.toMembers, Json.get?_append] using
    ⟨⟨maybe_text_written _, may_selector_written _, may_selector_written _⟩, rules,
      maybe_text_written _⟩

theorem Common.ofMembers_toMembers (c : Common) :
    succeedShape.ofMembers (fieldsBesideKind (c.toMembers .succeed)) none = .ok c := by
  refine ofMembers_succeedShape.mpr
    ⟨keysIn_fieldsBesideKind (by decide) (c.keys_toMembers .succeed), ?_⟩
  rw [commonRead_iff]
  simpa [toMembers, Json.get?_append] using
    ⟨maybe_text_written _, may_selector_written _, may_selector_written _⟩

theorem Fail.keys_toMembers (f : Fail) :
    (f.toMembers.map Prod.fst).Sublist ("Type" :: failShape.fields.map Field.name) := by
  simp only [toMembers, Common.toMembers, List.map_append]
  exact (((((List.Sublist.refl ["Type"]).append (Members.keys_optional ..)).append
    (.refl [])).append (.refl [])).append (Members.keys_optional ..)).append
    (Members.keys_optional ..)

theorem Fail.ofMembers_toMembers (f : Fail) :
    failShape.ofMembers (fieldsBesideKind f.toMembers) none = .ok f := by
  refine ofMembers_failShape.mpr ⟨keysIn_fieldsBesideKind (by decide) f.keys_toMembers, ?_⟩
  rw [failRead_iff]
  simpa [toMembers, Common.toMembers, Json.get?_append] using
    ⟨maybe_text_written _, maybe_text_written _, maybe_text_written _⟩

/-! ### States with branches, and scopes -/

namespace State

theorem keys_toMembers_parallel (read : Written → Reading Document.State) (p : Parallel State) :
    ((toMembers (.parallel p)).map Prod.fst).Sublist
      ("Type" :: (parallelShape read).fields.map Field.name) := by
  obtain ⟨common, branches, resultPath, retriers, catchers, transition⟩ := p
  simp only [toMembers, List.map_append]
  exact (((((common.keys_toMembers .parallel).append (.refl ["Branches"])).append
    (Members.keys_optional ..)).append (Members.keys_list ..)).append
    (Members.keys_list ..)).append transition.keys_toMembers

theorem ofMembers_toMembers_parallel {read : Written → Reading Document.State}
    {p : Parallel State} {branches : List (Branch Document.State)}
    (hb : list (branchShape read).read (Json.array (branchItems p.branches)).written =
      .ok branches)
    (hr : ∀ r ∈ p.retriers, ∀ x ∈ r.backoffRate, x.isFinite = true) :
    (parallelShape read).ofMembers (fieldsBesideKind (toMembers (.parallel p))) none =
      .ok { p.toCommon with
        branches, resultPath := p.resultPath, retriers := p.retriers,
        catchers := p.catchers.map Catcher.toDocument, exit := .ofTransition p.transition } := by
  obtain ⟨common, parts, resultPath, retriers, catchers, transition⟩ := p
  have names : ("Type" :: (parallelShape read).fields.map Field.name).Nodup := by
    refine List.nodup_cons.mpr ⟨?_, (parallelShape_regular read).names_nodup⟩
    simp [parallelShape, commonFields, exitFields, Field.must, Field.may, Field.maybe, Field.listed]
  refine ofMembers_parallelShape.mpr
    ⟨keysIn_fieldsBesideKind names (keys_toMembers_parallel read _), ?_⟩
  have retriers : Listed retrierShape.read _ (retriers.map id) :=
    Listed.written fun r hm => Retrier.read_toJson (hr r hm)
  have catchers := Listed.written fun c (_ : c ∈ catchers) => Catcher.read_toJson c
  rw [List.map_id] at retriers
  simpa [parallelRead_iff, commonRead_iff, exitRead_iff, toMembers, Common.toMembers,
    Json.get?_append] using
    ⟨⟨maybe_text_written _, may_selector_written _, may_selector_written _⟩, hb,
      may_selector_written _, retriers, catchers, maybe_next_written _, maybe_finish_written _⟩

/-- The kind of a state stands first in its object. -/
theorem get?_kind (s : State) : get? kindKey s.toMembers = some (.string s.kind.name) := by
  cases s with
  | parallel p => rfl
  | _ => rfl

/-- Reading a state comes down to reading the fields beside its kind, with a bound one lower for
the states inside it. -/
theorem read_of_fields {s : State} {document : Document.State} (nested : Bool)
    (hd : (Json.object s.toMembers).Distinct) {levels : Nat}
    (hl : (Json.object s.toMembers).written.height ≤ levels)
    (h : ∀ l, (Json.object s.toMembers).written.height ≤ l + 1 →
      Document.State.ofBody (Document.State.read true l)
        (.members (fieldsBesideKind s.toMembers)) s.kind = .ok document) :
    Document.State.read nested levels (Json.object s.toMembers).written = .ok document := by
  cases levels with
  | zero =>
    rw [Json.written, Written.height] at hl
    omega
  | succ l =>
    rw [Document.State.read, body_written hd s.get?_kind]
    exact h l hl

/-- The parts of a state are below its object. -/
theorem height_branchItems {levels : Nat} {p : Parallel State}
    (h : (Json.object (toMembers (.parallel p))).written.height ≤ levels + 1) :
    Written.heightOfItems (Json.writtenItems (branchItems p.branches)) ≤ levels := by
  have found : get? "Branches" (Json.writtenMembers (toMembers (.parallel p))) =
      some (Json.array (branchItems p.branches)).written := by
    simp [toMembers, Common.toMembers, Json.get?_append]
  have := Written.height_le_of_get? found
  simp only [Json.written, Written.height] at h this
  omega

theorem distinct_branchItems {p : Parallel State}
    (h : (Json.object (toMembers (.parallel p))).Distinct) :
    Json.DistinctItems (branchItems p.branches) := by
  have found : get? "Branches" (toMembers (.parallel p)) =
      some (Json.array (branchItems p.branches)) := by
    simp [toMembers, Common.toMembers, Json.get?_append]
  exact h.2.of_get? "Branches" found

@[simp]
theorem keys_stateMembers (ss : States) : (stateMembers ss).map Prod.fst = ss.map Prod.fst := by
  induction ss with
  | nil => rfl
  | cons s ss ih => simp [stateMembers, ih]

/-- The states of a scope are read one by one behind those read before. -/
theorem read_stateMembers {read : Written → Reading Document.State} {ss : States}
    (hr : ∀ m ∈ ss, read (Json.object m.2.toMembers).written = .ok m.2.toDocument)
    (before : Document.States) (hn : (before.map Prod.fst ++ ss.map Prod.fst).Nodup) :
    Document.stateMembers read before (Json.writtenMembers (stateMembers ss)) none =
      .ok (before ++ stateDocuments ss) := by
  induction ss generalizing before with
  | nil => simp [stateMembers, Json.writtenMembers, Document.stateMembers, stateDocuments]
  | cons m ss ih =>
    obtain ⟨name, s⟩ := m
    rw [List.forall_mem_cons] at hr
    have fresh : name ∉ before.map Prod.fst := fun hm =>
      (List.nodup_append.mp hn).2.2 name hm name List.mem_cons_self rfl
    have rest := ih hr.2 (before ++ [(name, s.toDocument)]) (by simpa using hn)
    simp only [stateMembers, Json.writtenMembers, Document.stateMembers, hr.1,
      Json.insert_of_notMem fresh, rest, stateDocuments, List.append_assoc, List.singleton_append]

theorem height_of_mem_stateMembers {ss : States} {m : String × State} (hm : m ∈ ss) :
    (Json.object m.2.toMembers).written.height ≤
      Written.heightOfMembers (Json.writtenMembers (stateMembers ss)) := by
  induction ss with
  | nil => cases hm
  | cons n ss ih =>
    rw [stateMembers, Json.writtenMembers, Written.heightOfMembers]
    rcases List.mem_cons.mp hm with rfl | hm
    · exact Nat.le_max_left _ _
    · exact Nat.le_trans (ih hm) (Nat.le_max_right _ _)

theorem keys_branchMembers (comment : Option String) (startAt : String) (states : Members) :
    ((branchMembers comment startAt states).map Prod.fst).Sublist
      ["Comment", "StartAt", "States"] := by
  rw [branchMembers, List.map_append]
  exact (Members.keys_optional ..).append (.refl ["StartAt", "States"])

theorem get?_branchMembers_states (comment : Option String) (startAt : String)
    (states : Members) :
    get? "States" (branchMembers comment startAt states) = some (.object states) := by
  simp [branchMembers, Json.get?_append]

/-- A branch is read back when its states are. -/
theorem read_branch {read : Written → Reading Document.State} (comment : Option String)
    (startAt : String) {states : States}
    (hr : ∀ m ∈ states, read (Json.object m.2.toMembers).written = .ok m.2.toDocument)
    (hn : (states.map Prod.fst).Nodup) :
    (branchShape read).read
      (Json.object (branchMembers comment startAt (stateMembers states))).written =
        .ok ⟨comment, startAt, stateDocuments states⟩ := by
  rw [Shape.read_object]
  have keys : ((Json.writtenMembers (branchMembers comment startAt
      (stateMembers states))).map Prod.fst).Sublist ["Comment", "StartAt", "States"] := by
    rw [Json.map_fst_writtenMembers]
    exact keys_branchMembers ..
  refine ofMembers_branchShape.mpr ⟨.of_sublist (branchShape_regular read).names_nodup keys, ?_⟩
  have scope : scopeStates read (Json.object (stateMembers states)).written =
      .ok (stateDocuments states) :=
    read_stateMembers hr [] hn
  simpa [branchRead_iff, branchMembers, Json.get?_append] using
    ⟨maybe_text_written _, text_eq_ok.mpr rfl, scope⟩

mutual

/-- The object of a state that was built is read back, with any bound on the nesting of states that
is not below the height of the object. -/
theorem read_toMembers {s : State} (h : s.toDraft.build = .ok s)
    (hd : (Json.object s.toMembers).Distinct) {levels : Nat}
    (hl : (Json.object s.toMembers).written.height ≤ levels) (nested : Bool) :
    Document.State.read nested levels (Json.object s.toMembers).written = .ok s.toDocument := by
  cases s with
  | task t =>
    obtain ⟨t', hb, -⟩ := bind_eq_ok.mp h
    have valid := (Draft.Task.build_eq_ok.mp hb).1
    have read := t.ofMembers_toMembers (Task.distinct_parameters hd)
      fun r hr x hx => ((valid.retriers r hr).backoff x hx).1
    apply read_of_fields nested hd hl
    intro _ _
    simp [Document.State.ofBody, Shape.ofBody, kind, toMembers, read, toDocument]
  | pass p =>
    have read := p.ofMembers_toMembers (Pass.distinct_parameters hd) (Pass.distinct_result hd)
    apply read_of_fields nested hd hl
    intro _ _
    simp [Document.State.ofBody, Shape.ofBody, kind, toMembers, read, toDocument]
  | wait w =>
    apply read_of_fields nested hd hl
    intro _ _
    simp [Document.State.ofBody, Shape.ofBody, kind, toMembers, w.ofMembers_toMembers, toDocument]
  | choice c =>
    have choices : (Json.array (c.rules.map fun r => .object r.toMembers)).Distinct := by
      apply hd.2.of_get? "Choices"
      simp [toMembers, Choice.toMembers, Common.toMembers, Json.get?_append]
    have read := c.ofMembers_toMembers fun r hr =>
      Json.distinctItems_iff.mp choices _ (List.mem_map_of_mem hr)
    apply read_of_fields nested hd hl
    intro _ _
    simp [Document.State.ofBody, Shape.ofBody, kind, toMembers, read, toDocument]
  | succeed common =>
    apply read_of_fields nested hd hl
    intro _ _
    simp [Document.State.ofBody, Shape.ofBody, kind, toMembers, common.ofMembers_toMembers,
      toDocument]
  | fail f =>
    apply read_of_fields nested hd hl
    intro _ _
    simp [Document.State.ofBody, Shape.ofBody, kind, toMembers, f.ofMembers_toMembers, toDocument]
  | parallel p =>
    obtain ⟨common, branches, resultPath, retriers, catchers, transition⟩ := p
    apply read_of_fields nested hd hl
    intro _ hl
    have parts := read_branchItems (Draft.State.build_toDraft_parallel h) (distinct_branchItems hd)
      (height_branchItems hl)
    obtain ⟨-, -, -, _, -, _, _, hp, -⟩ := Draft.State.build_parallel_eq_ok.mp h
    obtain ⟨valid, -⟩ := Draft.buildPolicies_eq_ok.mp hp
    have read := ofMembers_toMembers_parallel parts
      fun r hr x hx => ((valid r hr).backoff x hx).1
    simp only [Document.State.ofBody, Shape.ofBody, kind, read, toDocument]
    rfl

theorem read_branchItems {index : Nat} {bs : List (Branch State)}
    (h : Draft.State.buildBranches index (toDraftBranches bs) = .ok bs)
    (hd : Json.DistinctItems (branchItems bs)) {levels : Nat}
    (hl : Written.heightOfItems (Json.writtenItems (branchItems bs)) ≤ levels) :
    listItems (branchShape (Document.State.read true levels)).read
      (Json.writtenItems (branchItems bs)) none = .ok (branchDocuments bs) := by
  match bs with
  | [] => rfl
  | ⟨comment, startAt, states⟩ :: bs =>
    obtain ⟨hs, hbs⟩ := Draft.State.build_toDraftBranches_cons h
    simp only [branchItems, Json.writtenItems, Written.heightOfItems] at hl
    obtain ⟨⟨-, hb⟩, hds⟩ := hd
    have scope : (Json.object (stateMembers states)).Distinct :=
      hb.of_get? "States" (get?_branchMembers_states ..)
    -- a branch has the object of its states for a member, which is not as high as the branch
    have found : get? "States" (Json.writtenMembers
        (branchMembers comment startAt (stateMembers states))) =
          some (Json.object (stateMembers states)).written := by
      rw [Json.get?_writtenMembers, get?_branchMembers_states, Option.map_some]
    have below := Written.height_le_of_get? found
    simp only [Json.written, Written.height] at hl below
    have first : ∀ m ∈ states,
        Document.State.read true levels (Json.object m.2.toMembers).written =
          .ok m.2.toDocument := fun m hm => by
      have := height_of_mem_stateMembers hm
      exact read_states hs scope.2 m hm (by omega) true
    have names : (states.map Prod.fst).Nodup := keys_stateMembers states ▸ scope.1
    have rest := read_branchItems hbs hds (Nat.le_trans (Nat.le_max_right _ _) hl)
    simp only [branchItems, Json.writtenItems, listItems, read_branch comment startAt first names,
      ok_bind, rest, branchDocuments]

theorem read_states {ss : States} (h : Draft.State.buildStates (toDraftStates ss) = .ok ss)
    (hd : Json.DistinctMembers (stateMembers ss)) :
    ∀ m ∈ ss, ∀ {levels : Nat}, (Json.object m.2.toMembers).written.height ≤ levels →
      ∀ nested, Document.State.read nested levels (Json.object m.2.toMembers).written =
        .ok m.2.toDocument := by
  match ss with
  | [] => simp
  | (name, s) :: ss =>
    obtain ⟨hs, hss⟩ := Draft.State.build_toDraftStates_cons h
    intro m hm levels hl nested
    rcases List.mem_cons.mp hm with rfl | hm
    · exact read_toMembers hs hd.1 hl nested
    · exact read_states hss hd.2 m hm hl nested

end

end State

/-! ### Machines -/

namespace Machine

theorem keys_toMembers (m : Machine) :
    (m.toMembers.map Prod.fst).Sublist
      ["Comment", "StartAt", "TimeoutSeconds", "Version", "States"] := by
  simp only [toMembers, List.map_append]
  exact ((((Members.keys_optional ..).append (.refl ["StartAt"])).append
    (Members.keys_optional ..)).append (Members.keys_optional ..)).append (.refl ["States"])

theorem get?_toMembers_states (m : Machine) :
    get? "States" m.toMembers = some (.object (State.stateMembers m.states)) := by
  simp [toMembers, Json.get?_append]

/-- The value of a machine that was built is read back. -/
theorem ofJson_toJson {m : Machine} (h : m.toDraft.build = .ok m) (hd : m.toJson.Distinct) :
    Document.Machine.ofJson m.toJson = .ok m.toDocument := by
  have hs := Draft.Machine.build_toDraft_states h
  have scope : (Json.object (State.stateMembers m.states)).Distinct :=
    hd.2.of_get? "States" m.get?_toMembers_states
  have names : (m.states.map Prod.fst).Nodup := State.keys_stateMembers m.states ▸ scope.1
  have read : scopeStates Document.State.ofWritten
      (Json.object (State.stateMembers m.states)).written =
        .ok (State.stateDocuments m.states) :=
    State.read_stateMembers (fun s hm => State.read_states hs scope.2 s hm (Nat.le_refl _) false)
      [] names
  simp only [Document.Machine.ofJson, toJson, Json.written, Machine.ofWritten]
  have keys : ((Json.writtenMembers m.toMembers).map Prod.fst).Sublist
      ["Comment", "StartAt", "TimeoutSeconds", "Version", "States"] := by
    rw [Json.map_fst_writtenMembers]
    exact m.keys_toMembers
  refine ofMembers_machineShape.mpr ⟨.of_sublist (machineShape_regular _).names_nodup keys, ?_⟩
  simpa [machineRead_iff, toMembers, Json.get?_append] using
    ⟨maybe_text_written _, text_eq_ok.mpr rfl, maybe_natural32_written _,
      maybe_text_written _, read⟩

end Machine

end Workflow
