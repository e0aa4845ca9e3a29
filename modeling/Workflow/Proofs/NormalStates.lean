import Workflow.Proofs.NormalRules

/-!
# The normal forms of states

The object of a state that was read and built has the state for its normal form. The document that
was read need not be the document of the state: rules and timestamps can be written in many ways.

## Main results

* `said_common`, `said_retriers`, `said_catchers`: the fields that several kinds of state have
* `task_eq`, `pass_eq`, `wait_eq`, …: the normal forms of states without branches
-/

namespace Workflow.NormalForm

open Json (get?)
open Document

variable {members : Members}

/-! ### The members of a state -/

theorem HasStateMembers.of_get? (h : HasStateMembers members) {key : String} {value : Json}
    (hg : get? key members = some value) : IsStateMember key value := by
  induction members with
  | nil => cases hg
  | cons member members ih =>
    obtain ⟨k, v⟩ := member
    by_cases hk : k = key
    · subst hk
      obtain rfl : v = value := by simpa [get?] using hg
      exact h.1
    · rw [get?, if_neg hk] at hg
      exact ih h.2 hg

/-- The keys under which something in a state is rewritten. -/
def rewrittenKeys : List String := ["Timestamp", "Choices", "Branches", "Retry", "Catch"]

theorem stateMember_of_notMem {key : String} (h : key ∉ rewrittenKeys) (value : Json) :
    stateMember key value = value := by
  simp only [rewrittenKeys, List.mem_cons, not_or] at h
  cases value <;> simp [stateMember, h]

/-- The keys of a state under which a value may be told apart from no value, or is rewritten, and
the key of its kind. Under any other key a value is kept, and null says nothing. -/
def specialKeys : List String := kindKey :: (rewrittenKeys ++ nullableKeys)

theorem keysIn_of_fieldsBesideKind {names : List String} (hn : (members.map Prod.fst).Nodup)
    (h : Shape.KeysIn names (fieldsBesideKind members)) :
    Shape.KeysIn ("Type" :: names) members := by
  refine ⟨hn, fun key hm => ?_⟩
  by_cases hk : key = "Type"
  · rw [hk]
    exact List.mem_cons_self
  · apply List.mem_cons_of_mem
    apply h.known
    have found : get? key (fieldsBesideKind members) ≠ none := by
      rw [get?_fieldsBesideKind hk, Ne, Option.map_eq_none_iff, Json.get?_eq_none, not_not]
      exact hm
    rwa [Ne, Json.get?_eq_none, not_not] at found

/-- The normal form of a state says its kind, and then what it says under the keys that its kind
has. -/
theorem state_object {names : List String} {kind : StateKind} (hd : (Json.object members).Distinct)
    (hk : Shape.KeysIn names (fieldsBesideKind members))
    (hs : ("Type" :: names).Sublist stateKeys)
    (ht : get? kindKey members = some (.string kind.name)) :
    state (.object members) = .object (("Type", .string kind.name) ::
      names.flatMap fun key => Members.optional key id (said stateMember members key)) := by
  have first : said stateMember members "Type" = some (.string kind.name) := by
    rw [said, show get? "Type" members = _ from ht]
    rfl
  rw [state, stateMembers_eq_rewrite,
    object_rewrite (keysIn_of_fieldsBesideKind hd.1 hk) (by decide) hs, List.flatMap_cons, first]
  rfl

/-! ### Fields that are kept as they are -/

section

variable {key : String} (hk : key ∉ specialKeys)

include hk

/-- What is read beside the kind of a state is what stands in the state, and it is kept. -/
theorem kept_of_notMem (members : Members) :
    get? key (fieldsBesideKind members) = (get? key members).map Json.written ∧
      (∀ value, stateMember key value = value) ∧ key ∉ nullableKeys := by
  simp only [specialKeys, List.mem_cons, List.mem_append, not_or] at hk
  exact ⟨get?_fieldsBesideKind hk.1 members, stateMember_of_notMem hk.2.1, hk.2.2⟩

theorem said_stateText {s : String} (h : Must text (get? key (fieldsBesideKind members)) s) :
    said stateMember members key = some (.string s) := by
  obtain ⟨found, kept, -⟩ := kept_of_notMem hk members
  rw [found] at h
  exact said_text kept h

theorem said_stateTextMaybe {o : Option String}
    (h : Maybe text (get? key (fieldsBesideKind members)) o) :
    said stateMember members key = o.map .string := by
  obtain ⟨found, kept, strict⟩ := kept_of_notMem hk members
  rw [found] at h
  exact said_optional_text kept strict h

theorem said_stateNatural32 {o : Option UInt32}
    (h : Maybe natural32 (get? key (fieldsBesideKind members)) o) :
    said stateMember members key = o.map natural32Json := by
  obtain ⟨found, kept, strict⟩ := kept_of_notMem hk members
  rw [found] at h
  exact said_natural32 kept strict h

theorem said_stateNatural64 {o : Option UInt64}
    (h : Maybe natural64 (get? key (fieldsBesideKind members)) o) :
    said stateMember members key = o.map fun n => .number (.whole (.ofUInt64 n)) := by
  obtain ⟨found, kept, strict⟩ := kept_of_notMem hk members
  rw [found] at h
  exact said_natural64 kept strict h

end

/-- A path is kept, and null stands for discarding. -/
theorem said_stateSelector {key : String} (hk : key ∈ ["InputPath", "OutputPath", "ResultPath"])
    {o : Option Selector} (h : May selector (get? key (fieldsBesideKind members)) o) :
    said stateMember members key = o.map Selector.toJson := by
  have nullable : key ∈ nullableKeys := by
    simp only [List.mem_cons, List.not_mem_nil, or_false] at hk
    rcases hk with rfl | rfl | rfl <;> simp [nullableKeys]
  have plain : key ≠ "Type" ∧ key ∉ rewrittenKeys ∧ key ∉ policyKeys := by
    simp only [List.mem_cons, List.not_mem_nil, or_false] at hk
    rcases hk with rfl | rfl | rfl <;> simp [rewrittenKeys, policyKeys]
  rw [get?_fieldsBesideKind plain.1] at h
  exact said_selector (stateMember_of_notMem plain.2.1) nullable plain.2.2 h

/-! ### Fields that several kinds of state have -/

theorem said_common {c : Common} (h : CommonRead (fieldsBesideKind members) c) :
    said stateMember members "Comment" = c.comment.map .string ∧
      said stateMember members "InputPath" = c.inputPath.map Selector.toJson ∧
      said stateMember members "OutputPath" = c.outputPath.map Selector.toJson := by
  obtain ⟨comment, input, output⟩ := h
  exact ⟨said_stateTextMaybe (by decide) comment, said_stateSelector (by simp) input,
    said_stateSelector (by simp) output⟩

theorem said_stateExit {t : Transition}
    (h : ExitRead (fieldsBesideKind members) (.ofTransition t)) :
    Members.optional "Next" id (said stateMember members "Next") ++
      Members.optional "End" id (said stateMember members "End") = t.toMembers := by
  obtain ⟨next, finish⟩ := h
  rw [get?_fieldsBesideKind (by simp)] at next finish
  refine said_exit (fun key hk => stateMember_of_notMem ?_) next finish
  rcases List.mem_pair.mp hk with rfl | rfl <;> decide

theorem said_parameters (hd : Json.DistinctMembers members) {o : Option Members}
    (h : May anything (get? "Parameters" (fieldsBesideKind members)) (o.map .object)) :
    said stateMember members "Parameters" = o.map .object := by
  rw [get?_fieldsBesideKind (by simp)] at h
  have said := said_anything (stateMember_of_notMem (by decide)) hd
    (by cases o <;> simp [isSilent]) h
  simpa using said

theorem said_retriers (hs : HasStateMembers members) {rs : List Retrier}
    (hv : ∀ r ∈ rs, r.Valid)
    (h : Listed retrierShape.read (get? "Retry" (fieldsBesideKind members)) rs) :
    said stateMember members "Retry" = Members.listed Retrier.toJson rs := by
  rw [get?_fieldsBesideKind (by simp), ← List.map_id rs] at h
  have rewritten (items : List Json) :
      stateMember "Retry" (.array items) = .array (items.map retrier) := by simp [stateMember]
  refine said_listed (by decide) rewritten (fun items hg => ?_) h
  intro item hi r hr hread
  have objects := (hs.of_get? hg).2 (by decide)
  exact retrier_eq (objects item hi) (fun x hx => ((hv r hr).backoff x hx).1) hread

theorem said_catchers (hs : HasStateMembers members) {cs : List Workflow.Catcher}
    (h : Listed catcherShape.read (get? "Catch" (fieldsBesideKind members))
      (cs.map Catcher.toDocument)) :
    said stateMember members "Catch" = Members.listed Catcher.toJson cs := by
  rw [get?_fieldsBesideKind (by simp)] at h
  have rewritten (items : List Json) :
      stateMember "Catch" (.array items) = .array (items.map catcher) := by simp [stateMember]
  refine said_listed (by decide) rewritten (fun items hg => ?_) h
  intro item hi c hc hread
  have objects := (hs.of_get? hg).2 (by decide)
  exact catcher_eq (objects item hi) hread

/-! ### States without branches -/

theorem task_eq (hd : (Json.object members).Distinct) (hs : HasStateMembers members)
    (ht : get? kindKey members = some (.string StateKind.task.name)) {t : Workflow.Task}
    (hv : ∀ r ∈ t.retriers, r.Valid)
    (h : taskShape.ofMembers (fieldsBesideKind members) none = .ok t.toDocument) :
    state (.object members) = .object t.toMembers := by
  obtain ⟨keys, fields⟩ := ofMembers_taskShape.mp h
  obtain ⟨comment, input, output⟩ := said_common fields.common
  have resource := said_stateText (by decide) fields.resource
  have path := said_stateSelector (by simp) fields.resultPath
  have timeout := said_stateNatural32 (by decide) fields.timeout
  have heartbeat := said_stateNatural32 (by decide) fields.heartbeat
  have exit := said_stateExit fields.exit
  rw [state_object hd keys (by decide) ht]
  simp [taskShape, commonFields, exitFields, Field.may, Field.must, Field.maybe, Field.listed,
    comment, input, output, resource, said_parameters hd.2 fields.parameters, path, timeout,
    heartbeat, said_retriers hs hv fields.retriers,
    said_catchers hs fields.catchers, exit, Task.toMembers, Common.toMembers, Task.toDocument]

theorem pass_eq (hd : (Json.object members).Distinct)
    (ht : get? kindKey members = some (.string StateKind.pass.name)) {p : Workflow.Pass}
    (h : passShape.ofMembers (fieldsBesideKind members) none = .ok p.toDocument) :
    state (.object members) = .object p.toMembers := by
  obtain ⟨keys, fields⟩ := ofMembers_passShape.mp h
  obtain ⟨comment, input, output⟩ := said_common fields.common
  have result := fields.result
  rw [get?_fieldsBesideKind (by simp)] at result
  have result := said_anything (stateMember_of_notMem (by decide)) hd.2
    (fun _ _ => isSilent_nullable (by decide) (by decide) _) result
  have path := said_stateSelector (by simp) fields.resultPath
  have exit := said_stateExit fields.exit
  rw [state_object hd keys (by decide) ht]
  simp [passShape, commonFields, exitFields, Field.may, Field.maybe, comment, input, output, result,
    said_parameters hd.2 fields.parameters, path, exit,
    Pass.toMembers, Common.toMembers, Pass.toDocument]

theorem timestamp_of_draft {o : Option String} {instant : Option Timestamp}
    (h : draftTimestamp o = .ok instant) :
    (o.map fun text => timestamp (.string text)) = instant.map fun t => .string t.text := by
  cases o with
  | none =>
    obtain rfl : none = instant := by simpa [draftTimestamp] using h
    rfl
  | some text =>
    unfold draftTimestamp at h
    split at h
    · next he => cases he
    · next text' he =>
      obtain rfl := Option.some.inj he
      split at h
      · next t hp =>
        obtain rfl := Except.ok.inj h
        simp [timestamp, hp]
      · cases h

theorem said_timestamp {o : Option String}
    (h : Maybe Document.text ((get? "Timestamp" members).map Json.written) o) :
    said stateMember members "Timestamp" = o.map fun text => timestamp (.string text) := by
  refine said_maybe rfl (by decide) (fun v _ text hv => ?_) (fun text _ => ?_) h
  · rw [text_written_eq_ok.mp hv]
    simp [stateMember]
  · simp only [timestamp]
    split <;> rfl

/-- The four keys of which one says how long to wait are written for the delay that was read from
them. -/
theorem members_of_delay {w : Document.Wait} {d : Delay} (h : w.delay = .ok (some d))
    (rest : Members) :
    Members.optional "Seconds" (fun n => .number (.whole (.ofUInt64 n))) w.seconds ++
      (Members.optional "SecondsPath" Json.string w.secondsPath ++
      (Members.optional "Timestamp" (fun text => timestamp (.string text)) w.timestamp ++
      (Members.optional "TimestampPath" Json.string w.timestampPath ++ rest))) =
        d.toMember :: rest := by
  obtain ⟨common, seconds, path, text, textPath, exit⟩ := w
  simp only [Document.Wait.delay, bind_eq_ok] at h
  obtain ⟨instant, hi, h⟩ := h
  rw [← Members.optional_map _ text, timestamp_of_draft hi]
  cases seconds <;> cases path <;> cases instant <;> cases textPath <;>
    simp at h <;> subst h <;> rfl

theorem wait_eq (hd : (Json.object members).Distinct)
    (ht : get? kindKey members = some (.string StateKind.wait.name)) {document : Document.Wait}
    (h : waitShape.ofMembers (fieldsBesideKind members) none = .ok document) {w : Workflow.Wait}
    (hw : document.draft = .ok w.toDraft) : state (.object members) = .object w.toMembers := by
  obtain ⟨keys, fields⟩ := ofMembers_waitShape.mp h
  simp only [Document.Wait.draft, bind_eq_ok, Except.ok.injEq] at hw
  obtain ⟨delay, hdelay, transition, hexit, hw⟩ := hw
  obtain ⟨hcommon, rfl, rfl⟩ := Draft.Wait.mk.inj hw
  have delayed := members_of_delay hdelay
  obtain ⟨comment, input, output⟩ := said_common fields.common
  have exit := said_stateExit (Exit.draft_eq_ok.mp hexit ▸ fields.exit)
  obtain ⟨-, seconds, path, text, textPath, -⟩ := fields
  have seconds := said_stateNatural64 (by decide) seconds
  have path := said_stateTextMaybe (by decide) path
  have textPath := said_stateTextMaybe (by decide) textPath
  rw [get?_fieldsBesideKind (by simp)] at text
  rw [state_object hd keys (by decide) ht]
  simp [waitShape, commonFields, exitFields, Field.may, Field.maybe, comment, input, output, exit,
    seconds, path, said_timestamp text, textPath, delayed,
    hcommon, Wait.toMembers, Common.toMembers]

theorem object_of_rule {value : Json} (hd : value.Distinct) {ms : Members}
    (h : Document.rule value.written = .ok ms) : value = .object ms := by
  cases value with
  | object members =>
    rw [rule_written hd, Except.ok.injEq] at h
    rw [h]
  | _ => cases h

/-- The objects of rules that were read and built have the rules for their normal forms. -/
theorem rules_eq {objects : List Members} {rules : List Workflow.Rule} {index : Nat}
    (hd : ∀ ms ∈ objects, (Json.object ms).Distinct) (hv : ∀ r ∈ rules, r.toDraft.Valid)
    (ht : ∀ r ∈ rules, r.condition.Typed)
    (h : draftEach draftRule index objects = .ok (rules.map Rule.toDraft)) :
    (objects.map Json.object).map rule = rules.map fun r => .object r.toMembers := by
  induction objects generalizing index rules with
  | nil =>
    obtain rfl : rules = [] := by simpa [draftEach] using h
    rfl
  | cons ms objects ih =>
    cases rules with
    | nil => simp [draftEach] at h
    | cons r rules =>
      simp only [draftEach, bind_eq_ok, Except.ok.injEq, List.map_cons, List.cons.injEq] at h
      obtain ⟨_, hr, _, hrs, rfl, rfl⟩ := h
      rw [List.forall_mem_cons] at hd hv ht
      have first := rule_eq hv.1 ht.1 hd.1 (mapError_eq_ok.mp hr)
      have rest := ih hd.2 hv.2 ht.2 hrs
      rw [List.map_cons, List.map_cons, first, rest, List.map_cons]

theorem said_choices (hd : Json.DistinctMembers members) {objects : List Members}
    {rules : List Workflow.Rule} (hv : ∀ r ∈ rules, r.toDraft.Valid)
    (ht : ∀ r ∈ rules, r.condition.Typed)
    (h : Must (list Document.rule) ((get? "Choices" members).map Json.written) objects)
    (hr : draftEach draftRule 0 objects = .ok (rules.map Rule.toDraft)) :
    said stateMember members "Choices" =
      some (.array (rules.map fun r => .object r.toMembers)) := by
  cases hg : get? "Choices" members with
  | none =>
    rw [hg] at h
    exact h.elim
  | some value =>
    rw [hg] at h
    obtain ⟨items, rfl⟩ := array_of_list h
    have below : Json.DistinctItems items := hd.of_get? "Choices" hg
    -- every item is the object that was taken over for a rule
    have same : items = objects.map Json.object := by
      have read : list Document.rule (Json.array items).written = .ok (objects.map id) := by
        rw [List.map_id]
        exact h
      have each : items.map id = objects.map Json.object := items_eq (fun item hi _ _ =>
        object_of_rule (Json.distinctItems_iff.mp below item hi)) read
      rwa [List.map_id] at each
    subst same
    have distinct (ms : Members) (hm : ms ∈ objects) : (Json.object ms).Distinct :=
      Json.distinctItems_iff.mp below _ (List.mem_map_of_mem hm)
    rw [said, hg, Option.bind_some]
    simp [stateMember, rules_eq distinct hv ht hr, isSilent_eq_false, policyKeys]

theorem choice_eq (hd : (Json.object members).Distinct)
    (ht : get? kindKey members = some (.string StateKind.choice.name))
    {document : Document.Choice}
    (h : choiceShape.ofMembers (fieldsBesideKind members) none = .ok document)
    {c : Workflow.Choice} (hv : c.toDraft.Valid) (hty : ∀ r ∈ c.rules, r.condition.Typed)
    (hc : document.draft = .ok c.toDraft) : state (.object members) = .object c.toMembers := by
  obtain ⟨keys, fields⟩ := ofMembers_choiceShape.mp h
  simp only [Document.Choice.draft, bind_eq_ok, Except.ok.injEq] at hc
  obtain ⟨_, hrules, hc⟩ := hc
  obtain ⟨hcommon, rfl, hdefault⟩ := Draft.Choice.mk.inj hc
  obtain ⟨comment, input, output⟩ := said_common fields.common
  obtain ⟨-, rules, default⟩ := fields
  have default := said_stateTextMaybe (by decide) default
  rw [get?_fieldsBesideKind (by simp)] at rules
  have valid (r : Workflow.Rule) (hr : r ∈ c.rules) : r.toDraft.Valid :=
    hv.rules _ (List.mem_map_of_mem hr)
  have choices := said_choices hd.2 valid hty rules hrules
  rw [state_object hd keys (by decide) ht]
  simp [choiceShape, commonFields, Field.may, Field.maybe, Field.must, comment, input, output,
    choices, default, hcommon, hdefault, Choice.toMembers, Common.toMembers]

theorem succeed_eq (hd : (Json.object members).Distinct)
    (ht : get? kindKey members = some (.string StateKind.succeed.name)) {c : Common}
    (h : succeedShape.ofMembers (fieldsBesideKind members) none = .ok c) :
    state (.object members) = .object (c.toMembers .succeed) := by
  obtain ⟨keys, fields⟩ := ofMembers_succeedShape.mp h
  obtain ⟨comment, input, output⟩ := said_common fields
  rw [state_object hd keys (by decide) ht]
  simp [succeedShape, commonFields, Field.may, Field.maybe, comment, input, output,
    Common.toMembers]

theorem fail_eq (hd : (Json.object members).Distinct)
    (ht : get? kindKey members = some (.string StateKind.fail.name)) {f : Fail}
    (h : failShape.ofMembers (fieldsBesideKind members) none = .ok f) :
    state (.object members) = .object f.toMembers := by
  obtain ⟨keys, comment, error, cause⟩ := ofMembers_failShape.mp h
  have comment := said_stateTextMaybe (by decide) comment
  have error := said_stateTextMaybe (by decide) error
  have cause := said_stateTextMaybe (by decide) cause
  rw [state_object hd keys (by decide) ht]
  simp [failShape, Field.maybe, comment, error, cause, Fail.toMembers, Common.toMembers]

end Workflow.NormalForm
