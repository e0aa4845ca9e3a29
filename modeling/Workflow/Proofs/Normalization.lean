import Workflow.Proofs.NormalStates

/-!
# What is read is written in normal form

A value that says a machine is turned into its normal form by reading it, building the machine and
writing that down: no member is lost on the way, and none is made up. The proof goes by the bound
on the nesting of states: when states one level down are written in normal form, so are branches,
and with them the states around them.

## Main definitions

* `NormalForm.Normalizes`: what is read by a reader of states is written in normal form

## Main results

* `NormalForm.normalizes_read`: the reader of states is such a reader, with any bound
* `Draft.Machine.toJson_of_ofJson`: the value of a machine that was read is the normal form of what
  it was read from
-/

namespace Workflow

namespace NormalForm

open Json (get?)
open Document

/-- States that are read by a reader and built are written in normal form. -/
def Normalizes (read : Written → Reading Document.State) : Prop :=
  ∀ {value : Json} {document : Document.State} {d : Draft.State} {s : Workflow.State},
    value.Distinct → IsState value → read value.written = .ok document →
      document.draft = .ok d → d.build = .ok s → state value = .object s.toMembers

variable {members : Members} {read : Written → Reading Document.State}

/-! ### Scopes -/

/-- States of a scope without a repeated name are read one by one. -/
theorem each_of_stateMembers {before documents : Document.States}
    (hn : (before.map Prod.fst ++ members.map Prod.fst).Nodup)
    (h : Document.stateMembers read before (Json.writtenMembers members) none = .ok documents) :
    ∃ rest, documents = before ++ rest ∧
      List.Forall₂ (fun m d => d.1 = m.1 ∧ read m.2.written = .ok d.2) members rest := by
  induction members generalizing before with
  | nil =>
    obtain rfl : before = documents := by
      simpa [Json.writtenMembers, Document.stateMembers] using h
    exact ⟨[], (List.append_nil _).symm, .nil⟩
  | cons m members ih =>
    obtain ⟨name, value⟩ := m
    rw [Json.writtenMembers, Document.stateMembers] at h
    cases hv : read value.written with
    | error problem => simp [hv] at h
    | ok document =>
      -- no name comes twice, so each state goes behind those before it
      have fresh : name ∉ before.map Prod.fst := fun hm =>
        (List.nodup_append.mp hn).2.2 name hm name List.mem_cons_self rfl
      rw [hv] at h
      simp only [Json.insert_of_notMem fresh] at h
      obtain ⟨rest, rfl, hrest⟩ := ih (by simpa using hn) h
      exact ⟨(name, document) :: rest, by simp, .cons ⟨rfl, hv⟩ hrest⟩

theorem states_eq (hr : Normalizes read) (hd : Json.DistinctMembers members)
    (ho : AllStates members) {documents : Document.States}
    (h : List.Forall₂ (fun m d => d.1 = m.1 ∧ read m.2.written = .ok d.2) members documents)
    {ds : Draft.States} (hdraft : State.draftStates documents = .ok ds) {ss : Workflow.States}
    (hb : Draft.State.buildStates ds = .ok ss) : states members = State.stateMembers ss := by
  induction h generalizing ds ss with
  | nil =>
    obtain rfl : [] = ds := by simpa [State.draftStates] using hdraft
    obtain rfl : [] = ss := by simpa [Draft.State.buildStates] using hb
    rfl
  | @cons m document members documents hm _ ih =>
    obtain ⟨name, value⟩ := m
    obtain ⟨_, document⟩ := document
    obtain ⟨rfl, hread⟩ := hm
    simp only [State.draftStates, bind_eq_ok, mapError_eq_ok, exists_unit, Except.ok.injEq]
      at hdraft
    obtain ⟨d, hfirst, -, ds, hrest, rfl⟩ := hdraft
    simp only [Draft.State.buildStates, bind_eq_ok, Checked.within_eq_ok, Except.ok.injEq] at hb
    obtain ⟨s, hs, ss, hss, rfl⟩ := hb
    rw [states, hr hd.1 ho.1 hread hfirst hs, ih hd.2 ho.2 hrest hss]
    rfl

theorem HasStates.of_get? (h : HasStates members) {value : Json}
    (hg : get? "States" members = some value) : AreStates value := by
  induction members with
  | nil => cases hg
  | cons member members ih =>
    obtain ⟨k, v⟩ := member
    by_cases hk : k = "States"
    · obtain rfl : v = value := by simpa [get?, hk] using hg
      exact h.1 hk
    · rw [get?, if_neg hk] at hg
      exact ih h.2 hg

theorem scopeMember_of_ne {key : String} (h : key ≠ "States") (value : Json) :
    scopeMember key value = value := by
  cases value <;> simp [scopeMember, h]

/-- The states of a scope are written in normal form when its reader is one that normalizes. -/
theorem said_states (hr : Normalizes read) (hd : Json.DistinctMembers members)
    (ho : HasStates members) {documents : Document.States}
    (h : Must (scopeStates read) ((get? "States" members).map Json.written) documents)
    {ds : Draft.States} (hdraft : State.draftStates documents = .ok ds) {ss : Workflow.States}
    (hb : Draft.State.buildStates ds = .ok ss) :
    said scopeMember members "States" = some (.object (State.stateMembers ss)) := by
  cases hg : get? "States" members with
  | none =>
    rw [hg] at h
    exact h.elim
  | some value =>
    rw [hg] at h
    cases value with
    | object states =>
      have below := hd.of_get? "States" hg
      obtain ⟨rest, rfl, each⟩ := each_of_stateMembers (by exact below.1) h
      have same := states_eq hr below.2 (ho.of_get? hg) each hdraft hb
      simp [said, hg, scopeMember, same, isSilent]
    | _ => cases h

/-! ### Branches -/

theorem branch_eq (hr : Normalizes read) (hd : (Json.object members).Distinct)
    (ho : HasStates members) {document : Branch Document.State}
    (h : (branchShape read).read (Json.object members).written = .ok document)
    {ds : Draft.States} (hdraft : State.draftStates document.states = .ok ds)
    {ss : Workflow.States} (hb : Draft.State.buildStates ds = .ok ss) :
    branch (.object members) =
      .object (branchMembers document.comment document.startAt (State.stateMembers ss)) := by
  rw [Shape.read_object] at h
  obtain ⟨keys, comment, startAt, states⟩ := ofMembers_branchShape.mp h
  rw [Json.get?_writtenMembers] at comment startAt states
  have comment := said_optional_text (scopeMember_of_ne (by simp)) (by decide) comment
  have startAt := said_text (scopeMember_of_ne (by simp)) startAt
  have states := said_states hr hd.2 ho states hdraft hb
  have known : Shape.KeysIn branchKeys members := keysIn_of_written keys
  rw [branch, scopeMembers_eq_rewrite, object_rewrite known (by decide) (.refl _)]
  simp [branchKeys, comment, startAt, states, branchMembers]

theorem branches_eq (hr : Normalizes read) {items : List Json} (hd : Json.DistinctItems items)
    (ho : AreBranches items) {documents : List (Branch Document.State)}
    (h : listItems (branchShape read).read (Json.writtenItems items) none = .ok documents)
    {i j : Nat} {ds : List (Draft.Branch Draft.State)}
    (hdraft : State.draftBranches i documents = .ok ds)
    {bs : List (Branch Workflow.State)} (hb : Draft.State.buildBranches j ds = .ok bs) :
    branches items = State.branchItems bs := by
  induction items generalizing documents i j ds bs with
  | nil =>
    obtain rfl : [] = documents := by simpa [Json.writtenItems, listItems] using h
    obtain rfl : [] = ds := by simpa [State.draftBranches] using hdraft
    obtain rfl : [] = bs := by simpa [Draft.State.buildBranches] using hb
    rfl
  | cons item items ih =>
    simp only [Json.writtenItems, listItems, bind_eq_ok, Except.ok.injEq] at h
    obtain ⟨document, hfirst, documents, hrest, rfl⟩ := h
    obtain ⟨comment, start, states⟩ := document
    simp only [State.draftBranches, bind_eq_ok, mapError_eq_ok, Except.ok.injEq] at hdraft
    obtain ⟨d, hd₁, ds, hds, rfl⟩ := hdraft
    simp only [Draft.State.buildBranches, bind_eq_ok, Checked.within_eq_ok, Except.ok.injEq] at hb
    obtain ⟨name, hname, ss, hss, -, -, bs, hbs, rfl⟩ := hb
    obtain rfl : name = start := Option.some.inj (Draft.requireStart_eq_ok.mp hname).2
    cases item with
    | object members =>
      have first := branch_eq hr hd.1 ho.1 hfirst hd₁ hss
      rw [branches, first, ih hd.2 ho.2 hrest hds hbs]
      rfl
    | _ => exact ho.1.elim

/-- The branches of a state are written in normal form when the reader of their states is one that
normalizes. -/
theorem said_branches (hr : Normalizes read) (hd : Json.DistinctMembers members)
    (hs : HasStateMembers members) {documents : List (Branch Document.State)}
    (h : Must (list (branchShape read).read) (get? "Branches" (fieldsBesideKind members)) documents)
    {ds : List (Draft.Branch Draft.State)} (hdraft : State.draftBranches 0 documents = .ok ds)
    {bs : List (Branch Workflow.State)} (hb : Draft.State.buildBranches 0 ds = .ok bs) :
    said stateMember members "Branches" = some (.array (State.branchItems bs)) := by
  rw [get?_fieldsBesideKind (by simp)] at h
  cases hg : get? "Branches" members with
  | none =>
    rw [hg] at h
    exact h.elim
  | some value =>
    rw [hg] at h
    obtain ⟨items, rfl⟩ := array_of_list h
    have below : Json.DistinctItems items := hd.of_get? "Branches" hg
    have objects := (hs.of_get? hg).1 rfl
    have same := branches_eq hr below objects h hdraft hb
    rw [said, hg, Option.bind_some]
    simp [stateMember, same, isSilent_eq_false, policyKeys]

theorem parallel_eq (hr : Normalizes read) (hd : (Json.object members).Distinct)
    (hs : HasStateMembers members)
    (ht : get? kindKey members = some (.string StateKind.parallel.name))
    {document : Document.Parallel Document.State}
    (h : (parallelShape read).ofMembers (fieldsBesideKind members) none = .ok document)
    {d : Draft.State} (hdraft : State.draft (.parallel document) = .ok d) {s : Workflow.State}
    (hb : d.build = .ok s) : state (.object members) = .object s.toMembers := by
  obtain ⟨keys, fields⟩ := ofMembers_parallelShape.mp h
  obtain ⟨common, parts, path, retriers, catchers, exit⟩ := document
  simp only [State.draft, bind_eq_ok, Except.ok.injEq] at hdraft
  obtain ⟨ds, hds, cs, hcs, transition, hexit, rfl⟩ := hdraft
  obtain ⟨-, -, -, bs, hbs, rs', cs', hp, t, ht', rfl⟩ := Draft.State.build_parallel_eq_ok.mp hb
  obtain ⟨valid, -, rfl, rfl⟩ := Draft.buildPolicies_eq_ok.mp hp
  obtain ⟨-, rfl⟩ := requireTransition_eq_ok.mp ht'
  obtain ⟨comment, input, output⟩ := said_common fields.common
  have exit := said_stateExit (Exit.draft_eq_ok.mp hexit ▸ fields.exit)
  have catchers := said_catchers hs (draftCatchers_eq_ok.mp hcs ▸ fields.catchers)
  have parts := said_branches hr hd.2 hs fields.branches hds hbs
  have order : ["Type", "Comment", "InputPath", "OutputPath", "Branches", "ResultPath", "Retry",
      "Catch", "Next", "End"].Sublist stateKeys := by decide
  rw [state_object hd keys order ht]
  simp [parallelShape, commonFields, exitFields, Field.may, Field.maybe, Field.must, Field.listed,
    comment, input, output, parts, said_stateSelector (by simp) fields.resultPath,
    said_retriers hs valid fields.retriers, catchers, exit, State.toMembers, Common.toMembers]

/-! ### States -/

/-- A fixed result that was read from a document is read already. -/
theorem settle_of_draft {p : Document.Pass} {d : Draft.Pass} (h : p.draft = .ok d) :
    d.settle = d := by
  simp only [Document.Pass.draft, bind_eq_ok, Except.ok.injEq] at h
  obtain ⟨_, -, rfl⟩ := h
  cases p.result <;> simp [Draft.Pass.settle, Draft.Result.settle, Draft.Result.build]

theorem name_of_readKind {nested : Bool} {name : String} {kind : StateKind}
    (h : readKind nested (.string name) = .ok kind) : kind.name = name := by
  rw [readKind] at h
  split at h
  · next found hf =>
    obtain rfl := Except.ok.inj h
    simpa using List.find?_some hf
  · cases h

/-- The kind of a state that is an object is given by its name, and the rest of it is read from
the fields beside it. -/
theorem fields_of_read {nested : Bool} {levels : Nat} (hd : (Json.object members).Distinct)
    (hk : ∃ name, get? kindKey members = some (.string name)) {document : Document.State}
    (h : State.read nested levels (Json.object members).written = .ok document) :
    ∃ l kind, levels = l + 1 ∧ get? kindKey members = some (.string (StateKind.name kind)) ∧
      State.ofBody (State.read true l) (.members (fieldsBesideKind members)) kind =
        .ok document := by
  cases levels with
  | zero => cases h
  | succ l =>
    obtain ⟨name, hk⟩ := hk
    have hn : ((Json.writtenMembers members).map Prod.fst).Nodup := by
      rw [Json.map_fst_writtenMembers]
      exact hd.1
    simp only [State.read, Json.written, body, bind_eq_ok, Except.ok.injEq, Prod.exists,
      Prod.mk.injEq] at h
    obtain ⟨_, _, ⟨kind, hkind, rfl, rfl⟩, h⟩ := h
    obtain ⟨⟨w, hw, hread⟩, -⟩ := (kindOfMembers_eq_ok hn).mp hkind
    rw [Json.get?_writtenMembers, hk, Option.map_some, Option.some.injEq] at hw
    subst hw
    have named : kind.name = name := name_of_readKind hread
    exact ⟨l, kind, rfl, by rw [hk, named], h⟩

theorem normalizes_read (levels : Nat) (nested : Bool) : Normalizes (State.read nested levels) := by
  -- by the bound on the levels, since the states of a branch are read with one level less
  induction levels generalizing nested with
  | zero =>
    intro _ _ _ _ _ _ h
    cases h
  | succ l ih =>
    intro value document d s hd ho h hdraft hb
    cases value with
    | object members =>
      obtain ⟨hk, hs⟩ := ho
      obtain ⟨_, kind, he, ht, h⟩ := fields_of_read hd hk h
      obtain rfl := Nat.succ.inj he
      cases kind with
      | task =>
        obtain ⟨t, hread, rfl⟩ := map_eq_ok.mp h
        obtain ⟨dt, hdoc, rfl⟩ := map_eq_ok.mp hdraft
        simp only [Draft.State.build, bind_eq_ok, Draft.Task.build_eq_ok, Except.ok.injEq] at hb
        obtain ⟨t', ⟨valid, rfl⟩, rfl⟩ := hb
        obtain rfl := Task.draft_eq_ok.mp hdoc
        exact task_eq hd hs ht valid.retriers hread
      | pass =>
        obtain ⟨p, hread, rfl⟩ := map_eq_ok.mp h
        obtain ⟨dp, hdoc, rfl⟩ := map_eq_ok.mp hdraft
        simp only [Draft.State.build, bind_eq_ok, Draft.Pass.build_eq_ok, Except.ok.injEq] at hb
        obtain ⟨p', ⟨-, settled⟩, rfl⟩ := hb
        rw [settle_of_draft hdoc] at settled
        obtain rfl := Pass.draft_eq_ok.mp (settled ▸ hdoc)
        exact pass_eq hd ht hread
      | wait =>
        obtain ⟨w, hread, rfl⟩ := map_eq_ok.mp h
        obtain ⟨dw, hdoc, rfl⟩ := map_eq_ok.mp hdraft
        simp only [Draft.State.build, bind_eq_ok, Draft.Wait.build_eq_ok, Except.ok.injEq] at hb
        obtain ⟨w', ⟨-, rfl⟩, rfl⟩ := hb
        exact wait_eq hd ht hread hdoc
      | choice =>
        obtain ⟨c, hread, rfl⟩ := map_eq_ok.mp h
        obtain ⟨dc, hdoc, rfl⟩ := map_eq_ok.mp hdraft
        simp only [Draft.State.build, bind_eq_ok, Draft.Choice.build_eq_ok, Except.ok.injEq] at hb
        obtain ⟨c', ⟨valid, typed, rfl⟩, rfl⟩ := hb
        exact choice_eq hd ht hread valid typed hdoc
      | succeed =>
        obtain ⟨c, hread, rfl⟩ := map_eq_ok.mp h
        obtain rfl := Except.ok.inj hdraft
        simp only [Draft.State.build, bind_eq_ok, Except.ok.injEq] at hb
        obtain ⟨-, -, rfl⟩ := hb
        exact succeed_eq hd ht hread
      | fail =>
        obtain ⟨f, hread, rfl⟩ := map_eq_ok.mp h
        obtain rfl := Except.ok.inj hdraft
        obtain rfl := Except.ok.inj hb
        exact fail_eq hd ht hread
      | parallel =>
        obtain ⟨p, hread, rfl⟩ := map_eq_ok.mp h
        exact parallel_eq (ih true) hd hs ht hread hdraft hb
    | _ => exact ho.elim

/-! ### Machines -/

theorem machine_eq (hd : (Json.object members).Distinct) (ho : HasStates members)
    {document : Document.Machine} (h : Machine.ofJson (.object members) = .ok document)
    {b : Draft.Machine} (hdraft : document.draft = .ok b) {m : Workflow.Machine}
    (hb : b.build = .ok m) : machine (.object members) = m.toJson := by
  obtain ⟨keys, comment, startAt, timeout, version, states⟩ := ofMembers_machineShape.mp h
  rw [Json.get?_writtenMembers] at comment startAt timeout version states
  simp only [Document.Machine.draft, bind_eq_ok, Except.ok.injEq] at hdraft
  obtain ⟨ds, hds, rfl⟩ := hdraft
  obtain ⟨-, start, -, hstart, ss, hss, -, rfl⟩ := Draft.Machine.build_eq_ok.mp hb
  obtain rfl := Option.some.inj hstart
  have reader : Normalizes State.ofWritten := fun {value} =>
    normalizes_read value.written.height false
  have comment := said_optional_text (scopeMember_of_ne (by simp)) (by decide) comment
  have startAt := said_text (scopeMember_of_ne (by simp)) startAt
  have timeout := said_natural32 (scopeMember_of_ne (by simp)) (by decide) timeout
  have version := said_optional_text (scopeMember_of_ne (by simp)) (by decide) version
  have states := said_states reader hd.2 ho states hds hss
  have known : Shape.KeysIn machineKeys members := keysIn_of_written keys
  rw [machine, scopeMembers_eq_rewrite, object_rewrite known (by decide) (.refl _)]
  simp [machineKeys, comment, startAt, timeout, version, states, Machine.toJson, Machine.toMembers]

end NormalForm

/-- **Reading loses and invents nothing**: what is written for a machine that was read from a
value is the normal form of that value. -/
theorem Draft.Machine.toJson_of_ofJson {value : Json} (hd : value.Distinct)
    (ho : NormalForm.IsMachine value) {b : Draft.Machine} (h : ofJson value = .ok b)
    {m : Workflow.Machine} (hb : b.build = .ok m) : m.toJson = NormalForm.machine value := by
  unfold ofJson ofReading at h
  split at h
  · next document hread =>
    cases value with
    | object members => exact (NormalForm.machine_eq hd ho hread h hb).symm
    | _ => exact ho.elim
  · cases h

namespace Draft.Machine

/-- A value with its keys out of order, in which some members say nothing, and in which a factor
and an instant are not spelt as they are written. -/
def scrambled : Json :=
  .object [
    ("States", .object [
      ("Fan", .object [
        ("Retry", .array [.object [
          ("BackoffRate", .number (.whole ⟨2, by decide, by decide⟩)),
          ("ErrorEquals", .array [.string "E"])]]),
        ("End", .bool true),
        ("Branches", .array [.object [
          ("States", .object [
            ("Ask", .object [
              ("Choices", .array [.object [
                ("Next", .string "Ask"),
                ("TimestampLessThan", .string "2024-01-01T01:00:00+01:00"),
                ("Variable", .string "$.t")]]),
              ("Default", .string "Stop"),
              ("Type", .string "Choice")]),
            ("Stop", .object [("Comment", .null), ("Type", .string "Succeed")])]),
          ("StartAt", .string "Ask")]]),
        ("Catch", .array []),
        ("ResultPath", .null),
        ("Type", .string "Parallel")])]),
    ("StartAt", .string "Fan")]

theorem toJson_of_ofJson_scrambled :
    scrambled.Distinct ∧ NormalForm.IsMachine scrambled ∧
      ∃ b m, ofJson scrambled = .ok b ∧ b.build = .ok m ∧
        m.toJson = NormalForm.machine scrambled := by
  have distinct : scrambled.Distinct := by
    simp [scrambled, Json.Distinct, Json.DistinctMembers, Json.DistinctItems]
  have objects : NormalForm.IsMachine scrambled := by
    simp [scrambled, NormalForm.IsMachine, NormalForm.HasStates, NormalForm.AreStates,
      NormalForm.AllStates, NormalForm.IsState, NormalForm.HasStateMembers,
      NormalForm.IsStateMember, NormalForm.AreBranches, NormalForm.IsBranch, NormalForm.IsObject,
      NormalForm.policyKeys, Json.get?, Document.kindKey]
  have read : ((ofJson scrambled).toOption.bind fun b => b.build.toOption).isSome = true := by
    decide +kernel
  cases h : ofJson scrambled with
  | error reason => simp [h, Except.toOption] at read
  | ok b =>
    cases hb : b.build with
    | error defect => simp [h, hb, Except.toOption] at read
    | ok m => exact ⟨distinct, objects, b, m, rfl, hb, toJson_of_ofJson distinct objects h hb⟩

end Draft.Machine

end Workflow
