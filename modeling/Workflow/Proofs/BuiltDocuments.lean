import Workflow.Document.Decode
import Workflow.Proofs.GraphDefects
import Workflow.Proofs.Rebuild
import Workflow.Proofs.RuleObjects

/-!
# The document of what was built

Every state that was built has a document, from which the draft of the state is made without a
complaint: no keys in it exclude each other, its rules ask for exactly one thing, and its
timestamp can be read.

## Main definitions

* `State.toDocument`, `Machine.toDocument`: the document of what was built

## Main results

* `Machine.draft_toDocument`: the draft of the document is the draft of the machine
-/

namespace Workflow

open Document (draftEach draftCatchers draftRule draftTimestamp)

/-! ### Documents -/

/-- The keys of a transition. -/
def Document.Exit.ofTransition : Transition → Document.Exit
  | .next name => { next := some name }
  | .finish => { finish := some true }

/-- The document of a catcher. -/
def Catcher.toDocument (c : Catcher) : Document.Catcher :=
  ⟨c.errors, c.resultPath, .ofTransition c.transition⟩

/-- The document of a state that has work done. -/
def Task.toDocument (t : Task) : Document.Task :=
  { t.toCommon with
    resource := t.resource, parameters := t.parameters.map .object, resultPath := t.resultPath,
    timeoutSeconds := t.timeoutSeconds, heartbeatSeconds := t.heartbeatSeconds,
    retriers := t.retriers, catchers := t.catchers.map Catcher.toDocument,
    exit := .ofTransition t.transition }

/-- The document of a state that passes its input on. -/
def Pass.toDocument (p : Pass) : Document.Pass :=
  { p.toCommon with
    result := p.result, parameters := p.parameters.map .object, resultPath := p.resultPath,
    exit := .ofTransition p.transition }

/-- The document of a state that waits. -/
def Wait.toDocument (w : Wait) : Document.Wait :=
  let document : Document.Wait := { w.toCommon with exit := .ofTransition w.transition }
  match w.delay with
  | .seconds count => { document with seconds := some count }
  | .secondsPath path => { document with secondsPath := some path }
  | .timestamp instant => { document with timestamp := some instant.text }
  | .timestampPath path => { document with timestampPath := some path }

/-- The document of a state that chooses. -/
def Choice.toDocument (c : Choice) : Document.Choice :=
  { c.toCommon with rules := c.rules.map Rule.toMembers, default := c.default }

namespace State

mutual

/-- The document of a state. -/
def toDocument : State → Document.State
  | task t => .task t.toDocument
  | pass p => .pass p.toDocument
  | wait w => .wait w.toDocument
  | choice c => .choice c.toDocument
  | succeed common => .succeed common
  | fail f => .fail f
  | parallel ⟨common, branches, resultPath, retriers, catchers, transition⟩ =>
    .parallel { common with
      branches := branchDocuments branches, resultPath, retriers,
      catchers := catchers.map Catcher.toDocument, exit := .ofTransition transition }

/-- The documents of branches. -/
def branchDocuments : List (Branch State) → List (Branch Document.State)
  | [] => []
  | ⟨comment, startAt, states⟩ :: branches =>
    ⟨comment, startAt, stateDocuments states⟩ :: branchDocuments branches

/-- The documents of the states of a scope. -/
def stateDocuments : List (String × State) → Document.States
  | [] => []
  | (name, state) :: states => (name, toDocument state) :: stateDocuments states

end

end State

/-- The document of a machine. -/
def Machine.toDocument (m : Machine) : Document.Machine :=
  ⟨m.comment, m.startAt, m.timeoutSeconds, m.version, State.stateDocuments m.states⟩

/-! ### Drafts of documents -/

/-- When every item has a draft at every index, so has the list. -/
theorem Document.draftEach_map {α β γ : Type} {draft : Nat → α → Drafted β} {f : γ → α}
    {g : γ → β} {items : List γ} (h : ∀ c ∈ items, ∀ index, draft index (f c) = .ok (g c))
    (index : Nat) : draftEach draft index (items.map f) = .ok (items.map g) := by
  induction items generalizing index with
  | nil => rfl
  | cons c items ih =>
    rw [List.forall_mem_cons] at h
    simp [draftEach, h.1, ih h.2]

/-- When the item of a draft can be told from the draft, so can the items of a list. -/
theorem Document.draftEach_eq_ok {α β γ : Type} {draft : Nat → α → Drafted β} {f : γ → α}
    {g : γ → β} (h : ∀ a c index, draft index a = .ok (g c) ↔ a = f c) {index : Nat}
    {items : List α} {built : List γ} :
    draftEach draft index items = .ok (built.map g) ↔ items = built.map f := by
  induction items generalizing index built with
  | nil => cases built <;> simp [draftEach]
  | cons a items ih =>
    cases built with
    | nil => simp [draftEach]
    | cons c built =>
      simp only [draftEach, bind_eq_ok, Except.ok.injEq, List.map_cons, List.cons.injEq]
      constructor
      · rintro ⟨_, ha, _, hs, rfl, rfl⟩
        exact ⟨(h a c index).mp ha, ih.mp hs⟩
      · rintro ⟨ha, hs⟩
        exact ⟨_, (h a c index).mpr ha, _, ih.mpr hs, rfl, rfl⟩

theorem Document.Exit.draft_eq_ok {e : Exit} {t : Transition} :
    e.draft = .ok (some t) ↔ e = ofTransition t := by
  obtain ⟨next, finish⟩ := e
  rcases next with _ | name <;> rcases finish with _ | _ | _ <;> cases t <;>
    simp [draft, ofTransition]

theorem Document.Catcher.draft_eq_ok {d : Catcher} {c : Workflow.Catcher} {index : Nat} :
    d.draft index = .ok c.toDraft ↔ d = c.toDocument := by
  obtain ⟨errors, path, exit⟩ := d
  simp only [draft, bind_eq_ok, mapError_eq_ok, Except.ok.injEq, Catcher.toDraft,
    Draft.Catcher.mk.injEq, Catcher.toDocument, Catcher.mk.injEq]
  constructor
  · rintro ⟨_, he, hs, hp, rfl⟩
    exact ⟨hs, hp, Exit.draft_eq_ok.mp he⟩
  · rintro ⟨hs, hp, he⟩
    exact ⟨_, Exit.draft_eq_ok.mpr he, hs, hp, rfl⟩

theorem Document.draftCatchers_eq_ok {ds : List Catcher} {cs : List Workflow.Catcher} :
    draftCatchers ds = .ok (cs.map Catcher.toDraft) ↔ ds = cs.map Catcher.toDocument :=
  draftEach_eq_ok fun _ _ _ => Catcher.draft_eq_ok

theorem Document.Task.draft_eq_ok {d : Task} {t : Workflow.Task} :
    d.draft = .ok t.toDraft ↔ d = t.toDocument := by
  simp only [draft, bind_eq_ok, Except.ok.injEq, Task.toDraft, Task.toDocument]
  constructor
  · rintro ⟨_, hc, _, he, h⟩
    obtain ⟨common, resource, parameters, path, timeout, heartbeat, retriers, catchers, exit⟩ := d
    simp only [Draft.Task.mk.injEq] at h
    obtain ⟨rfl, hr, rfl, rfl, rfl, rfl, rfl, rfl, rfl⟩ := h
    obtain rfl : resource = t.resource := Option.some.inj hr
    obtain rfl : catchers = _ := draftCatchers_eq_ok.mp hc
    obtain rfl : exit = _ := Exit.draft_eq_ok.mp he
    rfl
  · rintro rfl
    exact ⟨_, draftCatchers_eq_ok.mpr rfl, _, Exit.draft_eq_ok.mpr rfl, rfl⟩

theorem Document.Pass.draft_eq_ok {d : Pass} {p : Workflow.Pass} :
    d.draft = .ok p.toDraft ↔ d = p.toDocument := by
  simp only [draft, bind_eq_ok, Except.ok.injEq, Pass.toDraft, Pass.toDocument]
  constructor
  · rintro ⟨_, he, h⟩
    obtain ⟨common, result, parameters, path, exit⟩ := d
    simp only [Draft.Pass.mk.injEq] at h
    obtain ⟨rfl, hr, rfl, rfl, rfl⟩ := h
    obtain rfl : result = p.result := Option.map_injective (fun _ _ => Draft.Result.value.inj) hr
    obtain rfl : exit = _ := Exit.draft_eq_ok.mp he
    rfl
  · rintro rfl
    exact ⟨_, Exit.draft_eq_ok.mpr rfl, rfl⟩

theorem Wait.draft_toDocument {w : Wait} (h : w.delay.Valid) :
    w.toDocument.draft = .ok w.toDraft := by
  obtain ⟨common, delay, transition⟩ := w
  have delayed : (Wait.toDocument ⟨common, delay, transition⟩).delay = .ok (some delay) := by
    cases delay with
    | timestamp t =>
      have read : Timestamp.parse t.text = .ok t :=
        Timestamp.parse_text (Timestamp.checkRange_eq_ok.mpr h)
      simp [Document.Wait.delay, toDocument, draftTimestamp, read]
    | _ => simp [Document.Wait.delay, toDocument, draftTimestamp]
  cases delay <;> simp [Document.Wait.draft, delayed] <;>
    simp [toDocument, toDraft, Document.Exit.draft_eq_ok.mpr rfl]

theorem Choice.draft_toDocument {c : Choice} (hv : ∀ r ∈ c.rules, r.toDraft.Valid)
    (ht : ∀ r ∈ c.rules, r.condition.Typed) : c.toDocument.draft = .ok c.toDraft := by
  have rules : draftEach draftRule 0 (c.rules.map Rule.toMembers) =
      .ok (c.rules.map Rule.toDraft) := by
    apply Document.draftEach_map
    intro r hr index
    simp [draftRule, Rule.ofMembers_toMembers (hv r hr) (ht r hr)]
  simp [Document.Choice.draft, toDocument, rules, toDraft]

namespace State

mutual

theorem draft_toDocument {s : State} (h : s.toDraft.build = .ok s) :
    s.toDocument.draft = .ok s.toDraft := by
  match s with
  | task t => simp [toDocument, Document.State.draft, Document.Task.draft_eq_ok.mpr rfl, toDraft]
  | pass p => simp [toDocument, Document.State.draft, Document.Pass.draft_eq_ok.mpr rfl, toDraft]
  | wait w =>
    -- a timestamp is read back from its text only within the years that a build accepts
    obtain ⟨w', hb, -⟩ := bind_eq_ok.mp h
    obtain ⟨d, hd, hs⟩ := (Draft.Wait.build_eq_ok.mp hb).1.delay
    obtain rfl : d = w.delay := by simpa [Wait.toDraft] using hs
    simp [toDocument, Document.State.draft, Wait.draft_toDocument hd, toDraft]
  | choice c =>
    obtain ⟨c', hb, hc⟩ := bind_eq_ok.mp h
    obtain rfl : c' = c := by simpa using hc
    obtain ⟨hv, ht, -⟩ := Draft.Choice.build_eq_ok.mp hb
    have rules : ∀ r ∈ c'.rules, r.toDraft.Valid := fun r hr => hv.rules _ (List.mem_map_of_mem hr)
    simp [toDocument, Document.State.draft, Choice.draft_toDocument rules ht, toDraft]
  | succeed common => rfl
  | fail f => rfl
  | parallel ⟨common, branches, resultPath, retriers, catchers, transition⟩ =>
    have hbs := draft_branchDocuments (Draft.State.build_toDraft_parallel h)
    have hcs := Document.draftCatchers_eq_ok.mpr (Eq.refl (catchers.map Catcher.toDocument))
    have hexit := Document.Exit.draft_eq_ok.mpr (Eq.refl (Document.Exit.ofTransition transition))
    simp only [toDocument, Document.State.draft, hbs, hcs, ok_bind, hexit, toDraft]

theorem draft_branchDocuments {index : Nat} {bs : List (Branch State)}
    (h : Draft.State.buildBranches index (toDraftBranches bs) = .ok bs) :
    Document.State.draftBranches index (branchDocuments bs) = .ok (toDraftBranches bs) := by
  match bs with
  | [] => rfl
  | ⟨comment, startAt, states⟩ :: bs =>
    obtain ⟨hs, hbs⟩ := Draft.State.build_toDraftBranches_cons h
    simp only [branchDocuments, Document.State.draftBranches, draft_stateDocuments hs,
      draft_branchDocuments hbs, mapError_ok, ok_bind, toDraftBranches]

theorem draft_stateDocuments {ss : States}
    (h : Draft.State.buildStates (toDraftStates ss) = .ok ss) :
    Document.State.draftStates (stateDocuments ss) = .ok (toDraftStates ss) := by
  match ss with
  | [] => rfl
  | (name, s) :: ss =>
    obtain ⟨hs, hss⟩ := Draft.State.build_toDraftStates_cons h
    simp only [stateDocuments, Document.State.draftStates, draft_toDocument hs,
      draft_stateDocuments hss, Document.checkFields, Draft.State.checkFields_of_build hs,
      Checked.within, mapError_ok, ok_bind, toDraftStates]

end

end State

/-- The draft of the document of a machine that was built is the draft of the machine. -/
theorem Machine.draft_toDocument {m : Machine} (h : m.toDraft.build = .ok m) :
    m.toDocument.draft = .ok m.toDraft := by
  have hs := Draft.Machine.build_toDraft_states h
  simp only [Document.Machine.draft, toDocument, State.draft_stateDocuments hs, ok_bind, toDraft]

end Workflow
