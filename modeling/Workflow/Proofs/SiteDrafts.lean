import Workflow.Proofs.Sites

/-!
# What is accepted at a site

When a draft is made of what a text says, a draft is made of what is read at every site of its
value: of every state, however deep, and of its catchers and rules. Keys have been merged in a
value, so no state in it is hidden behind another one of its name.

## Main definitions

* `Content.Drafted`: a draft is made of what was read
* `Site.Drafted`: no key is repeated at a site, and a draft is made of what is read there

## Main results

* `Content.Holds.drafted`: drafts are made of the parts of what a draft is made of
* `Site.Has.drafted`: the same of sites
* `Site.exists_drafted_of_ofText`: the value of a text that is accepted is such a site
-/

namespace Workflow

namespace Json

mutual

/-- A value that repeats no key is written without repeating one. -/
theorem distinct_written {value : Json} (h : value.Distinct) : value.written.Distinct := by
  match value with
  | null | bool _ | number _ | string _ => trivial
  | array items => exact distinct_writtenItems h
  | object members =>
    refine ⟨?_, distinct_writtenMembers h.2⟩
    rw [map_fst_writtenMembers]
    exact h.1

theorem distinct_writtenItems {items : List Json} (h : DistinctItems items) :
    Written.DistinctItems (writtenItems items) := by
  match items with
  | [] => trivial
  | item :: items => exact ⟨distinct_written h.1, distinct_writtenItems h.2⟩

theorem distinct_writtenMembers {members : Members} (h : DistinctMembers members) :
    Written.DistinctMembers (writtenMembers members) := by
  match members with
  | [] => trivial
  | (key, value) :: members => exact ⟨distinct_written h.1, distinct_writtenMembers h.2⟩

end

end Json

namespace Document

variable {α β : Type}

/-! ### Drafts are made of all parts -/

/-- A draft is made of every item of a list. -/
theorem exists_draft_of_mem {draft : ℕ → α → Drafted β} {index : ℕ} {as : List α} {bs : List β}
    (h : draftEach draft index as = .ok bs) {a : α} (ha : a ∈ as) :
    ∃ i b, draft i a = .ok b := by
  induction as generalizing index bs with
  | nil => cases ha
  | cons first as ih =>
    simp only [draftEach, bind_eq_ok, Except.ok.injEq] at h
    obtain ⟨b, hb, bs, hbs, rfl⟩ := h
    rcases List.mem_cons.mp ha with rfl | ha
    · exact ⟨index, b, hb⟩
    · exact ih hbs ha

namespace State

theorem exists_draft_of_mem_states {states : Document.States} {ds : Draft.States}
    (h : draftStates states = .ok ds) {name : String} {s : State} (hs : (name, s) ∈ states) :
    ∃ d, s.draft = .ok d := by
  induction states generalizing ds with
  | nil => cases hs
  | cons first states ih =>
    obtain ⟨n, t⟩ := first
    simp only [draftStates, bind_eq_ok, mapError_eq_ok, exists_unit, Except.ok.injEq] at h
    obtain ⟨d, hd, -, ds, hds, rfl⟩ := h
    rcases List.mem_cons.mp hs with he | hs
    · cases he
      exact ⟨d, hd⟩
    · exact ih hds hs

theorem exists_drafts_of_mem_branches {index : ℕ} {branches : List (Branch State)}
    {ds : List (Draft.Branch Draft.State)} (h : draftBranches index branches = .ok ds)
    {b : Branch State} (hb : b ∈ branches) : ∃ drafts, draftStates b.states = .ok drafts := by
  induction branches generalizing index ds with
  | nil => cases hb
  | cons first branches ih =>
    obtain ⟨comment, startAt, states⟩ := first
    simp only [draftBranches, bind_eq_ok, mapError_eq_ok, Except.ok.injEq] at h
    obtain ⟨drafts, hd, ds, hds, rfl⟩ := h
    rcases List.mem_cons.mp hb with rfl | hb
    · exact ⟨drafts, hd⟩
    · exact ih hds hb

/-- Drafts are made of the parts of a state, and it says at most one way for control to go and at
most one delay. -/
structure PartsDrafted (s : State) : Prop where
  branches : ∃ ds, draftBranches 0 s.branches = .ok ds
  catchers : ∃ cs, draftCatchers s.catchers = .ok cs
  rules : ∃ rs, draftEach draftRule 0 s.rules = .ok rs
  exit : ∃ t, s.exit.draft = .ok t
  delay : ∃ delay, s.waiting.delay = .ok delay

/-- A part that states of a kind do not have is empty, and nothing is wrong with it. -/
theorem partsDrafted {s : State} {d : Draft.State} (h : s.draft = .ok d) : s.PartsDrafted := by
  have none_caught : ∃ cs, draftCatchers [] = .ok cs := ⟨[], rfl⟩
  have no_rules : ∃ rs, draftEach draftRule 0 [] = .ok rs := ⟨[], rfl⟩
  have no_delay : ∃ delay, ({} : Wait).delay = .ok delay := ⟨none, rfl⟩
  cases s with
  | task t =>
    obtain ⟨dt, hd, -⟩ := map_eq_ok.mp h
    simp only [Task.draft, bind_eq_ok] at hd
    obtain ⟨cs, hcs, transition, ht, -⟩ := hd
    exact ⟨⟨[], rfl⟩, ⟨cs, hcs⟩, no_rules, ⟨transition, ht⟩, no_delay⟩
  | pass p =>
    obtain ⟨dp, hd, -⟩ := map_eq_ok.mp h
    simp only [Pass.draft, bind_eq_ok] at hd
    obtain ⟨transition, ht, -⟩ := hd
    exact ⟨⟨[], rfl⟩, none_caught, no_rules, ⟨transition, ht⟩, no_delay⟩
  | wait w =>
    obtain ⟨dw, hd, -⟩ := map_eq_ok.mp h
    simp only [Wait.draft, bind_eq_ok] at hd
    obtain ⟨delay, hw, transition, ht, -⟩ := hd
    exact ⟨⟨[], rfl⟩, none_caught, no_rules, ⟨transition, ht⟩, ⟨delay, hw⟩⟩
  | choice c =>
    obtain ⟨dc, hd, -⟩ := map_eq_ok.mp h
    simp only [Choice.draft, bind_eq_ok] at hd
    obtain ⟨rules, hr, -⟩ := hd
    exact ⟨⟨[], rfl⟩, none_caught, ⟨rules, hr⟩, ⟨none, rfl⟩, no_delay⟩
  | succeed common => exact ⟨⟨[], rfl⟩, none_caught, no_rules, ⟨none, rfl⟩, no_delay⟩
  | fail f => exact ⟨⟨[], rfl⟩, none_caught, no_rules, ⟨none, rfl⟩, no_delay⟩
  | parallel p =>
    obtain ⟨common, branches, path, retriers, catchers, exit⟩ := p
    simp only [State.draft, bind_eq_ok] at h
    obtain ⟨ds, hds, cs, hcs, transition, ht, -⟩ := h
    exact ⟨⟨ds, hds⟩, ⟨cs, hcs⟩, no_rules, ⟨transition, ht⟩, no_delay⟩

end State

namespace Content

/-- A draft is made of what was read. A retrier is one already. -/
def Drafted : Content → Prop
  | machine m => ∃ d, m.draft = .ok d
  | state s => ∃ d, s.draft = .ok d
  | branch b => ∃ ds, State.draftStates b.states = .ok ds
  | retrier _ => True
  | catcher c => ∃ index d, c.draft index = .ok d
  | rule members => ∃ d, Draft.Rule.ofMembers members = .ok d

/-- **Drafts are made of all that is inside of what a draft is made of.** -/
theorem Holds.drafted {x y : Content} (h : x.Holds y) (hx : x.Drafted) : y.Drafted := by
  cases h with
  | machineState hs =>
    obtain ⟨d, hd⟩ := hx
    obtain ⟨ds, hds, -⟩ := bind_eq_ok.mp hd
    exact State.exists_draft_of_mem_states hds hs
  | branchState hs =>
    obtain ⟨ds, hds⟩ := hx
    exact State.exists_draft_of_mem_states hds hs
  | branch hb =>
    obtain ⟨d, hd⟩ := hx
    obtain ⟨ds, hds⟩ := (State.partsDrafted hd).branches
    exact State.exists_drafts_of_mem_branches hds hb
  | retrier hr => trivial
  | catcher hc =>
    obtain ⟨d, hd⟩ := hx
    obtain ⟨cs, hcs⟩ := (State.partsDrafted hd).catchers
    exact exists_draft_of_mem hcs hc
  | rule hr =>
    obtain ⟨d, hd⟩ := hx
    obtain ⟨rs, hrs⟩ := (State.partsDrafted hd).rules
    obtain ⟨index, rule, hrule⟩ := exists_draft_of_mem hrs hr
    exact ⟨rule, mapError_eq_ok.mp hrule⟩

end Content

/-! ### Sites of which drafts are made -/

namespace Site

/-- Nothing is wrong at a site: no key is repeated there, and a draft is made of what is read. -/
structure Drafted (site : Site) : Prop where
  sound : site.written.Sound
  distinct : site.written.Distinct
  content : ∃ x, site.Says x ∧ x.Drafted

theorem Holds.drafted {a b : Site} (h : a.Holds b) (ha : a.Drafted) : b.Drafted := by
  obtain ⟨sound, distinct, x, hx, drafted⟩ := ha
  obtain ⟨y, hy, inside⟩ := h.says sound hx
  exact ⟨h.hereditary Written.hereditary_sound sound,
    h.hereditary Written.hereditary_distinct distinct, y, hy, (inside distinct).drafted drafted⟩

theorem Has.drafted {root site : Site} (h : root.Has site) (hr : root.Drafted) : site.Drafted := by
  -- the invariant is all of `Drafted`: that no key is repeated keeps a state from being replaced
  induction h with
  | refl => exact hr
  | tail _ step ih => exact step.drafted ih

/-- A text that defines a draft says a value, of which the draft is made, too. -/
theorem exists_drafted_of_ofText {text : String} {b : Draft.Machine}
    (h : Draft.Machine.ofText text = .ok b) :
    ∃ value, Json.parse text = .ok value ∧ (ofJson value).Drafted := by
  obtain ⟨m, hm, hb⟩ := Draft.Machine.ofReading_eq_ok.mp h
  obtain ⟨value, said, read⟩ := Machine.exists_ofJson_of_ofText hm
  have distinct := Json.distinct_of_parse said
  exact ⟨value, said, ⟨value, Json.toJson_written distinct⟩, Json.distinct_written distinct,
    .machine m, .machine (closed_endOfValue _) read, b, hb⟩

end Site

end Document

end Workflow
