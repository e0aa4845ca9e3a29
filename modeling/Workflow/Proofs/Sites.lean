import Mathlib.Logic.Relation
import Workflow.Proofs.ArrayForm
import Workflow.Proofs.WrittenFields

/-!
# The sites of a definition

A machine, the states and branches in it, and the policies and rules of its states each stand at a
site of the definition, however deep. What is accepted as a machine is read at every one of them,
also in a state whose name is defined again, and what is read at a site lies inside what is read
at the site around it.

## Main definitions

* `Site`: what is written in a place and what it is for
* `Site.entries`: what stands at a site, under names
* `Site.Holds`, `Site.Has`: the sites directly inside a site, and at any depth
* `Content`, `Site.Says`: what is read at a site

## Main results

* `State.ReadAs.parts`: the parts of a state are read from what stands in it
* `Site.Holds.says`: what is read at a site is read at the sites in it
-/

namespace Workflow

namespace Written

/-- A property of written values that passes on to the values inside them. -/
structure Hereditary (P : Written → Prop) : Prop where
  item {items : List Written} {fault : Option Json.Fault} (h : P (.array items fault)) :
    ∀ item ∈ items, P item
  member {members : List (String × Written)} {fault : Option Json.Fault}
    (h : P (.object members fault)) : ∀ m ∈ members, P m.2

theorem hereditary_sound : Hereditary Sound where
  item h := (sound_array.mp h).1
  member h := (sound_object.mp h).1

theorem Hereditary.entries {P : Written → Prop} (hP : Hereditary P) {names : List String}
    {w : Written} (h : P w) : ∀ e ∈ w.entries names, P e.2 := by
  intro e he
  cases w with
  | object members fault => exact hP.member h e he
  | array items fault => exact hP.item h e.2 (List.of_mem_zip he).2
  | _ => cases he

theorem distinctItems_iff {items : List Written} :
    DistinctItems items ↔ ∀ item ∈ items, item.Distinct := by
  induction items with
  | nil => simp [DistinctItems]
  | cons item items ih => simp [DistinctItems, ih]

theorem distinctMembers_iff {members : List (String × Written)} :
    DistinctMembers members ↔ ∀ m ∈ members, m.2.Distinct := by
  induction members with
  | nil => simp [DistinctMembers]
  | cons m members ih => simp [DistinctMembers, ih]

theorem hereditary_distinct : Hereditary Distinct where
  item h := distinctItems_iff.mp h
  member h := distinctMembers_iff.mp h.2

end Written

namespace Document

open Json (get?)

/-! ### Sites -/

/-- What a site of a definition is for. The states of a branch are nested, those of a machine are
not. -/
inductive Part where
  | machine
  | state (nested : Bool)
  | branch
  | retrier
  | catcher
  | rule
  deriving DecidableEq

/-- A site of a definition: what is written there, and what it is for. -/
structure Site where
  part : Part
  written : Written

namespace Site

/-- What stands at a site, under names. -/
def entries : Site → List (String × Written)
  | ⟨.machine, w⟩ => w.entries (machineShape State.ofWritten).names
  | ⟨.state nested, w⟩ => stateEntries nested w
  | ⟨.branch, w⟩ => w.entries branchNames
  | ⟨.retrier, w⟩ => w.entries retrierShape.names
  | ⟨.catcher, w⟩ => w.entries catcherShape.names
  | ⟨.rule, w⟩ => w.entries []

/-- The parts that have states, and whether these are nested. -/
def scopeParts : List (Part × Bool) := [(.machine, false), (.branch, true)]

/-- The keys of a state under which there are lists of other parts. -/
def listedParts : List (String × Part) :=
  [("Branches", .branch), ("Retry", .retrier), ("Catch", .catcher), ("Choices", .rule)]

/-- A site stands directly inside another one: a state in its scope, under any of its
definitions, and an item in a list of a state. -/
inductive Holds : Site → Site → Prop
  | state {part : Part} {nested : Bool} {w : Written} {states : List (String × Written)}
      {fault : Option Json.Fault} {name : String} {state : Written}
      (scope : (part, nested) ∈ scopeParts)
      (found : ("States", .object states fault) ∈ entries ⟨part, w⟩)
      (mem : (name, state) ∈ states) : Holds ⟨part, w⟩ ⟨.state nested, state⟩
  | listed {nested : Bool} {w : Written} {key : String} {part : Part} {items : List Written}
      {fault : Option Json.Fault} {item : Written} (list : (key, part) ∈ listedParts)
      (found : (key, .array items fault) ∈ entries ⟨.state nested, w⟩) (mem : item ∈ items) :
      Holds ⟨.state nested, w⟩ ⟨part, item⟩

/-- A site stands inside another one, at any depth. -/
def Has : Site → Site → Prop := Relation.ReflTransGen Holds

/-- The site of the machine that a text should define. -/
def ofText (text : String) : Site := ⟨.machine, (Written.ofText text).1⟩

/-- The site of the machine that a value should define. -/
def ofJson (value : Json) : Site := ⟨.machine, value.written⟩

section

variable {P : Written → Prop} (hP : Written.Hereditary P)

include hP

/-- What stands at a site inherits what holds of all that is written there. -/
theorem hereditary_entries {site : Site} (h : P site.written) : ∀ e ∈ site.entries, P e.2 := by
  obtain ⟨part, w⟩ := site
  cases part with
  | state nested =>
    intro e he
    cases w with
    | object members fault => exact hP.member h e he
    | array items fault =>
      cases items with
      | nil => cases he
      | cons first items =>
        -- without a kind the items of a state have no names
        simp only [entries, stateEntries] at he
        split at he
        · rcases List.mem_cons.mp he with rfl | he
          · exact hP.item h first List.mem_cons_self
          · exact hP.item h e.2 (List.mem_cons_of_mem first (List.of_mem_zip he).2)
        · cases he
    | _ => cases he
  | machine | branch | retrier | catcher | rule => exact hP.entries h

theorem Holds.hereditary {a b : Site} (h : a.Holds b) (ha : P a.written) : P b.written := by
  cases h with
  | state _ found mem => exact hP.member (hereditary_entries hP ha _ found) _ mem
  | listed _ found mem => exact hP.item (hereditary_entries hP ha _ found) _ mem

end

end Site

/-! ### What is read at a site -/

/-- What can be read at a site. -/
inductive Content where
  | machine (machine : Machine)
  | state (state : State)
  | branch (branch : Branch State)
  | retrier (retrier : Retrier)
  | catcher (catcher : Catcher)
  | rule (members : Members)

/-- What is read at a site, with some bound on the depth of the states inside it. -/
inductive Site.Says : Site → Content → Prop
  | machine {excess : List Written → Option Json.Fault → Reading Unit} {w : Written} {m : Machine}
      (closed : Closed excess) (h : Machine.ofWritten excess w = .ok m) :
      Says ⟨.machine, w⟩ (.machine m)
  | state {nested : Bool} {levels : ℕ} {w : Written} {s : State}
      (h : State.read nested levels w = .ok s) : Says ⟨.state nested, w⟩ (.state s)
  | branch {levels : ℕ} {w : Written} {b : Branch State}
      (h : (branchShape (State.read true levels)).read w = .ok b) : Says ⟨.branch, w⟩ (.branch b)
  | retrier {w : Written} {r : Retrier} (h : retrierShape.read w = .ok r) :
      Says ⟨.retrier, w⟩ (.retrier r)
  | catcher {w : Written} {c : Catcher} (h : catcherShape.read w = .ok c) :
      Says ⟨.catcher, w⟩ (.catcher c)
  | rule {w : Written} {members : Members} (h : Document.rule w = .ok members) :
      Says ⟨.rule, w⟩ (.rule members)

namespace State

/-- The branches of a state. -/
def branches : State → List (Branch State)
  | .parallel p => p.branches
  | _ => []

/-- How a state retries its work. -/
def retriers : State → List Retrier
  | .task t => t.retriers
  | .parallel p => p.retriers
  | _ => []

/-- What a state catches. -/
def catchers : State → List Catcher
  | .task t => t.catchers
  | .parallel p => p.catchers
  | _ => []

/-- The rules by which a state chooses. -/
def rules : State → List Members
  | .choice c => c.rules
  | _ => []

/-- Where a state says that control goes. -/
def exit : State → Exit
  | .task t => t.exit
  | .pass p => p.exit
  | .wait w => w.exit
  | .parallel p => p.exit
  | .choice _ | .succeed _ | .fail _ => {}

/-- What a state says about waiting. -/
def waiting : State → Wait
  | .wait w => w
  | _ => {}

end State

/-- Something inside what is read at a site is read at a site inside it. -/
inductive Content.Holds : Content → Content → Prop
  | machineState {m : Machine} {name : String} {s : State} (h : (name, s) ∈ m.states) :
      Holds (.machine m) (.state s)
  | branchState {b : Branch State} {name : String} {s : State} (h : (name, s) ∈ b.states) :
      Holds (.branch b) (.state s)
  | branch {s : State} {b : Branch State} (h : b ∈ s.branches) : Holds (.state s) (.branch b)
  | retrier {s : State} {r : Retrier} (h : r ∈ s.retriers) : Holds (.state s) (.retrier r)
  | catcher {s : State} {c : Catcher} (h : c ∈ s.catchers) : Holds (.state s) (.catcher c)
  | rule {s : State} {members : Members} (h : members ∈ s.rules) : Holds (.state s) (.rule members)

/-! ### The parts of a state -/

/-- The entries of a state say how long it waits. -/
structure DelaysRead (entries : List (String × Written)) (w : Wait) : Prop where
  seconds : Maybe natural64 (get? "Seconds" entries) w.seconds
  secondsPath : Maybe text (get? "SecondsPath" entries) w.secondsPath
  timestamp : Maybe text (get? "Timestamp" entries) w.timestamp
  timestampPath : Maybe text (get? "TimestampPath" entries) w.timestampPath

/-- The entries of a state say its parts, where control goes from it, and how long it waits.
Nothing is said under a key that states of its kind do not have. -/
structure State.PartsRead (read : Written → Reading State) (entries : List (String × Written))
    (s : State) : Prop where
  branches : Listed (branchShape read).read (get? "Branches" entries) s.branches
  retriers : Listed retrierShape.read (get? "Retry" entries) s.retriers
  catchers : Listed catcherShape.read (get? "Catch" entries) s.catchers
  rules : Listed rule (get? "Choices" entries) s.rules
  exit : ExitRead entries s.exit
  delays : DelaysRead entries s.waiting

section

variable {α : Type} {names : List String} {entries : List (String × Written)}

theorem Shape.KeysIn.get?_eq_none {key : String} (keys : Shape.KeysIn names entries)
    (h : key ∉ names) : get? key entries = none :=
  Json.get?_eq_none.mpr fun hm => h (keys.known key hm)

theorem Must.listed {read : Written → Reading α} {o : Option Written} {as : List α}
    (h : Must (list read) o as) : Listed read o as := by
  cases o with
  | none => exact h.elim
  | some w => exact h

theorem Shape.KeysIn.listed {read : Written → Reading α} {key : String}
    (keys : Shape.KeysIn names entries) (h : key ∉ names) :
    Listed read (get? key entries) [] := by
  rw [keys.get?_eq_none h]
  rfl

theorem Shape.KeysIn.maybe {read : Written → Reading α} {key : String}
    (keys : Shape.KeysIn names entries) (h : key ∉ names) :
    Maybe read (get? key entries) none := by
  rw [keys.get?_eq_none h]
  rfl

theorem Shape.KeysIn.exit (keys : Shape.KeysIn names entries) (hn : "Next" ∉ names)
    (he : "End" ∉ names) : ExitRead entries {} :=
  ⟨keys.maybe hn, keys.maybe he⟩

theorem Shape.KeysIn.delays (keys : Shape.KeysIn names entries)
    (h : ∀ key ∈ ["Seconds", "SecondsPath", "Timestamp", "TimestampPath"], key ∉ names) :
    DelaysRead entries {} where
  seconds := keys.maybe (h _ (by simp))
  secondsPath := keys.maybe (h _ (by simp))
  timestamp := keys.maybe (h _ (by simp))
  timestampPath := keys.maybe (h _ (by simp))

end

namespace State

variable {read : Written → Reading State} {entries : List (String × Written)} {s : State}

/-- Every kind of state has its own parts; the keys of the others are not among its fields. -/
theorem partsRead_of_ofBody {kind : StateKind}
    (h : State.ofBody read (.members entries) kind = .ok s) : PartsRead read entries s := by
  cases kind with
  | task =>
    obtain ⟨t, ht, rfl⟩ := map_eq_ok.mp h
    obtain ⟨keys, fields⟩ := ofMembers_taskShape.mp ht
    exact {
      branches := keys.listed (by decide)
      retriers := fields.retriers
      catchers := fields.catchers
      rules := keys.listed (by decide)
      exit := fields.exit
      delays := keys.delays (by decide) }
  | pass =>
    obtain ⟨p, hp, rfl⟩ := map_eq_ok.mp h
    obtain ⟨keys, fields⟩ := ofMembers_passShape.mp hp
    exact {
      branches := keys.listed (by decide)
      retriers := keys.listed (by decide)
      catchers := keys.listed (by decide)
      rules := keys.listed (by decide)
      exit := fields.exit
      delays := keys.delays (by decide) }
  | wait =>
    obtain ⟨w, hw, rfl⟩ := map_eq_ok.mp h
    obtain ⟨keys, fields⟩ := ofMembers_waitShape.mp hw
    exact {
      branches := keys.listed (by decide)
      retriers := keys.listed (by decide)
      catchers := keys.listed (by decide)
      rules := keys.listed (by decide)
      exit := fields.exit
      delays := ⟨fields.seconds, fields.secondsPath, fields.timestamp, fields.timestampPath⟩ }
  | choice =>
    obtain ⟨c, hc, rfl⟩ := map_eq_ok.mp h
    obtain ⟨keys, fields⟩ := ofMembers_choiceShape.mp hc
    exact {
      branches := keys.listed (by decide)
      retriers := keys.listed (by decide)
      catchers := keys.listed (by decide)
      rules := fields.rules.listed
      exit := keys.exit (by decide) (by decide)
      delays := keys.delays (by decide) }
  | succeed =>
    obtain ⟨c, hc, rfl⟩ := map_eq_ok.mp h
    obtain ⟨keys, -⟩ := ofMembers_succeedShape.mp hc
    exact {
      branches := keys.listed (by decide)
      retriers := keys.listed (by decide)
      catchers := keys.listed (by decide)
      rules := keys.listed (by decide)
      exit := keys.exit (by decide) (by decide)
      delays := keys.delays (by decide) }
  | fail =>
    obtain ⟨f, hf, rfl⟩ := map_eq_ok.mp h
    obtain ⟨keys, -⟩ := ofMembers_failShape.mp hf
    exact {
      branches := keys.listed (by decide)
      retriers := keys.listed (by decide)
      catchers := keys.listed (by decide)
      rules := keys.listed (by decide)
      exit := keys.exit (by decide) (by decide)
      delays := keys.delays (by decide) }
  | parallel =>
    obtain ⟨p, hp, rfl⟩ := map_eq_ok.mp h
    obtain ⟨keys, fields⟩ := ofMembers_parallelShape.mp hp
    have keys : Shape.KeysIn parallelNames entries := by rwa [← names_parallelShape read]
    exact {
      branches := fields.branches.listed
      retriers := fields.retriers
      catchers := fields.catchers
      rules := keys.listed (by decide)
      exit := fields.exit
      delays := keys.delays (by decide) }

/-- The parts of a state are read from what stands in it. -/
theorem ReadAs.parts {nested : Bool} {below : ℕ} {w : Written} {kind : StateKind}
    (h : State.ReadAs nested below w kind s) :
    PartsRead (State.read true below) (stateEntries nested w) s := by
  obtain ⟨branches, retriers, catchers, rules, ⟨next, finish⟩, delays⟩ :=
    partsRead_of_ofBody h.fields
  obtain ⟨seconds, secondsPath, timestamp, timestampPath⟩ := delays
  -- no part stands under the key of kinds, which is dropped before the fields are read
  rw [Json.get?_filter_ne (by decide)] at branches retriers catchers rules next finish
  rw [Json.get?_filter_ne (by decide)] at seconds secondsPath timestamp timestampPath
  exact ⟨branches, retriers, catchers, rules, ⟨next, finish⟩,
    ⟨seconds, secondsPath, timestamp, timestampPath⟩⟩

end State

/-! ### Reading passes on to the sites inside -/

section

variable {α σ : Type}

/-- In lists that are related item by item, an item of the first one has its item in the second. -/
theorem exists_related_of_mem {β : Type} {R : α → β → Prop} {as : List α} {bs : List β}
    (h : List.Forall₂ R as bs) {a : α} (ha : a ∈ as) : ∃ b ∈ bs, R a b := by
  induction h with
  | nil => cases ha
  | cons hab _ ih =>
    rcases List.mem_cons.mp ha with rfl | ha
    · exact ⟨_, List.mem_cons_self, hab⟩
    · obtain ⟨b, hb, hr⟩ := ih ha
      exact ⟨b, List.mem_cons_of_mem _ hb, hr⟩

/-- Every item of a list is read. -/
theorem exists_read_of_mem_list {read : Written → Reading α} {items : List Written}
    {fault : Option Json.Fault} {as : List α} (h : list read (.array items fault) = .ok as)
    {item : Written} (hm : item ∈ items) : ∃ a ∈ as, read item = .ok a := by
  obtain ⟨items', he, each⟩ := list_eq_ok.mp h
  cases he
  exact exists_related_of_mem each hm

/-- Every definition of a state is read, and it counts if no name is defined twice. -/
theorem exists_read_of_mem_states {read : Written → Reading σ} {states : List (String × Written)}
    {ss : List (String × σ)} (h : scopeStates read (.object states none) = .ok ss) {name : String}
    {w : Written} (hm : (name, w) ∈ states) :
    ∃ s, read w = .ok s ∧ ((states.map Prod.fst).Nodup → (name, s) ∈ ss) := by
  obtain ⟨ss', each, rfl⟩ := stateMembers_eq_ok.mp h
  obtain ⟨⟨_, s⟩, hs, rfl, hr⟩ := exists_related_of_mem each hm
  -- without a repeated name, no state takes the place of another one
  refine ⟨s, hr, fun once => ?_⟩
  rw [each.keys_eq] at once
  have kept : ss'.foldl (fun o m => Json.insert m.1 m.2 o) [] = ss' := Json.merge_of_nodup once
  rw [kept]
  exact hs

end

namespace Site

/-- **What is read at a site is read at the sites directly in it.** Of a name that is defined
twice the first definition is read, too, but it is not inside what is read around it. -/
theorem Holds.says {a b : Site} (h : a.Holds b) (sound : a.written.Sound) {x : Content}
    (hx : a.Says x) : ∃ y, b.Says y ∧ (a.written.Distinct → x.Holds y) := by
  cases h with
  | @state part nested w states fault name state scope found mem =>
    have closed := hereditary_entries Written.hereditary_sound sound _ found
    obtain ⟨-, rfl⟩ := Written.sound_object.mp closed
    have once (hd : w.Distinct) : (states.map Prod.fst).Nodup :=
      (@hereditary_entries _ Written.hereditary_distinct ⟨part, w⟩ hd _ found).1
    simp only [scopeParts, List.mem_cons, List.not_mem_nil, or_false, Prod.mk.injEq] at scope
    -- machines and branches both have their states under one key, which they do not repeat
    rcases scope with ⟨rfl, rfl⟩ | ⟨rfl, rfl⟩
    · cases hx with
      | machine he h =>
        obtain ⟨keys, fields⟩ :=
          ofMembers_machineShape.mp ((Machine.ofWritten_eq_ok he sound).mp h).2
        have read := fields.states
        rw [Json.get?_of_mem keys.nodup found] at read
        obtain ⟨s, hs, counts⟩ := exists_read_of_mem_states read mem
        exact ⟨.state s, .state hs, fun hd => .machineState (counts (once hd))⟩
    · cases hx with
      | branch h =>
        obtain ⟨keys, fields⟩ := ofMembers_branchShape.mp ((branch_read_eq_ok sound).mp h).2
        have read := fields.states
        rw [Json.get?_of_mem keys.nodup found] at read
        obtain ⟨s, hs, counts⟩ := exists_read_of_mem_states read mem
        exact ⟨.state s, .state hs, fun hd => .branchState (counts (once hd))⟩
  | @listed nested w key part items fault item list found mem =>
    cases hx with
    | @state _ _ _ s h =>
      obtain ⟨below, kind, rfl, readAs⟩ := State.exists_readAs h
      have at_key : get? key (stateEntries nested w) = some (.array items fault) :=
        Json.get?_of_mem readAs.nodup found
      obtain ⟨branches, retriers, catchers, rules, -, -⟩ := readAs.parts
      -- each list is read by the reader of its part, item by item
      simp only [listedParts, List.mem_cons, List.not_mem_nil, or_false, Prod.mk.injEq] at list
      rcases list with ⟨rfl, rfl⟩ | ⟨rfl, rfl⟩ | ⟨rfl, rfl⟩ | ⟨rfl, rfl⟩
      · rw [at_key] at branches
        obtain ⟨b, hb, hr⟩ := exists_read_of_mem_list branches mem
        exact ⟨.branch b, .branch hr, fun _ => .branch hb⟩
      · rw [at_key] at retriers
        obtain ⟨r, hr, hw⟩ := exists_read_of_mem_list retriers mem
        exact ⟨.retrier r, .retrier hw, fun _ => .retrier hr⟩
      · rw [at_key] at catchers
        obtain ⟨c, hc, hw⟩ := exists_read_of_mem_list catchers mem
        exact ⟨.catcher c, .catcher hw, fun _ => .catcher hc⟩
      · rw [at_key] at rules
        obtain ⟨members, hr, hw⟩ := exists_read_of_mem_list rules mem
        exact ⟨.rule members, .rule hw, fun _ => .rule hr⟩

/-- What is read at a site is read at all sites in it. -/
theorem Has.says {root site : Site} (h : root.Has site) (sound : root.written.Sound) {x : Content}
    (hx : root.Says x) : site.written.Sound ∧ ∃ y, site.Says y := by
  -- by the depth of the site; what is read around it is all that a step needs
  induction h with
  | refl => exact ⟨sound, x, hx⟩
  | tail _ step ih =>
    obtain ⟨sound, y, hy⟩ := ih
    obtain ⟨z, hz, -⟩ := step.says sound hy
    exact ⟨step.hereditary Written.hereditary_sound sound, z, hz⟩

/-- A text that defines a draft is read as a machine. -/
theorem says_of_ofText {text : String} {b : Draft.Machine} (h : Draft.Machine.ofText text = .ok b) :
    (ofText text).written.Sound ∧ ∃ x, (ofText text).Says x := by
  obtain ⟨m, hm, -⟩ := Draft.Machine.ofReading_eq_ok.mp h
  have read := (Machine.ofText_eq_ok.mp hm).1
  exact ⟨Machine.ofWritten_sound _ m read, .machine m, .machine closed_endOfArray read⟩

end Site

end Document

end Workflow
