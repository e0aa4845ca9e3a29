import Workflow.Proofs.Nesting
import Workflow.Proofs.Sites

/-!
# The forms in which a definition may be written

Every machine, branch, state and policy of a text that is accepted is an object or an array of its
fields, and every rule is an object; nothing else is accepted in these places, at any depth. The
kind of a state is one of the seven names, or inside a branch its number.

The arrays and the numbers go beyond the grammar, in which these places have objects and names
only.

## Main definitions

* `GivesKind`: how the kind of a state may be given
* `Site.Form`: how what a site is for may be written there

## Main results

* `Draft.Machine.form_of_ofText`: the sites of a text that is accepted have their forms
* `Draft.Machine.objects_refuted`: they need not be objects, nor kinds be names
-/

namespace Workflow

namespace Document

open Json (get?)

/-- The kind of a state is given by its name, or inside a branch by its number. -/
def GivesKind (nested : Bool) (kind : StateKind) (w : Written) : Prop :=
  w = .string kind.name ∨
    nested = true ∧ ∃ n : Json.Whole, w = .number (.whole n) ∧ 0 ≤ n.val ∧
      StateKind.all[n.val.toNat]? = some kind

theorem readKind_eq_ok {nested : Bool} {w : Written} {kind : StateKind} :
    readKind nested w = .ok kind ↔ GivesKind nested kind w := by
  constructor
  · intro h
    unfold readKind at h
    split at h
    · next name =>
      split at h
      · next found hf =>
        obtain rfl := Except.ok.inj h
        have named : found.name = name := by simpa using List.find?_some hf
        exact .inl (by rw [named])
      · cases h
    · next n =>
      split at h
      · next within =>
        obtain ⟨inside, positive⟩ : nested = true ∧ 0 ≤ n.val := by simpa using within
        split at h
        · next found hf =>
          obtain rfl := Except.ok.inj h
          exact .inr ⟨inside, n, rfl, positive, hf⟩
        · cases h
      · cases h
    · cases h
  · rintro (rfl | ⟨rfl, n, rfl, positive, found⟩)
    · exact readKind_name nested kind
    · simp [readKind, positive, found]

namespace Site

/-- The text of a value has the sites of the value, also when the value repeats keys. -/
theorem ofText_compact {value : Json} (fits : value.nesting ≤ Written.maxDepth) :
    ofText value.compact = ofJson value := by
  rw [ofText, value.written_compact fits, ofJson]

/-- The form of what is written at a site: an object or an array of the fields that the site
should have, and a rule is an object. -/
def Form : Site → Prop
  | ⟨.machine, w⟩ => w.Spells (machineShape State.ofWritten).names
  | ⟨.state nested, w⟩ => ∃ kind first, get? kindKey (stateEntries nested w) = some first ∧
      GivesKind nested kind first ∧ w.Spells (kindKey :: fieldNames kind)
  | ⟨.branch, w⟩ => w.Spells branchNames
  | ⟨.retrier, w⟩ => w.Spells retrierShape.names
  | ⟨.catcher, w⟩ => w.Spells catcherShape.names
  | ⟨.rule, w⟩ => ∃ members, w = .object members none

/-- What can be read at a site has the form that the site should have. -/
theorem Says.form {site : Site} (sound : site.written.Sound) {x : Content} (h : site.Says x) :
    site.Form := by
  cases h with
  | machine closed h => exact ((Machine.ofWritten_eq_ok closed sound).mp h).1
  | state h =>
    obtain ⟨below, kind, -, readAs⟩ := State.exists_readAs h
    obtain ⟨first, found, named⟩ := readAs.kind_eq
    exact ⟨kind, first, found, readKind_eq_ok.mp named, readAs.spells⟩
  | branch h => exact ((branch_read_eq_ok sound).mp h).1
  | retrier h => exact ((Shape.read_eq_ok retrierShape_regular sound).mp h).1
  | catcher h => exact ((Shape.read_eq_ok catcherShape_regular sound).mp h).1
  | @rule w members h =>
    cases w with
    -- a rule has no fields yet, and so no order in which they could be listed
    | object written fault =>
      obtain ⟨-, rfl⟩ := Written.sound_object.mp sound
      exact ⟨written, rfl⟩
    | _ => cases h

end Site

end Document

namespace Draft.Machine

open Document (Site)

/-- **What is written in the places of an accepted text.** Every machine, branch, state and policy,
at any depth and also in a state that is defined again, is an object or an array of its fields,
every rule is an object, and every kind is one of the seven. -/
theorem form_of_ofText {text : String} {b : Machine} (h : ofText text = .ok b) {site : Site}
    (hs : (Site.ofText text).Has site) : site.Form := by
  obtain ⟨sound, x, hx⟩ := Site.says_of_ofText h
  obtain ⟨sound, y, hy⟩ := hs.says sound hx
  exact hy.form sound

/-- A branch that is written as an array, with a state whose kind is given by its number. -/
def listedBranch : Json :=
  .array [.null, .string "B", .object [
    ("B", .object [("Type", .number (.whole (.ofUInt64 4)))])]]

/-- A state whose policies are written as arrays, and its branch, too. -/
def listedState : Json :=
  .object [
    ("Type", .string "Parallel"),
    ("Branches", .array [listedBranch]),
    ("Retry", .array [.array [.array [.string "E"]]]),
    ("Catch", .array [.array [.array [.string "E"], .null, .string "A"]]),
    ("End", .bool true)]

/-- A definition that is written as an array. -/
def listed : Json :=
  .array [.null, .string "A", .null, .null, .object [("A", listedState)]]

theorem isSome_listed : (ofText listed.compact).toOption.isSome = true := by
  rw [ofText_compact (by decide)]
  decide +kernel

/-- The state inside the branch, whose kind is given by its number. -/
def numbered : Site := ⟨.state true, .object [("Type", .number (.whole (.ofUInt64 4)))] none⟩

theorem has_listed : (Site.ofText listed.compact).Has numbered := by
  rw [Site.ofText_compact (by decide)]
  -- down from the machine: its state, the branch of that, and the state in there
  have state : (Site.ofJson listed).Holds ⟨.state false, listedState.written⟩ :=
    .state (by decide) (List.mem_of_getElem? (i := 4) rfl) List.mem_cons_self
  have branch : Site.Holds ⟨.state false, listedState.written⟩ ⟨.branch, listedBranch.written⟩ :=
    .listed (by decide) (List.mem_of_getElem? (i := 1) rfl) List.mem_cons_self
  have inside : Site.Holds ⟨.branch, listedBranch.written⟩ numbered :=
    .state (by decide) (List.mem_of_getElem? (i := 2) rfl) List.mem_cons_self
  exact .head state (.head branch (.single inside))

/-- The state in the listed branch has its form, although its kind is given by a number. -/
theorem form_of_ofText_listed :
    ∃ b, ofText listed.compact = .ok b ∧ (Site.ofText listed.compact).Has numbered ∧
      numbered.Form := by
  obtain ⟨b, hb⟩ := exists_ok_of_isSome isSome_listed
  exact ⟨b, hb, has_listed, form_of_ofText hb has_listed⟩

/-- In a text that is accepted, machines, branches, states and policies need not be objects, and
the kind of a state need not be given by a name. -/
theorem objects_refuted :
    (¬∀ text b, ofText text = .ok b → ∀ site, (Site.ofText text).Has site → site.part ≠ .rule →
      ∃ members, site.written = .object members none) ∧
    ¬∀ text b, ofText text = .ok b → ∀ nested w, (Site.ofText text).Has ⟨.state nested, w⟩ →
      ∃ kind, Json.get? Document.kindKey (Document.stateEntries nested w) =
        some (.string (StateKind.name kind)) := by
  obtain ⟨b, hb⟩ := exists_ok_of_isSome isSome_listed
  constructor
  · intro all
    obtain ⟨members, he⟩ := all listed.compact b hb _ .refl (by decide)
    rw [Site.ofText_compact (by decide)] at he
    cases he
  · intro all
    obtain ⟨kind, he⟩ := all listed.compact b hb true _ has_listed
    cases he

end Draft.Machine

end Workflow
