import Workflow.Proofs.TextAndValue

/-!
# Documents written as arrays

A document is written as an object, or as an array of the values of its fields in their order, in
which the last ones may be left out. An array says nothing that an object cannot say: it is read
exactly when the object is that has its items under the names of the fields, and as the same
document. The kind of a state counts as its first field.

## Main definitions

* `Written.entries`: what stands under names, in an object or in an array
* `Written.Spells`: an object, or an array of no more items than there are names
* `stateEntries`: what stands in a state, under the key of its kind and the names of its fields

## Main results

* `Shape.read_eq_ok`, `Machine.ofWritten_eq_ok`: documents are read from their entries
* `State.exists_readAs`: so are states, whose first entry is their kind
-/

namespace Workflow

namespace Written

/-- What stands under names: the members of an object, or the items of an array, which have the
names in their order. -/
def entries (names : List String) : Written → List (String × Written)
  | object members _ => members
  | array items _ => names.zip items
  | _ => []

/-- An object, or an array in which every item has a name. -/
def Spells (names : List String) : Written → Prop
  | object _ _ => True
  | array items _ => items.length ≤ names.length
  | _ => False

end Written

namespace Document

open Json (get?)

variable {δ : Type}

namespace Shape

/-- The names of the fields of a shape. -/
abbrev names (shape : Shape δ) : List String := shape.fields.map Field.name

/-- Of what stands under names, only the names of the fields matter. -/
theorem assemble_congr {lookup lookup' : String → Option Written} {fields : List (Field δ)}
    (h : ∀ f ∈ fields, lookup f.name = lookup' f.name) (d : δ) :
    assemble lookup fields d = assemble lookup' fields d := by
  induction fields generalizing d with
  | nil => rfl
  | cons f fields ih =>
    obtain ⟨first, rest⟩ := List.forall_mem_cons.mp h
    simp only [assemble, first, ih rest]

variable {excess : List Written → Option Json.Fault → Reading Unit} {shape : Shape δ}

/-- Items are read one by one into the fields, so each is found under the name of its field. -/
theorem readItems_eq_ok (he : Closed excess) {fields : List (Field δ)}
    (hn : (fields.map Field.name).Nodup) {index : ℕ} {d x : δ} {items : List Written} :
    shape.readItems excess index d fields items none = .ok x ↔
      items.length ≤ fields.length ∧
        assemble (fun name => get? name ((fields.map Field.name).zip items)) fields d = .ok x := by
  induction fields generalizing index d items with
  | nil =>
    have closed : excess items none = .ok () ↔ items.length ≤ 0 := by
      rw [he items, Nat.le_zero, List.length_eq_zero_iff]
    simp [readItems, assemble, closed]
  | cons field fields ih =>
    obtain ⟨fresh, hn⟩ := List.nodup_cons.mp hn
    cases items with
    | nil =>
      -- the array has ended, so nothing stands under any of the names
      have rest : shape.readItems excess (index + 1) d fields [] none = .ok x ↔
          assemble (fun _ => none) fields d = .ok x := by
        simpa [get?] using @ih hn (index + 1) d []
      cases hr : field.required <;> simp [readItems, assemble, hr, rest]
    | cons item items =>
      -- the name of the first item is not among the names of the other fields
      have others (d : δ) :
          assemble (fun name => get? name ((field.name, item) :: (fields.map Field.name).zip items))
            fields d = assemble (fun name => get? name ((fields.map Field.name).zip items))
            fields d := by
        apply assemble_congr
        intro f hf
        have hne : field.name ≠ f.name := fun same => fresh (same ▸ List.mem_map_of_mem hf)
        rw [get?, if_neg hne]
      have first :
          get? field.name ((field.name, item) :: (fields.map Field.name).zip items) = some item :=
        if_pos rfl
      simp only [readItems, List.map_cons, List.zip_cons_cons, assemble, first, others, bind_eq_ok,
        ih hn, List.length_cons, Nat.add_le_add_iff_right]
      constructor
      · rintro ⟨d', hd, fits, hx⟩
        exact ⟨fits, d', hd, hx⟩
      · rintro ⟨fits, d', hd, hx⟩
        exact ⟨d', hd, fits, hx⟩

/-- The items of an array have the first names, whether or not there are items for all. -/
theorem sublist_names_zip (names : List String) (items : List Written) :
    ((names.zip items).map Prod.fst).Sublist names := by
  induction names generalizing items with
  | nil => simp
  | cons name names ih =>
    cases items with
    | nil => simp
    | cons item items => exact (ih items).cons_cons name

theorem keysIn_zip {names : List String} (hn : names.Nodup) (items : List Written) :
    KeysIn names (names.zip items) where
  nodup := hn.sublist (sublist_names_zip names items)
  known _ hk := (sublist_names_zip names items).subset hk

/-- **An array is read as the object that has its items under the names of the fields.** -/
theorem ofItems_eq_ok (hs : shape.Regular) (he : Closed excess) {items : List Written} {x : δ} :
    shape.ofItems excess items none = .ok x ↔
      items.length ≤ shape.names.length ∧ shape.ofMembers (shape.names.zip items) none = .ok x := by
  rw [ofItems, readItems_eq_ok he hs.names_nodup, ofMembers_eq_ok hs, List.length_map]
  have keys := keysIn_zip hs.names_nodup items
  exact and_congr_right' (iff_and_self.mpr fun _ => keys)

/-- **A document is read from what stands under the names of its fields.** -/
theorem read_eq_ok (hs : shape.Regular) {w : Written} (hw : w.Sound) {x : δ} :
    shape.read w = .ok x ↔
      w.Spells shape.names ∧ shape.ofMembers (w.entries shape.names) none = .ok x := by
  cases w with
  | object members fault =>
    obtain ⟨-, rfl⟩ := Written.sound_object.mp hw
    exact (and_iff_right trivial).symm
  | array items fault =>
    obtain ⟨-, rfl⟩ := Written.sound_array.mp hw
    exact ofItems_eq_ok hs shape.closed_noExcess
  | _ => exact iff_of_false nofun fun h => h.1

/-- The same of the fields of a state, in which the kind does not count. -/
theorem map_ofBody_items (hs : shape.Regular) {items : List Written} {f : δ → State} {s : State}
    (h : (shape.ofBody (.items items)).map f = .ok s) :
    items.length ≤ shape.names.length ∧
      (shape.ofBody (.members (shape.names.zip items))).map f = .ok s := by
  obtain ⟨x, hx, he⟩ := map_eq_ok.mp h
  obtain ⟨fits, hx⟩ := (ofItems_eq_ok hs shape.closed_noExcess).mp hx
  exact ⟨fits, map_eq_ok.mpr ⟨x, hx, he⟩⟩

end Shape

/-- **A machine is read from what stands under the names of its fields**, in a text and in a
value. -/
theorem Machine.ofWritten_eq_ok {excess : List Written → Option Json.Fault → Reading Unit}
    (he : Closed excess) {w : Written} (hw : w.Sound) {m : Machine} :
    Machine.ofWritten excess w = .ok m ↔
      w.Spells (machineShape State.ofWritten).names ∧
        (machineShape State.ofWritten).ofMembers
          (w.entries (machineShape State.ofWritten).names) none = .ok m := by
  cases w with
  | object members fault =>
    obtain ⟨-, rfl⟩ := Written.sound_object.mp hw
    exact (and_iff_right trivial).symm
  | array items fault =>
    obtain ⟨-, rfl⟩ := Written.sound_array.mp hw
    exact Shape.ofItems_eq_ok (machineShape_regular _) he
  | _ => exact iff_of_false nofun fun h => h.1

/-- The names of the fields of a branch, whatever reads its states. -/
def branchNames : List String := ["Comment", "StartAt", "States"]

theorem names_branchShape {σ : Type} (read : Written → Reading σ) :
    (branchShape read).names = branchNames := rfl

/-- **A branch is read from what stands under the names of its fields.** -/
theorem branch_read_eq_ok {σ : Type} {read : Written → Reading σ} {w : Written} (hw : w.Sound)
    {b : Branch σ} :
    (branchShape read).read w = .ok b ↔
      w.Spells branchNames ∧ (branchShape read).ofMembers (w.entries branchNames) none = .ok b := by
  rw [Shape.read_eq_ok (branchShape_regular read) hw, names_branchShape]

/-! ### States -/

/-- The names of the fields of a state that runs branches, whatever reads the states in them. -/
def parallelNames : List String :=
  ["Comment", "InputPath", "OutputPath", "Branches", "ResultPath", "Retry", "Catch", "Next", "End"]

theorem names_parallelShape {σ : Type} (read : Written → Reading σ) :
    (parallelShape read).names = parallelNames := rfl

/-- The names of the fields of a state of a kind, besides the kind. -/
def fieldNames : StateKind → List String
  | .task => taskShape.names
  | .pass => passShape.names
  | .wait => waitShape.names
  | .choice => choiceShape.names
  | .succeed => succeedShape.names
  | .fail => failShape.names
  | .parallel => parallelNames

/-- What stands in a state. In an array the kind comes first and tells the names of the rest. -/
def stateEntries (nested : Bool) : Written → List (String × Written)
  | .object members _ => members
  | .array (first :: items) _ =>
    match readKind nested first with
    | .ok kind => (kindKey, first) :: (fieldNames kind).zip items
    | .error _ => []
  | _ => []

theorem nodup_fieldNames (kind : StateKind) : (kindKey :: fieldNames kind).Nodup := by
  cases kind <;> decide

/-- An array of the fields of a state is read as the object that has them under their names. -/
theorem State.ofBody_items {read : Written → Reading State} {kind : StateKind}
    {items : List Written} {s : State} (h : State.ofBody read (.items items) kind = .ok s) :
    items.length ≤ (fieldNames kind).length ∧
      State.ofBody read (.members ((fieldNames kind).zip items)) kind = .ok s := by
  cases kind with
  | task => exact Shape.map_ofBody_items taskShape_regular h
  | pass => exact Shape.map_ofBody_items passShape_regular h
  | wait => exact Shape.map_ofBody_items waitShape_regular h
  | choice => exact Shape.map_ofBody_items choiceShape_regular h
  | succeed => exact Shape.map_ofBody_items succeedShape_regular h
  | fail => exact Shape.map_ofBody_items failShape_regular h
  | parallel =>
    have fields := Shape.map_ofBody_items (parallelShape_regular read) h
    rw [names_parallelShape] at fields
    exact fields

/-- A state of a kind is read from what stands in it, and the states in its branches with a bound
on their depth. -/
structure State.ReadAs (nested : Bool) (below : ℕ) (w : Written) (kind : StateKind) (s : State) :
    Prop where
  kind_eq : ∃ first, get? kindKey (stateEntries nested w) = some first ∧
    readKind nested first = .ok kind
  spells : w.Spells (kindKey :: fieldNames kind)
  nodup : ((stateEntries nested w).map Prod.fst).Nodup
  fields : State.ofBody (State.read true below)
    (.members ((stateEntries nested w).filter fun e => e.1 ≠ kindKey)) kind = .ok s

/-- **A state is read from what stands in it**: its kind from what stands under the key of kinds,
and the rest from the fields of that kind. -/
theorem State.exists_readAs {nested : Bool} {levels : ℕ} {w : Written} {s : State}
    (h : State.read nested levels w = .ok s) :
    ∃ below kind, levels = below + 1 ∧ State.ReadAs nested below w kind s := by
  have sound := State.read_sound nested levels w s h
  cases levels with
  | zero => cases h
  | succ below =>
    obtain ⟨⟨kind, fields⟩, hb, hs⟩ := bind_eq_ok.mp h
    refine ⟨below, kind, rfl, ?_⟩
    cases w with
    | object members fault =>
      obtain ⟨-, rfl⟩ := Written.sound_object.mp sound
      obtain ⟨kind', hk, hb⟩ := bind_eq_ok.mp hb
      cases hb
      have once := nodup_of_kindOfMembers hk (State.nodup_of_ofBody hs)
      exact ⟨((kindOfMembers_eq_ok once).mp hk).1, trivial, once, hs⟩
    | array items fault =>
      obtain ⟨-, rfl⟩ := Written.sound_array.mp sound
      cases items with
      | nil => cases hb
      | cons first items =>
        obtain ⟨kind', named, hb⟩ := bind_eq_ok.mp hb
        obtain ⟨-, -, hb⟩ := bind_eq_ok.mp hb
        cases hb
        obtain ⟨fits, hs⟩ := State.ofBody_items hs
        have entries : stateEntries nested (.array (first :: items) none) =
            (kindKey, first) :: (fieldNames kind).zip items := by
          simp only [stateEntries, named]
        -- the kind is not the name of another field, so nothing else is dropped with it
        obtain ⟨fresh, hn⟩ := List.nodup_cons.mp (nodup_fieldNames kind)
        have keys := Shape.keysIn_zip hn items
        have apart : kindKey ∉ ((fieldNames kind).zip items).map Prod.fst :=
          fun hm => fresh (keys.known kindKey hm)
        have rest : ((kindKey, first) :: (fieldNames kind).zip items).filter
            (fun e => e.1 ≠ kindKey) = (fieldNames kind).zip items := by
          rw [List.filter_cons_of_neg (by simp), List.filter_eq_self]
          intro e he
          simpa using fun same => apart (List.mem_map.mpr ⟨e, he, same⟩)
        constructor
        · exact ⟨first, by rw [entries, get?, if_pos rfl], named⟩
        · exact Nat.succ_le_succ fits
        · rw [entries]
          exact List.nodup_cons.mpr ⟨apart, keys.nodup⟩
        · rw [entries, rest]
          exact hs
    | _ => cases hb

end Document

end Workflow
