import Workflow.Proofs.Merged

/-!
# Reading before and after repeated keys are merged

A reader that accepts a written value accepts what is left of it when repeated keys are merged, and
reads the same. Objects with fields repeat no key when they are read, payloads and rules are merged
in the same manner, and of a state that is defined twice the last definition counts either way.

Two readers are compared and not one with itself: the readers of states have bounds, and what is
left may be lower than what is written.

## Main definitions

* `Reader.Carries`, `Field.Carries`, `Shape.Carries`: what is read before merging is read after it

## Main results

* `Shape.Carries.carries_read`: a shape carries when its fields do
* `carries_scopeStates`: states that are defined twice
* `taskShape_carries`, …, `machineShape_carries`: the shapes of machines and their parts
-/

namespace Workflow

namespace Document

open Written (Merged)
open Json (Matched)

variable {α δ σ : Type} {levels : ℕ}

/-- What one reader reads from a written value, another one reads from what is left of it. -/
def Reader.Carries (levels : ℕ) (read read' : Written → Reading α) : Prop :=
  ∀ w w' a, Merged levels w w' → read w = .ok a → read' w' = .ok a

/-! ### Values of fields -/

/-- A reader that refuses arrays and objects reads what is left as it reads what is written, since
nothing of any other value is lost. -/
theorem carries_of_simple {read : Written → Reading α}
    (ha : ∀ items fault a, read (.array items fault) ≠ .ok a)
    (ho : ∀ members fault a, read (.object members fault) ≠ .ok a) :
    Reader.Carries levels read read := by
  rintro w w' a ⟨value, hv, rfl, -⟩ h
  cases w with
  | null | bool _ | number _ | string _ =>
    cases hv
    exact h
  | broken fault => cases hv
  | array items fault => exact absurd h (ha items fault a)
  | object members fault => exact absurd h (ho members fault a)

@[simp]
theorem carries_text : Reader.Carries levels text text :=
  carries_of_simple nofun nofun

@[simp]
theorem carries_flag : Reader.Carries levels flag flag :=
  carries_of_simple nofun nofun

@[simp]
theorem carries_natural32 : Reader.Carries levels natural32 natural32 :=
  carries_of_simple nofun nofun

@[simp]
theorem carries_natural64 : Reader.Carries levels natural64 natural64 :=
  carries_of_simple nofun nofun

@[simp]
theorem carries_double : Reader.Carries levels double double :=
  carries_of_simple nofun nofun

@[simp]
theorem carries_selector : Reader.Carries levels selector selector :=
  carries_of_simple nofun nofun

theorem anything_eq_ok {w : Written} {value : Json} :
    anything w = .ok value ↔ w.toJson = .ok value := by
  unfold anything
  split
  · next hv => rw [hv, Except.ok.injEq]; exact ⟨congrArg _, Except.ok.inj⟩
  · next hv => rw [hv]; exact iff_of_false nofun nofun

@[simp]
theorem carries_anything : Reader.Carries levels anything anything := by
  rintro w w' a ⟨value, hv, rfl, -⟩ h
  obtain rfl : value = a := Except.ok.inj (hv.symm.trans (anything_eq_ok.mp h))
  exact anything_written (Written.distinct_of_toJson hv)

/-- An object whose members are not looked at is the value that it says. -/
theorem toJson_of_rule {w : Written} {members : Members} (h : rule w = .ok members) :
    w.toJson = .ok (.object members) := by
  cases w with
  | object written fault =>
    unfold rule at h
    dsimp only at h
    split at h
    · cases h
    · cases h
    · next values hv =>
      cases h
      simp only [Written.toJson, hv, ok_bind]
  | _ => cases h

@[simp]
theorem carries_rule : Reader.Carries levels rule rule := by
  rintro w w' a ⟨value, hv, rfl, -⟩ h
  obtain rfl : value = .object a := Except.ok.inj (hv.symm.trans (toJson_of_rule h))
  exact rule_written (Written.distinct_of_toJson hv)

/-- Items are read one by one, so lists carry when their items do. -/
@[simp]
theorem carries_list {read read' : Written → Reading α} (hr : Reader.Carries levels read read') :
    Reader.Carries levels (list read) (list read') := by
  intro w w' as hm h
  obtain ⟨below, rfl⟩ := hm.exists_succ
  obtain ⟨items, rfl, each⟩ := list_eq_ok.mp h
  obtain ⟨-, items', rfl, left⟩ := Written.merged_array.mp hm
  rw [list_eq_ok]
  refine ⟨items', rfl, ?_⟩
  clear h hm
  induction left generalizing as with
  | nil =>
    cases each
    exact .nil
  | cons hi _ ih =>
    cases each with
    | cons ha has => exact .cons (hr _ _ _ (hi.mono (Nat.le_succ below)) ha) (ih _ has)

/-! ### Fields and shapes -/

/-- A field carries when it has the same name, and what one reads the other reads too. -/
structure Field.Carries (levels : ℕ) (field field' : Field δ) : Prop where
  name_eq : field.name = field'.name
  required_eq : field.required = field'.required
  carries : ∀ w w' d x, Merged levels w w' → field.read w d = .ok x → field'.read w' d = .ok x

section

variable {read read' : Written → Reading α} (hr : Reader.Carries levels read read') (name : String)

include hr

@[simp]
theorem Field.carries_must (set : α → δ → δ) :
    Field.Carries levels (.must name read set) (.must name read' set) where
  name_eq := rfl
  required_eq := rfl
  carries := by
    intro w w' d x hm h
    obtain ⟨a, ha, hx⟩ := map_eq_ok.mp h
    exact map_eq_ok.mpr ⟨a, hr w w' a hm ha, hx⟩

@[simp]
theorem Field.carries_may (set : Option α → δ → δ) :
    Field.Carries levels (.may name read set) (.may name read' set) where
  name_eq := rfl
  required_eq := rfl
  carries := by
    intro w w' d x hm h
    obtain ⟨a, ha, hx⟩ := map_eq_ok.mp h
    exact map_eq_ok.mpr ⟨a, hr w w' a hm ha, hx⟩

omit hr in
theorem Field.maybe_read_of_ne (set : Option α → δ → δ) {w : Written} (hw : w ≠ .null) (d : δ) :
    (Field.maybe name read set).read w d = (read w).map fun a => set (some a) d := by
  unfold Field.maybe
  dsimp only
  split
  · exact absurd rfl hw
  · rfl

/-- Null is left as null, and nothing else is. -/
@[simp]
theorem Field.carries_maybe (set : Option α → δ → δ) :
    Field.Carries levels (.maybe name read set) (.maybe name read' set) where
  name_eq := rfl
  required_eq := rfl
  carries := by
    intro w w' d x hm h
    by_cases hw : w = .null
    · subst hw
      obtain ⟨value, hv, rfl, -⟩ := hm
      cases hv
      exact h
    · have hw' : w' ≠ .null := by
        rintro rfl
        exact hw hm.eq_null
      rw [maybe_read_of_ne name set hw] at h
      obtain ⟨a, ha, hx⟩ := map_eq_ok.mp h
      rw [maybe_read_of_ne name set hw']
      exact map_eq_ok.mpr ⟨a, hr w w' a hm ha, hx⟩

@[simp]
theorem Field.carries_listed (set : List α → δ → δ) :
    Field.Carries levels (.listed name read set) (.listed name read' set) where
  name_eq := rfl
  required_eq := rfl
  carries := by
    intro w w' d x hm h
    obtain ⟨as, ha, hx⟩ := map_eq_ok.mp h
    exact map_eq_ok.mpr ⟨as, carries_list hr w w' as hm ha, hx⟩

end

/-- Shapes carry when they start from the same document and their fields carry. -/
structure Shape.Carries (levels : ℕ) (shape shape' : Shape δ) : Prop where
  blank_eq : shape.blank = shape'.blank
  fields : List.Forall₂ (Field.Carries levels) shape.fields shape'.fields

/-- Nothing may stand behind the fields of an array that is closed. -/
def Closed (excess : List Written → Option Json.Fault → Reading Unit) : Prop :=
  ∀ items, excess items none = .ok () ↔ items = []

namespace Field

variable {fields fields' : List (Field δ)} (h : List.Forall₂ (Field.Carries levels) fields fields')

include h

theorem Carries.find?_eq_some {p : Field δ → Bool} (hp : ∀ f g, f.name = g.name → p f = p g)
    {field : Field δ} (hf : fields.find? p = some field) :
    ∃ field', fields'.find? p = some field' ∧ Field.Carries levels field field' := by
  induction h with
  | nil => cases hf
  | @cons f f' _ _ hff _ ih =>
    rw [List.find?_cons] at hf ⊢
    rw [← hp f f' hff.name_eq]
    split at hf
    · cases hf
      exact ⟨f', rfl, hff⟩
    · exact ih hf

end Field

namespace Shape

variable {shape shape' : Shape δ}

theorem Carries.missing?_eq (hs : Shape.Carries levels shape shape') (seen : List String) :
    shape.missing? seen = shape'.missing? seen := by
  obtain ⟨-, fields⟩ := hs
  unfold missing?
  -- the fields have the same names and the same of them are required, so the same one is missing
  generalize shape.fields = fs, shape'.fields = fs' at fields
  induction fields with
  | nil => rfl
  | cons hf _ ih =>
    rw [List.find?_cons, List.find?_cons, hf.name_eq, hf.required_eq]
    split
    · rw [Option.map_some, Option.map_some, hf.name_eq]
    · exact ih

/-- Members are read alike when none of them is repeated. -/
theorem Carries.readMembers (hs : Shape.Carries levels shape shape')
    {members members' : List (String × Written)} (hm : Matched (Merged levels) members members')
    {seen : List String} {d x : δ} (h : shape.readMembers seen d members none = .ok x) :
    shape'.readMembers seen d members' none = .ok x := by
  -- what has been read so far is the same on both sides, since the keys are and the values carry
  induction hm generalizing seen d with
  | nil =>
    unfold Shape.readMembers at h ⊢
    rw [← hs.missing?_eq]
    exact h
  | @cons m m' ms ms' hmm _ ih =>
    obtain ⟨key, w⟩ := m
    obtain ⟨_, w'⟩ := m'
    obtain ⟨rfl, left⟩ := hmm
    unfold Shape.readMembers at h ⊢
    split at h
    · cases h
    · next field hf =>
      obtain ⟨field', hf', carry⟩ :=
        Field.Carries.find?_eq_some hs.fields (fun f g he => by rw [he]) hf
      rw [hf']
      dsimp only at h ⊢
      split at h
      · cases h
      · next unseen =>
        rw [if_neg unseen]
        obtain ⟨d', hd, hx⟩ := bind_eq_ok.mp h
        exact bind_eq_ok.mpr ⟨d', carry.carries w w' d d' left hd, ih hx⟩

/-- An object of a shape repeats no key. -/
theorem nodup_of_readMembers {seen : List String} {d x : δ} {members : List (String × Written)}
    {fault : Option Json.Fault} (h : shape.readMembers seen d members fault = .ok x) :
    (members.map Prod.fst).Nodup ∧ ∀ key ∈ members.map Prod.fst, key ∉ seen := by
  -- `seen` grows by each key, so a key is none of those behind it
  induction members generalizing seen d with
  | nil => simp
  | cons member members ih =>
    obtain ⟨key, w⟩ := member
    unfold readMembers at h
    split at h
    · cases h
    · split at h
      · cases h
      · next unseen =>
        obtain ⟨d', -, hx⟩ := bind_eq_ok.mp h
        obtain ⟨nodup, others⟩ := ih hx
        have fresh : key ∉ members.map Prod.fst := fun hk => others key hk List.mem_cons_self
        refine ⟨List.nodup_cons.mpr ⟨fresh, nodup⟩, List.forall_mem_cons.mpr ⟨?_, ?_⟩⟩
        · simpa using unseen
        · exact fun k hk hs => others k hk (List.mem_cons_of_mem key hs)

/-- Items are read alike as long as both readers want none behind the fields. -/
theorem Carries.readItems {excess excess' : List Written → Option Json.Fault → Reading Unit}
    (he : Closed excess) (he' : Closed excess') {fields fields' : List (Field δ)}
    (hf : List.Forall₂ (Field.Carries levels) fields fields') {items items' : List Written}
    (hi : List.Forall₂ (Merged levels) items items') {index : ℕ} {d x : δ}
    (h : shape.readItems excess index d fields items none = .ok x) :
    shape'.readItems excess' index d fields' items' none = .ok x := by
  induction hf generalizing items items' index d with
  | nil =>
    obtain ⟨⟨⟩, nothing, hx⟩ := bind_eq_ok.mp h
    obtain rfl := (he items).mp nothing
    cases hi
    exact bind_eq_ok.mpr ⟨(), (he' []).mpr rfl, hx⟩
  | cons hff _ ih =>
    cases hi with
    | nil =>
      -- the array has ended, so the other fields have to be optional
      unfold Shape.readItems at h ⊢
      rw [← hff.required_eq]
      split at h
      · cases h
      · next optional =>
        rw [if_neg optional]
        exact ih .nil h
    | cons hii hi =>
      obtain ⟨d', hd, hx⟩ := bind_eq_ok.mp h
      exact bind_eq_ok.mpr ⟨d', hff.carries _ _ d d' hii hd, ih hi hx⟩

/-- An object that is read has no repeated key, so what is left of it has all its members. -/
theorem Carries.ofMembers (hs : Shape.Carries levels shape shape')
    {members members' : List (String × Written)}
    (hm : Matched (Merged levels) (Json.merge members) members') {x : δ}
    (h : shape.ofMembers members none = .ok x) : shape'.ofMembers members' none = .ok x := by
  rw [Json.merge_of_nodup (nodup_of_readMembers h).1] at hm
  unfold Shape.ofMembers at h ⊢
  rw [← hs.blank_eq]
  exact hs.readMembers hm h

theorem Carries.ofItems (hs : Shape.Carries levels shape shape')
    {excess excess' : List Written → Option Json.Fault → Reading Unit} (he : Closed excess)
    (he' : Closed excess') {items items' : List Written}
    (hi : List.Forall₂ (Merged levels) items items') {x : δ}
    (h : shape.ofItems excess items none = .ok x) : shape'.ofItems excess' items' none = .ok x := by
  unfold Shape.ofItems at h ⊢
  rw [← hs.blank_eq]
  exact Carries.readItems he he' hs.fields hi h

theorem closed_noExcess (shape : Shape δ) : Closed shape.noExcess := by
  intro items
  cases items with
  | nil => exact iff_of_true rfl rfl
  | cons item items => exact iff_of_false nofun nofun

/-- **A document of a shape is read from what is left as it is read from what is written.** -/
theorem Carries.carries_read (hs : Shape.Carries levels shape shape') :
    Reader.Carries levels shape.read shape'.read := by
  intro w w' x hm h
  obtain ⟨below, rfl⟩ := hm.exists_succ
  have lift (v v' : Written) (hv : Merged below v v') : Merged (below + 1) v v' :=
    hv.mono (Nat.le_succ below)
  cases w with
  | object members fault =>
    obtain ⟨rfl, members', rfl, left⟩ := hm.object
    exact hs.ofMembers (left.imp lift) h
  | array items fault =>
    obtain ⟨rfl, items', rfl, left⟩ := Written.merged_array.mp hm
    exact hs.ofItems shape.closed_noExcess shape'.closed_noExcess (left.imp lift) h
  | _ => cases h

end Shape

/-! ### The shapes of machines and their parts -/

theorem stateMembers_eq_ok {read : Written → Reading σ} {states x : List (String × σ)}
    {members : List (String × Written)} :
    stateMembers read states members none = .ok x ↔
      ∃ ss, Matched (fun w s => read w = .ok s) members ss ∧
        x = ss.foldl (fun o m => Json.insert m.1 m.2 o) states := by
  unfold Matched
  induction members generalizing states with
  | nil => simp [stateMembers, List.forall₂_nil_left_iff, eq_comm]
  | cons member members ih =>
    obtain ⟨name, w⟩ := member
    rw [stateMembers]
    cases hr : read w with
    | error problem =>
      constructor
      · intro h
        cases h
      · rintro ⟨ss, hss, -⟩
        obtain ⟨_, _, ⟨-, hs⟩, -, -⟩ := List.forall₂_cons_left_iff.mp hss
        cases hr.symm.trans hs
    | ok state =>
      simp only [ih, List.forall₂_cons_left_iff]
      constructor
      · rintro ⟨ss, hss, rfl⟩
        exact ⟨(name, state) :: ss, ⟨(name, state), ss, ⟨rfl, hr⟩, hss, rfl⟩, rfl⟩
      · rintro ⟨_, ⟨⟨_, s⟩, ss, ⟨rfl, hs⟩, hss, rfl⟩, rfl⟩
        obtain rfl : state = s := Except.ok.inj (hr.symm.trans hs)
        exact ⟨ss, hss, rfl⟩

/-- Of a state that is defined twice, the first place and the last definition count, whether the
states are merged when they have been read or the members before. -/
theorem carries_scopeStates {read read' : Written → Reading σ}
    (hr : Reader.Carries levels read read') :
    Reader.Carries levels (scopeStates read) (scopeStates read') := by
  intro w w' x hm h
  obtain ⟨below, rfl⟩ := hm.exists_succ
  cases w with
  | object members fault =>
    obtain ⟨rfl, members', rfl, left⟩ := hm.object
    obtain ⟨ss, hss, rfl⟩ := stateMembers_eq_ok.mp h
    refine stateMembers_eq_ok.mpr ⟨Json.merge ss, ?_, ?_⟩
    · -- the states that were read keep their members company when repeated names are merged
      refine left.join hss.merge fun v v' s hv hs => ?_
      exact hr v v' s (hv.mono (Nat.le_succ below)) hs
    · exact (Json.merge_of_nodup (Json.nodup_merge ss)).symm
  | _ => cases h

section

variable (levels)

theorem retrierShape_carries : Shape.Carries levels retrierShape retrierShape where
  blank_eq := rfl
  fields := by simp [retrierShape]

theorem catcherShape_carries : Shape.Carries levels catcherShape catcherShape where
  blank_eq := rfl
  fields := by simp [catcherShape, exitFields]

theorem taskShape_carries : Shape.Carries levels taskShape taskShape where
  blank_eq := rfl
  fields := by
    have retriers := (retrierShape_carries levels).carries_read
    have catchers := (catcherShape_carries levels).carries_read
    simp [taskShape, commonFields, exitFields, retriers, catchers]

theorem passShape_carries : Shape.Carries levels passShape passShape where
  blank_eq := rfl
  fields := by simp [passShape, commonFields, exitFields]

theorem waitShape_carries : Shape.Carries levels waitShape waitShape where
  blank_eq := rfl
  fields := by simp [waitShape, commonFields, exitFields]

theorem choiceShape_carries : Shape.Carries levels choiceShape choiceShape where
  blank_eq := rfl
  fields := by simp [choiceShape, commonFields]

theorem succeedShape_carries : Shape.Carries levels succeedShape succeedShape where
  blank_eq := rfl
  fields := by simp [succeedShape, commonFields]

theorem failShape_carries : Shape.Carries levels failShape failShape where
  blank_eq := rfl
  fields := by simp [failShape]

end

theorem branchShape_carries {read read' : Written → Reading σ}
    (hr : Reader.Carries levels read read') :
    Shape.Carries levels (branchShape read) (branchShape read') where
  blank_eq := rfl
  fields := by
    have states := carries_scopeStates hr
    simp [branchShape, states]

theorem parallelShape_carries {read read' : Written → Reading σ}
    (hr : Reader.Carries levels read read') :
    Shape.Carries levels (parallelShape read) (parallelShape read') where
  blank_eq := rfl
  fields := by
    have branches := (branchShape_carries hr).carries_read
    have retriers := (retrierShape_carries levels).carries_read
    have catchers := (catcherShape_carries levels).carries_read
    simp [parallelShape, commonFields, exitFields, branches, retriers, catchers]

theorem machineShape_carries {read read' : Written → Reading State}
    (hr : Reader.Carries levels read read') :
    Shape.Carries levels (machineShape read) (machineShape read') where
  blank_eq := rfl
  fields := by
    have states := carries_scopeStates hr
    simp [machineShape, states]

end Document

end Workflow
