import Workflow.Document.Read
import Workflow.Proofs.Results

/-!
# What is read has no fault

A document is examined in the order of the text, so a fault in it may be met late or be preceded
by another problem. But it is never passed over: what can be read as the document of a machine is
the text of a value.

## Main definitions

* `Written.Sound`: there is no fault in a written value
* `Reader.Sound`, `Field.Sound`: a reader, or a field, accepts sound values only

## Main results

* `Written.sound_array`, `Written.sound_object`: containers are sound when they are closed and
  their parts are sound
* `Shape.sound_of_ofMembers`, `Shape.sound_of_ofItems`: shapes with sound fields
* `State.sound_of_ofWritten`, `Machine.sound_of_ofWritten`: states and machines
-/

namespace Workflow

/-! ### Written values -/

namespace Written

/-- There is no fault in a written value, so it says a value. -/
def Sound (written : Written) : Prop := ∃ value, written.toJson = .ok value

theorem exists_toItems {items : List Written} :
    (∃ values, toItems items = .ok values) ↔ ∀ item ∈ items, item.Sound := by
  induction items with
  | nil => simp [toItems]
  | cons item items ih =>
    simp only [toItems, bind_eq_ok, List.forall_mem_cons, ← ih]
    constructor
    · rintro ⟨_, value, hv, values, hvs, -⟩
      exact ⟨⟨value, hv⟩, values, hvs⟩
    · rintro ⟨⟨value, hv⟩, values, hvs⟩
      exact ⟨_, value, hv, values, hvs, rfl⟩

theorem exists_toMembers {members : List (String × Written)} :
    (∃ values, toMembers members = .ok values) ↔ ∀ member ∈ members, member.2.Sound := by
  induction members with
  | nil => simp [toMembers]
  | cons member members ih =>
    obtain ⟨key, value⟩ := member
    simp only [toMembers, bind_eq_ok, List.forall_mem_cons, ← ih]
    constructor
    · rintro ⟨_, value, hv, values, hvs, -⟩
      exact ⟨⟨value, hv⟩, values, hvs⟩
    · rintro ⟨⟨value, hv⟩, values, hvs⟩
      exact ⟨_, value, hv, values, hvs, rfl⟩

@[simp]
theorem sound_null : null.Sound := ⟨_, rfl⟩

@[simp]
theorem sound_bool (value : Bool) : (bool value).Sound := ⟨_, rfl⟩

@[simp]
theorem sound_number (value : Json.Number) : (number value).Sound := ⟨_, rfl⟩

@[simp]
theorem sound_string (value : String) : (string value).Sound := ⟨_, rfl⟩

theorem sound_array {items : List Written} {fault : Option Json.Fault} :
    (array items fault).Sound ↔ (∀ item ∈ items, item.Sound) ∧ fault = none := by
  rw [← exists_toItems]
  cases fault with
  | none =>
    constructor
    · rintro ⟨_, h⟩
      obtain ⟨values, hv, -⟩ := bind_eq_ok.mp h
      exact ⟨⟨values, hv⟩, rfl⟩
    · rintro ⟨⟨values, hv⟩, -⟩
      exact ⟨_, bind_eq_ok.mpr ⟨values, hv, rfl⟩⟩
  | some fault => simp [Sound, toJson]

theorem sound_object {members : List (String × Written)} {fault : Option Json.Fault} :
    (object members fault).Sound ↔ (∀ member ∈ members, member.2.Sound) ∧ fault = none := by
  rw [← exists_toMembers]
  cases fault with
  | none =>
    constructor
    · rintro ⟨_, h⟩
      obtain ⟨values, hv, -⟩ := bind_eq_ok.mp h
      exact ⟨⟨values, hv⟩, rfl⟩
    · rintro ⟨⟨values, hv⟩, -⟩
      exact ⟨_, bind_eq_ok.mpr ⟨values, hv, rfl⟩⟩
  | some fault => simp [Sound, toJson]

end Written

/-- A text says a value when nothing is wrong with it and nothing stands behind it. -/
theorem Json.parse_eq_ok {text : String} {value : Json} :
    parse text = .ok value ↔
      (Written.ofText text).1.toJson = .ok value ∧ (Written.ofText text).2 = none := by
  unfold parse
  generalize Written.ofText text = said
  obtain ⟨written, behind⟩ := said
  cases behind with
  | none => simp
  | some fault => simp

namespace Document

variable {α δ σ : Type}

/-! ### Readers -/

/-- A reader accepts sound values only. -/
def Reader.Sound (read : Written → Reading α) : Prop :=
  ∀ written a, read written = .ok a → written.Sound

theorem text_sound : Reader.Sound text := by
  intro written a h
  cases written <;> simp_all [text]

theorem natural32_sound : Reader.Sound natural32 := by
  intro written a h
  cases written <;> simp_all [natural32]

theorem anything_sound : Reader.Sound anything := by
  intro written a h
  unfold anything at h
  split at h
  · next value hv => exact ⟨value, hv⟩
  · cases h

theorem stateMembers_sound {read : Written → Reading σ} (hr : Reader.Sound read)
    {members : List (String × Written)} {fault : Option Json.Fault} {states x : List (String × σ)}
    (h : stateMembers read states members fault = .ok x) :
    (∀ member ∈ members, member.2.Sound) ∧ fault = none := by
  induction members generalizing states with
  | nil =>
    cases fault with
    | none => simp
    | some fault => cases h
  | cons member members ih =>
    obtain ⟨name, written⟩ := member
    unfold stateMembers at h
    split at h
    · next state hs =>
      obtain ⟨sound, closed⟩ := ih h
      exact ⟨List.forall_mem_cons.mpr ⟨hr written state hs, sound⟩, closed⟩
    · cases h

theorem scopeStates_sound {read : Written → Reading σ} (hr : Reader.Sound read) :
    Reader.Sound (scopeStates read) := by
  intro written x h
  cases written with
  | object members fault => exact Written.sound_object.mpr (stateMembers_sound hr h)
  | _ => simp [scopeStates] at h

/-! ### Fields and shapes -/

/-- A field accepts sound values only. -/
def Field.Sound (field : Field δ) : Prop :=
  ∀ written document x, field.read written document = .ok x → written.Sound

theorem Field.must_sound {read : Written → Reading α} (hr : Reader.Sound read) (name : String)
    (set : α → δ → δ) : (Field.must name read set).Sound := by
  intro written document x h
  obtain ⟨a, ha, -⟩ := map_eq_ok.mp h
  exact hr written a ha

theorem Field.maybe_sound {read : Written → Reading α} (hr : Reader.Sound read) (name : String)
    (set : Option α → δ → δ) : (Field.maybe name read set).Sound := by
  intro written document x h
  unfold Field.maybe at h
  dsimp only at h
  split at h
  · exact Written.sound_null
  · obtain ⟨a, ha, -⟩ := map_eq_ok.mp h
    exact hr written a ha

namespace Shape

variable {shape : Shape δ}

/-- An object of a shape is read to its end. -/
theorem sound_of_readMembers (hs : ∀ field ∈ shape.fields, field.Sound) {seen : List String}
    {document x : δ} {members : List (String × Written)} {fault : Option Json.Fault}
    (h : shape.readMembers seen document members fault = .ok x) :
    (Written.object members fault).Sound := by
  rw [Written.sound_object]
  induction members generalizing seen document with
  | nil =>
    cases fault with
    | none => simp
    | some fault => cases h
  | cons member members ih =>
    obtain ⟨key, value⟩ := member
    unfold readMembers at h
    split at h
    · cases h
    · next field hf =>
      split at h
      · cases h
      · obtain ⟨document', hd, hm⟩ := bind_eq_ok.mp h
        obtain ⟨sound, closed⟩ := ih hm
        have first := hs field (List.mem_of_find?_eq_some hf) value document document' hd
        exact ⟨List.forall_mem_cons.mpr ⟨first, sound⟩, closed⟩

/-- An array of a shape is read to its end when nothing may stand behind the fields. -/
theorem sound_of_readItems {excess : List Written → Option Json.Fault → Reading Unit}
    (he : ∀ items fault, excess items fault = .ok () → items = [] ∧ fault = none) {index : Nat}
    {fields : List (Field δ)} (hs : ∀ field ∈ fields, field.Sound) {document x : δ}
    {items : List Written} {fault : Option Json.Fault}
    (h : shape.readItems excess index document fields items fault = .ok x) :
    (Written.array items fault).Sound := by
  rw [Written.sound_array]
  induction fields generalizing index document items with
  | nil =>
    obtain ⟨⟨⟩, hx, -⟩ := bind_eq_ok.mp h
    obtain ⟨rfl, rfl⟩ := he items fault hx
    simp
  | cons field fields ih =>
    obtain ⟨hf, hfs⟩ := List.forall_mem_cons.mp hs
    cases items with
    | nil =>
      cases fault with
      | none => simp
      | some fault => cases h
    | cons item items =>
      obtain ⟨document', hd, hi⟩ := bind_eq_ok.mp h
      obtain ⟨sound, closed⟩ := ih hfs hi
      exact ⟨List.forall_mem_cons.mpr ⟨hf item document document' hd, sound⟩, closed⟩

end Shape

/-! ### States -/

theorem readKind_sound (nested : Bool) : Reader.Sound (readKind nested) := by
  intro written kind h
  cases written with
  | string name => exact Written.sound_string name
  | number n => exact Written.sound_number n
  | _ => simp [readKind] at h

theorem pass_sound : Reader.Sound pass := by
  intro written _ h
  obtain ⟨value, hv, -⟩ := map_eq_ok.mp h
  exact anything_sound written value hv

/-- All members of a state are looked at when its kind is read. -/
theorem sound_of_kindOfMembers {nested : Bool} {seen : Option StateKind} {kind : StateKind}
    {members : List (String × Written)} {fault : Option Json.Fault}
    (h : kindOfMembers nested seen members fault = .ok kind) :
    (Written.object members fault).Sound := by
  rw [Written.sound_object]
  induction members generalizing seen with
  | nil =>
    cases fault with
    | none => simp
    | some fault => cases h
  | cons member members ih =>
    obtain ⟨key, value⟩ := member
    unfold kindOfMembers at h
    split at h
    · split at h
      · cases h
      · obtain ⟨kind', hk, hm⟩ := bind_eq_ok.mp h
        obtain ⟨sound, closed⟩ := ih hm
        exact ⟨List.forall_mem_cons.mpr ⟨readKind_sound nested value kind' hk, sound⟩, closed⟩
    · obtain ⟨passed, hp, hm⟩ := bind_eq_ok.mp h
      obtain ⟨sound, closed⟩ := ih hm
      exact ⟨List.forall_mem_cons.mpr ⟨pass_sound value passed hp, sound⟩, closed⟩

/-- A state is read to its end before its fields are. -/
theorem body_sound (nested : Bool) : Reader.Sound (body nested) := by
  intro written x h
  cases written with
  | object members fault =>
    obtain ⟨kind, hk, -⟩ := bind_eq_ok.mp h
    exact sound_of_kindOfMembers hk
  | array items fault =>
    cases items with
    | nil => cases fault <;> cases h
    | cons first items =>
      obtain ⟨kind, hk, h⟩ := bind_eq_ok.mp h
      obtain ⟨passed, hp, -⟩ := bind_eq_ok.mp h
      obtain ⟨sound, closed⟩ := Written.sound_array.mp (pass_sound _ passed hp)
      exact Written.sound_array.mpr
        ⟨List.forall_mem_cons.mpr ⟨readKind_sound nested first kind hk, sound⟩, closed⟩
  | _ => simp [body] at h

theorem State.read_sound (nested : Bool) (levels : Nat) :
    Reader.Sound (State.read nested levels) := by
  intro written x h
  cases levels with
  | zero => cases h
  | succ levels =>
    obtain ⟨kind, hb, -⟩ := bind_eq_ok.mp h
    exact body_sound nested written kind hb

theorem State.ofWritten_sound : Reader.Sound State.ofWritten :=
  fun written => State.read_sound false written.height written

/-! ### Machines -/

theorem machineShape_sound {read : Written → Reading State} (hr : Reader.Sound read) :
    ∀ field ∈ (machineShape read).fields, field.Sound := by
  simp only [machineShape, List.forall_mem_cons]
  exact ⟨Field.maybe_sound text_sound _ _, Field.must_sound text_sound _ _,
    Field.maybe_sound natural32_sound _ _, Field.maybe_sound text_sound _ _,
    Field.must_sound (scopeStates_sound hr) _ _, by simp⟩

theorem endOfArray_eq_ok {items : List Written} {fault : Option Json.Fault}
    (h : endOfArray items fault = .ok ()) : items = [] ∧ fault = none := by
  unfold endOfArray at h
  split at h
  · exact ⟨rfl, rfl⟩
  all_goals cases h

/-- **What is read as a machine has no fault in it.** -/
theorem Machine.ofWritten_sound : Reader.Sound (Machine.ofWritten endOfArray) := by
  intro written x h
  have fields := machineShape_sound State.ofWritten_sound
  cases written with
  | object members fault => exact Shape.sound_of_readMembers fields h
  | array items fault => exact Shape.sound_of_readItems (fun _ _ => endOfArray_eq_ok) fields h
  | _ => simp [Machine.ofWritten] at h

theorem Machine.ofText_eq_ok {text : String} {machine : Machine} :
    Machine.ofText text = .ok machine ↔
      Machine.ofWritten endOfArray (Written.ofText text).1 = .ok machine ∧
        (Written.ofText text).2 = none := by
  unfold Machine.ofText
  generalize Written.ofText text = said
  obtain ⟨written, behind⟩ := said
  cases behind with
  | none => simp
  | some fault => simp

/-- A text that says a machine says a value. -/
theorem Machine.exists_parse_of_ofText {text : String} {machine : Machine}
    (h : Machine.ofText text = .ok machine) : ∃ value, Json.parse text = .ok value := by
  obtain ⟨read, finished⟩ := Machine.ofText_eq_ok.mp h
  obtain ⟨value, hv⟩ := Machine.ofWritten_sound _ machine read
  exact ⟨value, Json.parse_eq_ok.mpr ⟨hv, finished⟩⟩

end Document

end Workflow
