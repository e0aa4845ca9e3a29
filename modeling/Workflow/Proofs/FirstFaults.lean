import Workflow.Proofs.Failures

/-!
# The first fault

Whatever is built part by part stops at the first part that cannot be built, and says where that
part is. These lemmas tell which defect stops a list of parts, and how its field reads.

## Main definitions

* `FirstIn`: an item of a list is the first one with a property
* `Location.lead`: the text of the way to a value, in front of a field of it
* `Defect.behind`: a defect as seen from the far end of a way
* `Checked.FirstFault`: the first item of a list that fails, and its defect

## Main results

* `FirstIn.unique`: there is one first item
* `Defect.field_within`, `Defect.field_behind`: how the field of a defect reads from further out
* `Checked.inTurn_eq_error`: items that are treated in turn stop at the first one that fails
-/

namespace Workflow

variable {α β : Type}

/-! ### First items -/

/-- An item is the first one of a list with a property: the items before it do not have it. -/
structure FirstIn (P : α → Prop) (items before : List α) (a : α) : Prop where
  split : ∃ after, items = before ++ a :: after
  holds : P a
  earlier : ∀ b ∈ before, ¬P b

namespace FirstIn

variable {P : α → Prop} {items before : List α} {a : α}

theorem head (h : P a) : FirstIn P (a :: items) [] a :=
  ⟨⟨items, rfl⟩, h, by simp⟩

theorem cons {b : α} (hb : ¬P b) (h : FirstIn P items before a) :
    FirstIn P (b :: items) (b :: before) a := by
  obtain ⟨⟨after, rfl⟩, ha, he⟩ := h
  exact ⟨⟨after, rfl⟩, ha, List.forall_mem_cons.mpr ⟨hb, he⟩⟩

/-- The first item is the head of the list, or the first one behind a head without the property. -/
theorem cons_iff {b : α} :
    FirstIn P (b :: items) before a ↔
      before = [] ∧ b = a ∧ P a ∨
        ¬P b ∧ ∃ rest, before = b :: rest ∧ FirstIn P items rest a := by
  constructor
  · rintro ⟨⟨after, split⟩, ha, he⟩
    cases before with
    | nil =>
      obtain ⟨rfl, -⟩ := List.cons.inj split
      exact .inl ⟨rfl, rfl, ha⟩
    | cons c rest =>
      obtain ⟨rfl, tail⟩ := List.cons.inj split
      obtain ⟨hc, hr⟩ := List.forall_mem_cons.mp he
      exact .inr ⟨hc, rest, rfl, ⟨after, tail⟩, ha, hr⟩
  · rintro (⟨rfl, rfl, ha⟩ | ⟨hb, rest, rfl, h⟩)
    · exact head ha
    · exact h.cons hb

theorem mem (h : FirstIn P items before a) : a ∈ items := by
  obtain ⟨after, rfl⟩ := h.split
  simp

/-- There is one first item. -/
theorem unique {before' : List α} {a' : α} (h : FirstIn P items before a)
    (h' : FirstIn P items before' a') : before = before' ∧ a = a' := by
  -- the head is the first item for both or for neither
  induction items generalizing before before' with
  | nil => simpa using h.mem
  | cons b items ih =>
    rcases cons_iff.mp h with ⟨rfl, rfl, ha⟩ | ⟨hb, rest, rfl, hr⟩
    · rcases cons_iff.mp h' with ⟨rfl, rfl, -⟩ | ⟨hb, -⟩
      · exact ⟨rfl, rfl⟩
      · exact absurd ha hb
    · rcases cons_iff.mp h' with ⟨-, rfl, ha⟩ | ⟨-, rest', rfl, hr'⟩
      · exact absurd ha hb
      · obtain ⟨rfl, rfl⟩ := ih hr hr'
        exact ⟨rfl, rfl⟩

theorem append_right (h : FirstIn P items before a) (more : List α) :
    FirstIn P (items ++ more) before a := by
  obtain ⟨⟨after, rfl⟩, ha, he⟩ := h
  exact ⟨⟨after ++ more, by simp⟩, ha, he⟩

theorem append_left {others : List α} (ho : ∀ b ∈ others, ¬P b) (h : FirstIn P items before a) :
    FirstIn P (others ++ items) (others ++ before) a := by
  obtain ⟨⟨after, rfl⟩, ha, he⟩ := h
  exact ⟨⟨after, by simp⟩, ha, List.forall_mem_append.mpr ⟨ho, he⟩⟩

theorem map {Q : β → Prop} {f : α → β} (hf : ∀ b, Q (f b) ↔ P b) (h : FirstIn P items before a) :
    FirstIn Q (items.map f) (before.map f) (f a) := by
  obtain ⟨⟨after, rfl⟩, ha, he⟩ := h
  refine ⟨⟨after.map f, by simp⟩, (hf a).mpr ha, ?_⟩
  rw [List.forall_mem_map]
  exact fun b hb => mt (hf b).mp (he b hb)

end FirstIn

/-! ### Fields -/

/-- The text of a way, with a point behind every step. -/
def Location.lead (way : Location) : String :=
  String.join (way.map fun step => step.text ++ ".")

example : Location.lead [.item "And" 1, .key "Not"] = "And[1].Not." := by decide

namespace Defect

/-- A defect as seen from a value that holds, behind a way, the one it was found in. -/
def behind (way : Location) (d : Defect) : Defect :=
  { d with location := way ++ d.location }

@[simp]
theorem behind_nil (d : Defect) : d.behind [] = d := rfl

@[simp]
theorem behind_cons (step : Step) (way : Location) (d : Defect) :
    d.behind (step :: way) = (d.behind way).within step := rfl

/-- Whoever holds the value of a defect puts the step to that value in front of the field. -/
theorem field_within {d : Defect} (h : d.location ≠ []) (step : Step) :
    (d.within step).field = step.text ++ "." ++ d.field := by
  obtain ⟨location, cause⟩ := d
  obtain ⟨first, rest, rfl⟩ := List.exists_cons_of_ne_nil h
  simp [field, Location.text, String.intercalate_cons_cons, String.append_assoc]

theorem location_behind_ne_nil {d : Defect} (h : d.location ≠ []) (way : Location) :
    (d.behind way).location ≠ [] :=
  List.append_ne_nil_of_right_ne_nil _ h

/-- The field of a defect is read behind the way to it. -/
theorem field_behind {d : Defect} (h : d.location ≠ []) (way : Location) :
    (d.behind way).field = way.lead ++ d.field := by
  -- every step is put in front of what the steps behind it have made of the field
  induction way with
  | nil => simp [Location.lead, String.join]
  | cons step way ih =>
    rw [behind_cons, field_within (location_behind_ne_nil h way), ih]
    simp [Location.lead, String.join_cons, String.append_assoc]

end Defect

/-! ### Lists of parts -/

namespace Checked

/-- Nothing is made of an item. -/
def Fails (treat : α → Checked β) (a : α) : Prop := ∃ d, treat a = .error d

theorem not_fails_iff {treat : α → Checked β} {a : α} :
    ¬Fails treat a ↔ ∃ b, treat a = .ok b := by
  cases h : treat a <;> simp [Fails, h]

/-- An item is the first one of a list that fails, and fails with a defect of its own. -/
structure FirstFault (treat : α → Checked β) (items before : List α) (a : α) (own : Defect) :
    Prop where
  first : FirstIn (Fails treat) items before a
  fails : treat a = .error own

variable {treat : α → Checked β} {a : α} {as before : List α} {own : Defect}

theorem FirstFault.head (h : treat a = .error own) : FirstFault treat (a :: as) [] a own :=
  ⟨.head ⟨own, h⟩, h⟩

theorem FirstFault.cons {b : α} {c : β} (hb : treat b = .ok c)
    (h : FirstFault treat as before a own) : FirstFault treat (b :: as) (b :: before) a own :=
  ⟨h.first.cons (not_fails_iff.mpr ⟨c, hb⟩), h.fails⟩

/-- The first fault is that of the head of the list, or the first one behind a head that is fine. -/
theorem FirstFault.of_cons {b : α} (h : FirstFault treat (b :: as) before a own) :
    before = [] ∧ b = a ∨
      ∃ c rest, treat b = .ok c ∧ before = b :: rest ∧ FirstFault treat as rest a own := by
  rcases FirstIn.cons_iff.mp h.first with ⟨hn, hb, -⟩ | ⟨hb, rest, hr, first⟩
  · exact .inl ⟨hn, hb⟩
  · obtain ⟨c, hc⟩ := not_fails_iff.mp hb
    exact .inr ⟨c, rest, hc, hr, first, h.fails⟩

theorem not_firstFault_nil : ¬FirstFault treat [] before a own := fun h => by
  simpa using h.first.mem

/-- A list has a first fault, or something is made of all of its items. -/
theorem all_ok_iff : (∀ a ∈ as, ∃ b, treat a = .ok b) ↔ ¬∃ before a own,
    FirstFault treat as before a own := by
  constructor
  · rintro all ⟨before, a, own, first, fails⟩
    exact not_fails_iff.mpr (all a first.mem) ⟨own, fails⟩
  · intro none
    induction as with
    | nil => nofun
    | cons a as ih =>
      cases h : treat a with
      | error own => exact absurd ⟨[], a, own, .head h⟩ none
      | ok b =>
        refine List.forall_mem_cons.mpr ⟨⟨b, h⟩, ih ?_⟩
        rintro ⟨before, a', own, first⟩
        exact none ⟨a :: before, a', own, first.cons h⟩

/-- **Items that are treated in turn stop at the first one that fails**, with the defect of that
item as seen from behind the step to it. -/
theorem inTurn_eq_error {step : Nat → α → Step} {index : Nat} {e : Defect} :
    inTurn step treat index as = .error e ↔
      ∃ before a own, FirstFault treat as before a own ∧
        own.within (step (index + before.length) a) = e := by
  -- the head stops the list, or the items behind it do, whose indices are one further
  induction as generalizing index with
  | nil => simp [inTurn, not_firstFault_nil]
  | cons a as ih =>
    simp only [inTurn, bind_eq_error, within_eq_error, within_eq_ok, reduceCtorEq, and_false,
      exists_false, or_false, ih]
    constructor
    · rintro (⟨own, h, rfl⟩ | ⟨c, hc, before, a', own, first, rfl⟩)
      · exact ⟨[], a, own, .head h, rfl⟩
      · refine ⟨a :: before, a', own, first.cons hc, ?_⟩
        rw [List.length_cons, Nat.add_right_comm, Nat.add_assoc]
    · rintro ⟨before, a', own, first, rfl⟩
      rcases first.of_cons with ⟨rfl, rfl⟩ | ⟨c, rest, hc, rfl, rest_first⟩
      · exact .inl ⟨own, first.fails, rfl⟩
      · refine .inr ⟨c, hc, rest, a', own, rest_first, ?_⟩
        rw [List.length_cons, Nat.add_right_comm, Nat.add_assoc]

theorem exists_inTurn_eq_ok {step : Nat → α → Step} {index : Nat} :
    (∃ bs, inTurn step treat index as = .ok bs) ↔ ∀ a ∈ as, ∃ b, treat a = .ok b := by
  rw [all_ok_iff]
  cases h : inTurn step treat index as with
  | ok bs =>
    refine iff_of_true ⟨bs, rfl⟩ ?_
    rintro ⟨before, a, own, first⟩
    cases h.symm.trans (inTurn_eq_error.mpr ⟨before, a, own, first, rfl⟩)
  | error e =>
    obtain ⟨before, a, own, first, -⟩ := inTurn_eq_error.mp h
    exact iff_of_false nofun fun none => none ⟨before, a, own, first⟩

/-- The items of a field stop at the first one that fails. -/
theorem each_eq_error {key : String} {e : Defect} :
    each key treat as = .error e ↔
      ∃ before a own, FirstFault treat as before a own ∧
        own.within (.item key before.length) = e := by
  rw [each, inTurn_eq_error]
  simp only [Nat.zero_add]

theorem exists_each_eq_ok {key : String} :
    (∃ bs, each key treat as = .ok bs) ↔ ∀ a ∈ as, ∃ b, treat a = .ok b := by
  rw [each, exists_inTurn_eq_ok]

end Checked

end Workflow
