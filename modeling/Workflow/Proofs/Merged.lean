import Workflow.Proofs.DistinctKeys

/-!
# Written values with repeated keys merged

A text may repeat a key in an object. The value that it says has the key once, in its first place
and with its last definition. What is left of a written value in this way is compared with it part
by part here; where no key is repeated, nothing is lost.

## Main definitions

* `Json.Matched`: members with the same keys, whose values are related
* `Written.Merged`: what is left of a written value when repeated keys are merged
* `Written.Distinct`: no object repeats a key

## Main results

* `Json.Matched.merge`: members stay matched when repeated keys are merged
* `merged_array`, `Merged.object`: what is left of the parts of arrays and objects
* `Distinct.eq_written`: nothing is lost of a value in which no object repeats a key
-/

namespace Workflow

/-! ### Members with the same keys -/

namespace Json

variable {α β γ : Type} {R : α → β → Prop} {ms : List (String × α)} {ns : List (String × β)}

/-- Members have the same keys in the same order, and their values are related one by one. -/
def Matched (R : α → β → Prop) (ms : List (String × α)) (ns : List (String × β)) : Prop :=
  List.Forall₂ (fun m n => m.1 = n.1 ∧ R m.2 n.2) ms ns

namespace Matched

theorem keys_eq (h : Matched R ms ns) : ms.map Prod.fst = ns.map Prod.fst := by
  induction h with
  | nil => rfl
  | cons hm _ ih => rw [List.map_cons, List.map_cons, hm.1, ih]

theorem imp {S : α → β → Prop} (h : Matched R ms ns) (hs : ∀ a b, R a b → S a b) :
    Matched S ms ns :=
  List.Forall₂.imp (fun _ _ hm => ⟨hm.1, hs _ _ hm.2⟩) h

/-- Members that are matched with the same ones are matched with each other. -/
theorem join {S : α → γ → Prop} {T : β → γ → Prop} {os : List (String × γ)} (h : Matched R ms ns)
    (h' : Matched S ms os) (ht : ∀ a b c, R a b → S a c → T b c) : Matched T ns os := by
  induction h generalizing os with
  | nil =>
    cases h'
    exact .nil
  | cons hm _ ih =>
    cases h' with
    | cons ho hos => exact .cons ⟨hm.1.symm.trans ho.1, ht _ _ _ hm.2 ho.2⟩ (ih hos)

theorem filter (h : Matched R ms ns) (p : String → Bool) :
    Matched R (ms.filter fun m => p m.1) (ns.filter fun n => p n.1) := by
  induction h with
  | nil => exact .nil
  | @cons m n ms ns hm _ ih =>
    rw [List.filter_cons, List.filter_cons, hm.1]
    split
    · exact .cons hm ih
    · exact ih

theorem insert (h : Matched R ms ns) (key : String) {a : α} {b : β} (hab : R a b) :
    Matched R (Json.insert key a ms) (Json.insert key b ns) := by
  induction h with
  | nil => exact .cons ⟨rfl, hab⟩ .nil
  | @cons m n ms ns hm hms ih =>
    obtain ⟨k, v⟩ := m
    obtain ⟨k', v'⟩ := n
    obtain ⟨rfl, hv⟩ := hm
    simp only [Json.insert]
    split
    · exact .cons ⟨rfl, hab⟩ hms
    · exact .cons ⟨rfl, hv⟩ ih

theorem foldl_insert (h : Matched R ms ns) {object : List (String × α)}
    {object' : List (String × β)} (ho : Matched R object object') :
    Matched R (ms.foldl (fun o m => Json.insert m.1 m.2 o) object)
      (ns.foldl (fun o n => Json.insert n.1 n.2 o) object') := by
  induction h generalizing object object' with
  | nil => exact ho
  | @cons m n ms ns hm _ ih =>
    apply ih
    show Matched R (Json.insert m.1 m.2 object) (Json.insert n.1 n.2 object')
    rw [hm.1]
    exact ho.insert n.1 hm.2

/-- Members stay matched when repeated keys are merged: the first place and the last value of a key
are the same on both sides. -/
theorem merge (h : Matched R ms ns) : Matched R (Json.merge ms) (Json.merge ns) :=
  h.foldl_insert .nil

end Matched

end Json

namespace Written

/-! ### What is left -/

/-- What is left of a written value when repeated keys are merged, at most so high: the value that
it says, as it could be written. -/
def Merged (levels : ℕ) (w w' : Written) : Prop :=
  ∃ value, w.toJson = .ok value ∧ w' = value.written ∧ w'.height ≤ levels

variable {levels : ℕ} {w w' : Written}

theorem height_pos (w : Written) : 0 < w.height := by
  cases w <;> simp [height]

namespace Merged

theorem mono (h : Merged levels w w') {more : ℕ} (hl : levels ≤ more) : Merged more w w' := by
  obtain ⟨value, hv, he, hh⟩ := h
  exact ⟨value, hv, he, hh.trans hl⟩

theorem exists_succ (h : Merged levels w w') : ∃ below, levels = below + 1 := by
  obtain ⟨_, -, -, hh⟩ := h
  exact Nat.exists_eq_succ_of_ne_zero (w'.height_pos.trans_le hh).ne'

/-- Null is left of null only. -/
theorem eq_null (h : Merged levels w .null) : w = .null := by
  obtain ⟨value, hv, he, -⟩ := h
  obtain rfl : value = .null := by
    cases value with
    | null => rfl
    | _ => cases he
  cases w with
  | null => rfl
  | bool _ | number _ | string _ | broken _ => cases hv
  -- a container says a container, or has a fault
  | array items fault =>
    obtain ⟨values, -, hv⟩ := bind_eq_ok.mp hv
    cases fault <;> cases hv
  | object members fault =>
    obtain ⟨values, -, hv⟩ := bind_eq_ok.mp hv
    cases fault <;> cases hv

end Merged

/-! ### Items -/

theorem toItems_eq_ok {items : List Written} {values : List Json} :
    toItems items = .ok values ↔ List.Forall₂ (fun w v => w.toJson = .ok v) items values := by
  induction items generalizing values with
  | nil => simp [toItems, List.forall₂_nil_left_iff, eq_comm]
  | cons item items ih =>
    simp only [toItems, bind_eq_ok, ih, Except.ok.injEq, List.forall₂_cons_left_iff]
    constructor
    · rintro ⟨v, hv, vs, hvs, rfl⟩
      exact ⟨v, vs, hv, hvs, rfl⟩
    · rintro ⟨v, vs, hv, hvs, rfl⟩
      exact ⟨v, hv, vs, hvs, rfl⟩

/-- Items say values exactly when each of them says one; what is left of them is left of each. -/
theorem forall₂_merged {items items' : List Written} :
    List.Forall₂ (Merged levels) items items' ↔ ∃ values, toItems items = .ok values ∧
      items' = Json.writtenItems values ∧ heightOfItems items' ≤ levels := by
  constructor
  · intro h
    induction h with
    | nil => exact ⟨[], rfl, rfl, Nat.zero_le _⟩
    | cons hi _ ih =>
      obtain ⟨v, hv, rfl, hh⟩ := hi
      obtain ⟨vs, hvs, rfl, hhs⟩ := ih
      refine ⟨v :: vs, ?_, rfl, max_le hh hhs⟩
      simp only [toItems, hv, hvs, ok_bind]
  · rintro ⟨values, hv, rfl, hh⟩
    rw [toItems_eq_ok] at hv
    induction hv with
    | nil => exact .nil
    | cons hi _ ih =>
      obtain ⟨first, rest⟩ := max_le_iff.mp hh
      exact .cons ⟨_, hi, rfl, first⟩ (ih rest)

/-- What is left of an array is an array of what is left of its items. -/
theorem merged_array {items : List Written} {fault : Option Json.Fault} :
    Merged (levels + 1) (.array items fault) w' ↔
      fault = none ∧ ∃ items', w' = .array items' none ∧
        List.Forall₂ (Merged levels) items items' := by
  constructor
  · rintro ⟨value, hv, rfl, hh⟩
    obtain ⟨values, hvs, hv⟩ := bind_eq_ok.mp hv
    cases fault with
    | some fault => cases hv
    | none =>
      cases hv
      exact ⟨rfl, _, rfl, forall₂_merged.mpr ⟨values, hvs, rfl, Nat.le_of_succ_le_succ hh⟩⟩
  · rintro ⟨rfl, items', rfl, hi⟩
    obtain ⟨values, hvs, rfl, hh⟩ := forall₂_merged.mp hi
    refine ⟨.array values, ?_, rfl, Nat.succ_le_succ hh⟩
    simp only [toJson, hvs, ok_bind]

/-! ### Members -/

theorem toMembers_eq_ok {members : List (String × Written)} {values : Members} :
    toMembers members = .ok values ↔ Json.Matched (fun w v => w.toJson = .ok v) members values := by
  unfold Json.Matched
  induction members generalizing values with
  | nil => simp [toMembers, List.forall₂_nil_left_iff, eq_comm]
  | cons member members ih =>
    obtain ⟨key, w⟩ := member
    simp only [toMembers, bind_eq_ok, ih, Except.ok.injEq, List.forall₂_cons_left_iff]
    constructor
    · rintro ⟨v, hv, vs, hvs, rfl⟩
      exact ⟨(key, v), vs, ⟨rfl, hv⟩, hvs, rfl⟩
    · rintro ⟨⟨_, v⟩, vs, ⟨rfl, hv⟩, hvs, rfl⟩
      exact ⟨v, hv, vs, hvs, rfl⟩

/-- Members that say values are matched with what is left of them. -/
theorem matched_writtenMembers {members : List (String × Written)} {values : Members}
    (h : Json.Matched (fun w v => w.toJson = .ok v) members values)
    (hh : heightOfMembers (Json.writtenMembers values) ≤ levels) :
    Json.Matched (Merged levels) members (Json.writtenMembers values) := by
  induction h with
  | nil => exact .nil
  | cons hm _ ih =>
    obtain ⟨first, rest⟩ := max_le_iff.mp hh
    exact .cons ⟨hm.1, _, hm.2, rfl, first⟩ (ih rest)

/-- What is left of an object has the members that are left when repeated keys are merged. Only
these are bounded in height: a definition that is given up may have been higher. -/
theorem Merged.object {members : List (String × Written)} {fault : Option Json.Fault}
    (h : Merged (levels + 1) (.object members fault) w') :
    fault = none ∧ ∃ members', w' = .object members' none ∧
      Json.Matched (Merged levels) (Json.merge members) members' := by
  obtain ⟨value, hv, rfl, hh⟩ := h
  obtain ⟨values, hvs, hv⟩ := bind_eq_ok.mp hv
  cases fault with
  | some fault => cases hv
  | none =>
    cases hv
    -- merging what is written and then reading it is the same as merging the values that were read
    have matched := (toMembers_eq_ok.mp hvs).merge
    exact ⟨rfl, _, rfl, matched_writtenMembers matched (Nat.le_of_succ_le_succ hh)⟩

/-! ### Without repeated keys -/

mutual

/-- No object repeats a key, at any depth. -/
def Distinct : Written → Prop
  | array items _ => DistinctItems items
  | object members _ => (members.map Prod.fst).Nodup ∧ DistinctMembers members
  | _ => True

/-- No object in the items repeats a key. -/
def DistinctItems : List Written → Prop
  | [] => True
  | item :: items => Distinct item ∧ DistinctItems items

/-- No object in the values of the members repeats a key. -/
def DistinctMembers : List (String × Written) → Prop
  | [] => True
  | (_, value) :: members => Distinct value ∧ DistinctMembers members

end

mutual

/-- Decides whether an object repeats a key. -/
def decideDistinct : (w : Written) → Decidable w.Distinct
  | null | bool _ | number _ | string _ | broken _ => isTrue trivial
  | array items _ => decideDistinctItems items
  | object members _ =>
    have := decideDistinctMembers members
    inferInstanceAs (Decidable ((members.map Prod.fst).Nodup ∧ DistinctMembers members))

/-- Decides whether an object in the items repeats a key. -/
def decideDistinctItems : (items : List Written) → Decidable (DistinctItems items)
  | [] => isTrue trivial
  | item :: items =>
    have := decideDistinct item
    have := decideDistinctItems items
    inferInstanceAs (Decidable (Distinct item ∧ DistinctItems items))

/-- Decides whether an object in the values of the members repeats a key. -/
def decideDistinctMembers :
    (members : List (String × Written)) → Decidable (DistinctMembers members)
  | [] => isTrue trivial
  | (_, value) :: members =>
    have := decideDistinct value
    have := decideDistinctMembers members
    inferInstanceAs (Decidable (Distinct value ∧ DistinctMembers members))

end

instance (w : Written) : Decidable w.Distinct := decideDistinct w

mutual

/-- Where no object repeats a key, nothing but the value is written. -/
theorem Distinct.eq_written {w : Written} (hd : w.Distinct) {value : Json}
    (h : w.toJson = .ok value) : w = value.written := by
  match w with
  | null | bool _ | number _ | string _ =>
    cases h
    rfl
  | broken fault => cases h
  | array items fault =>
    obtain ⟨values, hv, h⟩ := bind_eq_ok.mp h
    cases fault with
    | some fault => cases h
    | none =>
      cases h
      rw [Json.written, DistinctItems.eq_writtenItems hd hv]
  | object members fault =>
    obtain ⟨values, hv, h⟩ := bind_eq_ok.mp h
    cases fault with
    | some fault => cases h
    | none =>
      cases h
      -- the values have the keys of the members, so there is nothing to merge
      have keys := (toMembers_eq_ok.mp hv).keys_eq
      rw [Json.merge_of_nodup (keys ▸ hd.1), Json.written,
        ← DistinctMembers.eq_writtenMembers hd.2 hv]

theorem DistinctItems.eq_writtenItems {items : List Written} (hd : DistinctItems items)
    {values : List Json} (h : toItems items = .ok values) : items = Json.writtenItems values := by
  match items with
  | [] =>
    cases h
    rfl
  | item :: items =>
    simp only [toItems, bind_eq_ok, Except.ok.injEq] at h
    obtain ⟨v, hv, vs, hvs, rfl⟩ := h
    rw [Json.writtenItems, ← hd.1.eq_written hv, ← DistinctItems.eq_writtenItems hd.2 hvs]

theorem DistinctMembers.eq_writtenMembers {members : List (String × Written)}
    (hd : DistinctMembers members) {values : Members} (h : toMembers members = .ok values) :
    members = Json.writtenMembers values := by
  match members with
  | [] =>
    cases h
    rfl
  | (key, w) :: members =>
    simp only [toMembers, bind_eq_ok, Except.ok.injEq] at h
    obtain ⟨v, hv, vs, hvs, rfl⟩ := h
    rw [Json.writtenMembers, ← hd.1.eq_written hv, ← DistinctMembers.eq_writtenMembers hd.2 hvs]

end

end Written

end Workflow
