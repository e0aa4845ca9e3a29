import Workflow.Document.Read
import Workflow.Proofs.FieldValues

/-!
# Reading a state to its end

A state that is an object is first read to its end, and its kind is found on the way. What comes
out depends neither on the order of its members nor on where the kind stands.

## Main results

* `kindOfMembers_eq_ok`: the kind of an object that does not repeat a key
* `height_le_of_get?`: a member is not higher than its object
-/

namespace Workflow

namespace Json

theorem distinctMembers_iff {members : List (String × Json)} :
    DistinctMembers members ↔ ∀ m ∈ members, m.2.Distinct := by
  induction members with
  | nil => simp [DistinctMembers]
  | cons m members ih => simp [DistinctMembers, ih]

theorem distinctItems_iff {items : List Json} :
    DistinctItems items ↔ ∀ item ∈ items, item.Distinct := by
  induction items with
  | nil => simp [DistinctItems]
  | cons item items ih => simp [DistinctItems, ih]

theorem DistinctMembers.of_get? {members : List (String × Json)} (h : DistinctMembers members)
    (key : String) {value : Json} (hk : get? key members = some value) : value.Distinct :=
  distinctMembers_iff.mp h _ (mem_of_get? hk)

end Json

namespace Written

theorem height_le_of_mem {members : List (String × Written)} {key : String} {value : Written}
    (h : (key, value) ∈ members) : value.height ≤ heightOfMembers members := by
  induction members with
  | nil => cases h
  | cons member members ih =>
    obtain ⟨k, v⟩ := member
    rw [heightOfMembers]
    rcases List.mem_cons.mp h with he | h
    · cases he
      exact Nat.le_max_left _ _
    · exact Nat.le_trans (ih h) (Nat.le_max_right _ _)

theorem height_le_of_get? {members : List (String × Written)} {key : String} {value : Written}
    (h : Json.get? key members = some value) : value.height ≤ heightOfMembers members :=
  height_le_of_mem (Json.mem_of_get? h)

end Written

namespace Document

variable {nested : Bool} {members : List (String × Written)}

theorem readKind_name (nested : Bool) (kind : StateKind) :
    readKind nested (.string kind.name) = .ok kind := by
  cases kind <;> rfl

/-- Behind its kind, an object is only read to its end. -/
theorem kindOfMembers_some {k kind : StateKind} :
    kindOfMembers nested (some k) members none = .ok kind ↔
      k = kind ∧ kindKey ∉ members.map Prod.fst ∧ ∀ m ∈ members, pass m.2 = .ok () := by
  induction members with
  | nil => simp [kindOfMembers]
  | cons member members ih =>
    obtain ⟨key, value⟩ := member
    by_cases hk : key = kindKey
    · simp [kindOfMembers, hk]
    · simp only [kindOfMembers, if_neg hk, bind_eq_ok, exists_unit, ih, List.map_cons,
        List.mem_cons, not_or, forall_eq_or_imp]
      constructor
      · rintro ⟨hv, he, hm, hvs⟩
        exact ⟨he, ⟨Ne.symm hk, hm⟩, hv, hvs⟩
      · rintro ⟨he, ⟨-, hm⟩, hv, hvs⟩
        exact ⟨hv, he, hm, hvs⟩

/-- The kind of an object that does not repeat a key is what stands under its key, and all else in
the object can be read. -/
theorem kindOfMembers_eq_ok (hn : (members.map Prod.fst).Nodup) {kind : StateKind} :
    kindOfMembers nested none members none = .ok kind ↔
      (∃ w, Json.get? kindKey members = some w ∧ readKind nested w = .ok kind) ∧
        ∀ m ∈ members, m.1 ≠ kindKey → pass m.2 = .ok () := by
  induction members with
  | nil => simp [kindOfMembers, Json.get?]
  | cons member members ih =>
    obtain ⟨key, value⟩ := member
    obtain ⟨hkey, hn⟩ := List.nodup_cons.mp hn
    by_cases hk : key = kindKey
    -- keys are distinct, so this is the kind and the other members are passed over
    · subst hk
      have others (m) (hm : m ∈ members) : m.1 ≠ kindKey := fun he =>
        hkey (List.mem_map.mpr ⟨m, hm, he⟩)
      simp only [kindOfMembers, if_true, Option.isSome_none, Bool.false_eq_true, if_false,
        bind_eq_ok, kindOfMembers_some, Json.get?, Option.some.injEq, exists_eq_left',
        List.mem_cons, forall_eq_or_imp, ne_eq, not_true_eq_false, false_implies, true_and]
      constructor
      · rintro ⟨k, hr, rfl, -, hp⟩
        exact ⟨hr, fun m hm _ => hp m hm⟩
      · rintro ⟨hr, hp⟩
        exact ⟨kind, hr, rfl, hkey, fun m hm => hp m hm (others m hm)⟩
    · simp only [kindOfMembers, Json.get?, if_neg hk, bind_eq_ok, exists_unit, ih hn,
        List.mem_cons, forall_eq_or_imp]
      constructor
      · rintro ⟨hv, hw, hp⟩
        exact ⟨hw, fun _ => hv, hp⟩
      · rintro ⟨hw, hv, hp⟩
        exact ⟨hv hk, hw, hp⟩

theorem pass_written {value : Json} (h : value.Distinct) : pass value.written = .ok () := by
  rw [pass, anything_written h]
  rfl

/-- A state that is an object without a repeated key is read to its end. -/
theorem body_written {ms : Members} (hd : (Json.object ms).Distinct) {kind : StateKind}
    (hk : Json.get? kindKey ms = some (.string kind.name)) :
    body nested (Json.object ms).written = .ok (kind, .members
      ((Json.writtenMembers ms).filter fun member => member.1 ≠ kindKey)) := by
  have hn : ((Json.writtenMembers ms).map Prod.fst).Nodup := by
    rw [Json.map_fst_writtenMembers]
    exact hd.1
  have known : kindOfMembers nested none (Json.writtenMembers ms) none = .ok kind := by
    rw [kindOfMembers_eq_ok hn, Json.get?_writtenMembers, hk]
    refine ⟨⟨_, rfl, readKind_name nested kind⟩, ?_⟩
    rintro ⟨key, value⟩ hm -
    have found := Json.get?_of_mem hn hm
    rw [Json.get?_writtenMembers, Option.map_eq_some_iff] at found
    obtain ⟨v, hv, rfl⟩ := found
    exact pass_written (hd.2.of_get? key hv)
  simp only [Json.written, body, known, ok_bind]

end Document

end Workflow
