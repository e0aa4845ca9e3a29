import Mathlib.Data.List.Forall2
import Mathlib.Data.List.Induction
import Workflow.Document.Encode
import Workflow.Proofs.Shapes

/-!
# Reading the values of fields

A value is read from a field exactly when it is written there. Only doubles have more than one
written form, and lists and objects have those of their parts.

## Main results

* `text_eq_ok`, `flag_eq_ok`, `natural32_eq_ok`, `natural64_eq_ok`, `selector_eq_ok`: what the
  field of a value looks like
* `list_eq_ok`: what the field of a list looks like
* `Json.toJson_written`: a value in which no object repeats a key is read back
-/

namespace Workflow

namespace Json

theorem Whole.ext {m n : Whole} (h : m.val = n.val) : m = n := by
  cases m
  cases n
  simpa using h

theorem Whole.toUInt64?_eq_some {n : Whole} {v : UInt64} :
    n.toUInt64? = some v ↔ n = .ofUInt64 v := by
  have hu := n.upper
  constructor
  · intro h
    simp only [toUInt64?, Option.ite_none_right_eq_some, Option.some.injEq] at h
    obtain ⟨h₀, rfl⟩ := h
    apply Whole.ext
    have hlt : n.val.toNat < UInt64.size := by simp only [UInt64.size]; omega
    simp only [ofUInt64, UInt64.toNat_ofNat_of_lt' hlt]
    omega
  · rintro rfl
    simp [toUInt64?, ofUInt64]

theorem Whole.toUInt32?_eq_some {n : Whole} {v : UInt32} :
    n.toUInt32? = some v ↔ n = .ofUInt64 v.toUInt64 := by
  constructor
  · intro h
    simp only [toUInt32?, Option.ite_none_right_eq_some, Option.some.injEq] at h
    obtain ⟨⟨h₀, h₁⟩, rfl⟩ := h
    apply Whole.ext
    have hlt : n.val.toNat < UInt32.size := by simp only [UInt32.size]; omega
    simp only [ofUInt64, UInt32.toNat_toUInt64, UInt32.toNat_ofNat_of_lt' hlt]
    omega
  · rintro rfl
    have := v.toNat_lt
    simp only [toUInt32?, ofUInt64, UInt32.toNat_toUInt64, Option.ite_none_right_eq_some,
      Int.toNat_natCast, UInt32.ofNat_toNat, and_true]
    omega

theorem Whole.toInt64?_eq_some {n : Whole} {v : Int64} :
    n.toInt64? = some v ↔ n = .ofInt64 v := by
  have hl := n.lower
  constructor
  · intro h
    simp only [toInt64?, Option.ite_none_right_eq_some, Option.some.injEq] at h
    obtain ⟨h₀, rfl⟩ := h
    apply Whole.ext
    exact (Int64.toInt_ofInt_of_le (by omega) (by omega)).symm
  · rintro rfl
    have := v.toInt_lt
    simp only [toInt64?, ofInt64, Option.ite_none_right_eq_some, Int64.ofInt_toInt, and_true]
    omega

/-! ### Values as they could be written -/

theorem merge_snoc {α : Type} (members : List (String × α)) (key : String) (value : α) :
    merge (members ++ [(key, value)]) = insert key value (merge members) := by
  simp [merge]

theorem insert_of_notMem {α : Type} {key : String} {members : List (String × α)}
    (h : key ∉ members.map Prod.fst) (value : α) :
    insert key value members = members ++ [(key, value)] := by
  induction members with
  | nil => rfl
  | cons member members ih =>
    obtain ⟨k, v⟩ := member
    simp only [List.map_cons, List.mem_cons, not_or] at h
    rw [insert, if_neg (Ne.symm h.1), ih h.2, List.cons_append]

/-- Members without a repeated key are kept as they are. -/
theorem merge_of_nodup {α : Type} {members : List (String × α)}
    (h : (members.map Prod.fst).Nodup) : merge members = members := by
  induction members using List.reverseRecOn with
  | nil => rfl
  | append_singleton members member ih =>
    obtain ⟨key, value⟩ := member
    rw [List.map_append, List.nodup_append] at h
    have hk : key ∉ members.map Prod.fst := fun hm => h.2.2 key hm key (by simp) rfl
    rw [merge_snoc, ih h.1, insert_of_notMem hk]

@[simp]
theorem map_fst_writtenMembers (members : List (String × Json)) :
    (writtenMembers members).map Prod.fst = members.map Prod.fst := by
  induction members with
  | nil => rfl
  | cons member members ih => simp [writtenMembers, ih]

@[simp]
theorem get?_writtenMembers (key : String) (members : List (String × Json)) :
    get? key (writtenMembers members) = (get? key members).map written := by
  induction members with
  | nil => rfl
  | cons member members ih =>
    obtain ⟨k, v⟩ := member
    by_cases h : k = key
    · simp [writtenMembers, get?, h]
    · simp [writtenMembers, get?, h, ih]

theorem writtenItems_eq_map (items : List Json) : writtenItems items = items.map written := by
  induction items with
  | nil => rfl
  | cons item items ih => simp [writtenItems, ih]

mutual

/-- A value in which no object repeats a key is read back as it was written. -/
theorem toJson_written {value : Json} (h : value.Distinct) : value.written.toJson = .ok value := by
  match value with
  | null => rfl
  | bool _ => rfl
  | number _ => rfl
  | string _ => rfl
  | array items =>
    simp only [written, Written.toJson, toItems_writtenItems h, ok_bind]
  | object members =>
    simp only [written, Written.toJson, toMembers_writtenMembers h.2, ok_bind,
      merge_of_nodup h.1]

theorem toItems_writtenItems {items : List Json} (h : DistinctItems items) :
    Written.toItems (writtenItems items) = .ok items := by
  match items with
  | [] => rfl
  | item :: items =>
    simp only [writtenItems, Written.toItems, toJson_written h.1, toItems_writtenItems h.2, ok_bind]

theorem toMembers_writtenMembers {members : List (String × Json)} (h : DistinctMembers members) :
    Written.toMembers (writtenMembers members) = .ok members := by
  match members with
  | [] => rfl
  | (key, value) :: members =>
    simp only [writtenMembers, Written.toMembers, toJson_written h.1,
      toMembers_writtenMembers h.2, ok_bind]

end

end Json

namespace Document

variable {α : Type}

/-! ### What fields look like -/

@[simp]
theorem text_eq_ok {w : Written} {s : String} : text w = .ok s ↔ w = .string s := by
  cases w <;> simp [text]

@[simp]
theorem flag_eq_ok {w : Written} {b : Bool} : flag w = .ok b ↔ w = .bool b := by
  cases w <;> simp [flag]

theorem natural32_eq_ok {w : Written} {n : UInt32} :
    natural32 w = .ok n ↔ w = (natural32Json n).written := by
  cases w with
  | number m =>
    cases m with
    | whole m =>
      simp only [natural32, natural32Json, Json.written, Written.number.injEq,
        Json.Number.whole.injEq, ← Json.Whole.toUInt32?_eq_some]
      cases m.toUInt32? <;> simp
    | real x => simp [natural32, natural32Json, Json.written]
  | _ => simp [natural32, natural32Json, Json.written]

theorem natural64_eq_ok {w : Written} {n : UInt64} :
    natural64 w = .ok n ↔ w = .number (.whole (.ofUInt64 n)) := by
  cases w with
  | number m =>
    cases m with
    | whole m =>
      simp only [natural64, Written.number.injEq, Json.Number.whole.injEq,
        ← Json.Whole.toUInt64?_eq_some]
      cases m.toUInt64? <;> simp
    | real x => simp [natural64]
  | _ => simp [natural64]

theorem double_eq_ok {w : Written} {x : Double} :
    double w = .ok x ↔ ∃ n, w = .number n ∧ n.toDouble = x := by
  cases w <;> simp [double]

theorem selector_eq_ok {w : Written} {s : Selector} :
    selector w = .ok s ↔ w = s.toJson.written := by
  cases w <;> cases s <;> simp [selector, Selector.toJson, Json.written]

theorem anything_written {value : Json} (h : value.Distinct) :
    anything value.written = .ok value := by
  rw [anything, Json.toJson_written h]

theorem listItems_eq_ok {read : Written → Reading α} {items : List Written}
    {fault : Option Json.Fault} {as : List α} :
    listItems read items fault = .ok as ↔
      fault = none ∧ List.Forall₂ (fun w a => read w = .ok a) items as := by
  induction items generalizing as with
  | nil => cases fault <;> simp [listItems, List.forall₂_nil_left_iff, eq_comm]
  | cons item items ih =>
    simp only [listItems, bind_eq_ok, ih, Except.ok.injEq, List.forall₂_cons_left_iff]
    constructor
    · rintro ⟨a, ha, as', ⟨hf, has⟩, rfl⟩
      exact ⟨hf, a, as', ha, has, rfl⟩
    · rintro ⟨hf, a, as', ha, has, rfl⟩
      exact ⟨a, ha, as', ⟨hf, has⟩, rfl⟩

theorem list_eq_ok {read : Written → Reading α} {w : Written} {as : List α} :
    list read w = .ok as ↔
      ∃ items, w = .array items none ∧ List.Forall₂ (fun w a => read w = .ok a) items as := by
  cases w with
  | array items fault => simp [list, listItems_eq_ok]
  | _ => simp [list]

/-- A list is read from the array of the written forms of its items. -/
theorem list_array {β : Type} {read : Written → Reading α} {toJson : β → Json} {f : β → α}
    {items : List β} (h : ∀ b ∈ items, read (toJson b).written = .ok (f b)) :
    list read (Json.array (items.map toJson)).written = .ok (items.map f) := by
  rw [Json.written, list_eq_ok]
  refine ⟨_, rfl, ?_⟩
  rw [Json.writtenItems_eq_map, List.map_map, List.forall₂_map_left_iff, List.forall₂_map_right_iff,
    List.forall₂_same]
  exact h

theorem rule_written {members : List (String × Json)} (h : (Json.object members).Distinct) :
    rule (Json.object members).written = .ok members := by
  simp only [Json.written, rule, Json.toMembers_writtenMembers h.2, Json.merge_of_nodup h.1]

end Document

end Workflow
