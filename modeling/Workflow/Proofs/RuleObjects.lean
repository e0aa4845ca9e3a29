import Mathlib.Data.List.Nodup
import Workflow.Document.Rule
import Workflow.Proofs.FieldValues
import Workflow.Proofs.StateChecks
import Workflow.Proofs.TimestampText

/-!
# The objects of rules and conditions are read back

A condition that was built is written as an object that asks for exactly one thing, and the draft
that is read from it is the draft of the condition. With the name of a state behind it the same
holds of a rule.

## Main results

* `Comparator.ofKey?_key`: the comparator of the name of a comparator
* `Expected.ofJson?_toJson`: the value of an expected value that can be written
* `Condition.ofMembers_toMembers`, `Rule.ofMembers_toMembers`: objects are read back
-/

namespace Workflow

/-! ### Comparators -/

/-- No two comparators have the same name. -/
theorem Comparator.key_injective {c d : Comparator} (h : c.key = d.key) : c = d := by
  have names : (all.map key).Nodup := by decide
  exact List.inj_on_of_nodup_map names (mem_all c) (mem_all d) h

theorem Comparator.ofKey?_eq_some {key : String} {c : Comparator} :
    ofKey? key = some c ↔ c.key = key := by
  constructor
  · intro h
    simpa using List.find?_some h
  · rintro rfl
    cases h : ofKey? c.key with
    | none =>
      have refused := List.find?_eq_none.mp h c (mem_all c)
      simp at refused
    | some d =>
      have same : d.key = c.key := by simpa using List.find?_some h
      rw [key_injective same]

/-- The keys of a condition that say something else than a comparator. -/
def wordKeys : List String := ["Variable", "And", "Or", "Not", "Next"]

theorem Comparator.key_notMem_wordKeys (c : Comparator) : c.key ∉ wordKeys := by
  have names : ∀ d ∈ all, d.key ∉ wordKeys := by decide
  exact names c (mem_all c)

theorem Comparator.asked_key (c : Comparator) : Draft.Asked.ofKey c.key = .comparison := by
  have h := c.key_notMem_wordKeys
  simp only [wordKeys, List.mem_cons, not_or] at h
  simp [Draft.Asked.ofKey, h]

/-! ### Expected values -/

theorem Expected.ofJson?_toJson {value : Expected} (h : value.Writable) :
    ofJson? value.family value.toJson = some value := by
  cases value with
  | string text => rfl
  | boolean value => rfl
  | timestamp t =>
    have read : Timestamp.parse t.text = .ok t :=
      Timestamp.parse_text (Timestamp.checkRange_eq_ok.mpr h)
    simp [family, toJson, ofJson?, read]
  | numeric value =>
    cases value with
    | integer n =>
      have read : (Json.Whole.ofInt64 n).toInt64? = some n := Json.Whole.toInt64?_eq_some.mpr rfl
      simp [family, toJson, ofJson?, read]
    | double x =>
      -- a double that is not finite has no value of its own
      cases x with
      | finite x => rfl
      | _ => cases h

/-! ### Conditions -/

namespace Condition

open Draft (askedOnce askedKeys)

theorem next_notMem_toMembers (c : Condition) : "Next" ∉ c.toMembers.map Prod.fst := by
  cases c with
  | comparison c =>
    have h := c.comparator.key_notMem_wordKeys
    simp only [wordKeys, List.mem_cons, not_or] at h
    simpa [toMembers] using Ne.symm h.2.2.2.2.1
  | _ => simp [toMembers]

/-- A condition asks for exactly one thing. -/
theorem askedOnce_toMembers {α : Type} (c : Condition)
    (answer : Option Json → Except RuleProblem α) :
    askedOnce c.toMembers answer = answer (Json.get? "Variable" c.toMembers) := by
  have once : ∃ key, askedKeys c.toMembers = [key] := by
    cases c with
    | comparison c =>
      have h := c.comparator.key_notMem_wordKeys
      simp only [wordKeys, List.mem_cons, not_or] at h
      exact ⟨c.comparator.key, by simp [askedKeys, toMembers, h]⟩
    | and parts => exact ⟨"And", by simp [askedKeys, toMembers]⟩
    | or parts => exact ⟨"Or", by simp [askedKeys, toMembers]⟩
    | not part => exact ⟨"Not", by simp [askedKeys, toMembers]⟩
  obtain ⟨key, hk⟩ := once
  simp [askedOnce, hk]

theorem ofComparison_key {c : Comparison} (hw : c.expected.Writable)
    (ht : c.comparator.family = c.expected.family) :
    Draft.Condition.ofComparison (some (.string c.path)) c.comparator.key c.expected.toJson =
      .ok (.comparison c.comparator.operator c.path c.expected) := by
  have known := Comparator.ofKey?_eq_some.mpr (Eq.refl c.comparator.key)
  have value : Expected.ofJson? c.comparator.family c.expected.toJson = some c.expected := by
    rw [ht]
    exact Expected.ofJson?_toJson hw
  simp [Draft.Condition.ofComparison, known, value]

mutual

theorem ofMembers_toMembers {c : Condition} (hv : c.toDraft.Valid) (ht : c.Typed) :
    Draft.Condition.ofMembers c.toMembers = .ok c.toDraft := by
  rw [Draft.Condition.ofMembers, askedOnce_toMembers]
  match c with
  | comparison c =>
    have hk := c.comparator.key_notMem_wordKeys
    simp only [wordKeys, List.mem_cons, not_or] at hk
    simp only [toMembers, Json.get?, if_true, Draft.Condition.ofAsked, if_neg hk.1,
      c.comparator.asked_key]
    exact ofComparison_key hv.2.1 ht
  | and parts =>
    simp [toMembers, Json.get?, Draft.Condition.ofAsked, Draft.Asked.ofKey,
      Draft.withoutVariable, Draft.Condition.ofParts, ofItems_toItems hv.2 ht, toDraft]
  | or parts =>
    simp [toMembers, Json.get?, Draft.Condition.ofAsked, Draft.Asked.ofKey,
      Draft.withoutVariable, Draft.Condition.ofParts, ofItems_toItems hv.2 ht, toDraft]
  | not part =>
    have read := ofMembers_toMembers (c := part) hv ht
    rw [Draft.Condition.ofMembers] at read
    simp [toMembers, Json.get?, Draft.Condition.ofAsked, Draft.Asked.ofKey,
      Draft.withoutVariable, Draft.Condition.ofNegated, read, toDraft]

theorem ofItems_toItems {cs : List Condition} (hv : Draft.Condition.ValidParts (toDrafts cs))
    (ht : TypedParts cs) (key : String) (index : Nat) :
    Draft.Condition.ofItems key index (toItems cs) = .ok (toDrafts cs) := by
  match cs with
  | [] => rfl
  | c :: cs =>
    have read := ofMembers_toMembers (c := c) hv.1 ht.1
    rw [Draft.Condition.ofMembers] at read
    simp [toItems, Draft.Condition.ofItems, Draft.Condition.ofItem, read,
      ofItems_toItems hv.2 ht.2, toDrafts]

end

end Condition

/-! ### Rules -/

theorem Json.erase_snoc {key : String} {members : List (String × Json)}
    (h : key ∉ members.map Prod.fst) (value : Json) :
    erase key (members ++ [(key, value)]) = members := by
  induction members with
  | nil => simp [erase]
  | cons member members ih =>
    obtain ⟨k, v⟩ := member
    simp only [List.map_cons, List.mem_cons, not_or] at h
    rw [List.cons_append, erase, if_neg (Ne.symm h.1), ih h.2]

theorem Rule.ofMembers_toMembers {r : Rule} (hv : r.toDraft.Valid) (ht : r.condition.Typed) :
    Draft.Rule.ofMembers r.toMembers = .ok r.toDraft := by
  obtain ⟨⟨c, hc, hs⟩, name, -, hn⟩ := hv
  obtain ⟨condition, transition⟩ := r
  simp only [Rule.toDraft, Option.some.injEq] at hs hn
  subst hs hn
  have hk := condition.next_notMem_toMembers
  have found : Json.get? "Next" (condition.toMembers ++ [("Next", .string name)]) =
      some (.string name) := by
    rw [Json.get?_append, Json.get?_eq_none.mpr hk]
    simp [Json.get?]
  simp only [toMembers, next?, Transition.next?, Option.map_some, Option.toList_some,
    Draft.Rule.ofMembers, found, Json.erase_snoc hk]
  simp [Condition.ofMembers_toMembers hc ht, toDraft]

end Workflow
