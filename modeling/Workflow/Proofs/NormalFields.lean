import Workflow.Proofs.NormalForm
import Workflow.Proofs.ReadBack

/-!
# The fields of a normal form

What the normal form of an object says under a key is what is written for the field that was read
there. This settles policies, and every state whose document can be told from the state.

## Main results

* `said_must`, `said_may`, `said_maybe`, `said_listed`: what the normal form says under a key
* `retrier_eq`, `catcher_eq`: the normal forms of policies
-/

namespace Workflow

namespace Members

variable {α : Type} {key : String}

@[simp]
theorem optional_none (toJson : α → Json) : optional key toJson none = [] := rfl

@[simp]
theorem optional_some (toJson : α → Json) (a : α) :
    optional key toJson (some a) = [(key, toJson a)] := rfl

@[simp]
theorem optional_map (toJson : α → Json) (o : Option α) :
    optional key id (o.map toJson) = optional key toJson o := by
  cases o <;> rfl

/-- A list as the value of a member, unless it is empty. -/
def listed (toJson : α → Json) (items : List α) : Option Json :=
  if items.isEmpty then none else some (.array (items.map toJson))

@[simp]
theorem optional_listed (toJson : α → Json) (items : List α) :
    optional key id (listed toJson items) = list key toJson items := by
  cases items <;> rfl

end Members

namespace NormalForm

open Json (get?)
open Document

variable {α β : Type} {f : String → Json → Json} {key : String} {members : Members}

theorem isSilent_eq_false {value : Json} (hn : value ≠ .null) (hp : key ∉ policyKeys) :
    isSilent key value = false := by
  rcases value with _ | _ | _ | _ | items | _
  · exact absurd rfl hn
  · rfl
  · rfl
  · rfl
  · cases items <;> simp [isSilent, hp]
  · rfl

theorem isSilent_nullable (hk : key ∈ nullableKeys) (hp : key ∉ policyKeys) (value : Json) :
    isSilent key value = false := by
  by_cases hn : value = .null
  · subst hn
    simp [isSilent, hk]
  · exact isSilent_eq_false hn hp

/-! ### What is said under a key -/

theorem said_must {read : Written → Reading α} {toJson : α → Json} {a : α}
    (hr : ∀ value ∈ get? key members, read value.written = .ok a → f key value = toJson a)
    (hs : isSilent key (toJson a) = false)
    (h : Must read ((get? key members).map Json.written) a) :
    said f members key = some (toJson a) := by
  cases hg : get? key members with
  | none => simp [hg, Must] at h
  | some value =>
    rw [hg] at h
    simp [said, hg, hr value hg h, hs]

theorem said_may {read : Written → Reading α} {toJson : α → Json} {o : Option α}
    (hr : ∀ value ∈ get? key members, ∀ a, read value.written = .ok a → f key value = toJson a)
    (hs : ∀ a ∈ o, isSilent key (toJson a) = false)
    (h : May read ((get? key members).map Json.written) o) :
    said f members key = o.map toJson := by
  cases hg : get? key members with
  | none =>
    rw [hg] at h
    obtain rfl : o = none := h
    simp [said, hg]
  | some value =>
    rw [hg] at h
    obtain ⟨a, ha, rfl⟩ := h
    simp [said, hg, hr value hg a ha, hs a rfl]

theorem said_maybe {read : Written → Reading α} {toJson : α → Json} {o : Option α}
    (hf : f key .null = .null) (hk : key ∉ nullableKeys)
    (hr : ∀ value ∈ get? key members, ∀ a, read value.written = .ok a → f key value = toJson a)
    (hs : ∀ a ∈ o, isSilent key (toJson a) = false)
    (h : Maybe read ((get? key members).map Json.written) o) :
    said f members key = o.map toJson := by
  cases hg : get? key members with
  | none =>
    rw [hg] at h
    obtain rfl : o = none := h
    simp [said, hg]
  | some value =>
    rw [hg, Option.map_some] at h
    by_cases hn : value = .null
    · subst hn
      -- null is read as if nothing stood there, and it is dropped
      obtain rfl : o = none := h
      simp [said, hg, hf, isSilent, hk]
    · have found : ∃ a, read value.written = .ok a ∧ o = some a := by
        cases value <;> first | exact absurd rfl hn | exact h
      obtain ⟨a, ha, rfl⟩ := found
      simp [said, hg, hr value hg a ha, hs a rfl]

/-- The items of an array that is read as a list have their normal forms. -/
theorem items_eq {read : Written → Reading α} {g : Json → Json} {toJson : β → Json} {h : β → α}
    {items : List Json} {bs : List β}
    (hr : ∀ item ∈ items, ∀ b ∈ bs, read item.written = .ok (h b) → g item = toJson b)
    (hl : list read (Json.array items).written = .ok (bs.map h)) :
    items.map g = bs.map toJson := by
  rw [Json.written, list_eq_ok] at hl
  obtain ⟨_, he, hl⟩ := hl
  obtain rfl := (Written.array.inj he).1
  clear he
  rw [Json.writtenItems_eq_map, List.forall₂_map_left_iff, List.forall₂_map_right_iff] at hl
  induction hl with
  | nil => rfl
  | @cons item b items bs hb _ ih =>
    have first := hr item List.mem_cons_self b List.mem_cons_self hb
    have rest := ih fun item hi b hb =>
      hr item (List.mem_cons_of_mem _ hi) b (List.mem_cons_of_mem _ hb)
    rw [List.map_cons, List.map_cons, first, rest]

/-- What is read as a list is an array. -/
theorem array_of_list {read : Written → Reading α} {value : Json} {as : List α}
    (h : list read value.written = .ok as) : ∃ items, value = .array items := by
  cases value with
  | array items => exact ⟨items, rfl⟩
  | _ => cases h

theorem said_listed {read : Written → Reading α} {g : Json → Json} {toJson : β → Json} {h : β → α}
    {bs : List β} (hk : key ∈ policyKeys)
    (hf : ∀ items, f key (.array items) = .array (items.map g))
    (hr : ∀ items, get? key members = some (.array items) → ∀ item ∈ items, ∀ b ∈ bs,
      read item.written = .ok (h b) → g item = toJson b)
    (hl : Listed read ((get? key members).map Json.written) (bs.map h)) :
    said f members key = Members.listed toJson bs := by
  cases hg : get? key members with
  | none =>
    rw [hg] at hl
    obtain rfl : bs = [] := List.map_eq_nil_iff.mp hl
    simp [said, hg, Members.listed]
  | some value =>
    rw [hg] at hl
    obtain ⟨items, rfl⟩ := array_of_list hl
    have same := items_eq (hr items hg) hl
    rw [said, hg, Option.bind_some, hf, same]
    cases bs <;> simp [isSilent, Members.listed, hk]

/-! ### Texts, numbers and paths -/

theorem written_eq_string {value : Json} {text : String} (h : value.written = .string text) :
    value = .string text := by
  cases value <;> simp_all [Json.written]

theorem written_eq_bool {value : Json} {b : Bool} (h : value.written = .bool b) :
    value = .bool b := by
  cases value <;> simp_all [Json.written]

theorem written_eq_number {value : Json} {n : Json.Number} (h : value.written = .number n) :
    value = .number n := by
  cases value <;> simp_all [Json.written]

theorem text_written_eq_ok {value : Json} {s : String} :
    text value.written = .ok s ↔ value = .string s :=
  text_eq_ok.trans ⟨written_eq_string, fun h => h ▸ rfl⟩

theorem flag_written_eq_ok {value : Json} {b : Bool} :
    flag value.written = .ok b ↔ value = .bool b :=
  flag_eq_ok.trans ⟨written_eq_bool, fun h => h ▸ rfl⟩

theorem natural32_written_eq_ok {value : Json} {n : UInt32} :
    natural32 value.written = .ok n ↔ value = natural32Json n :=
  natural32_eq_ok.trans ⟨written_eq_number, fun h => h ▸ rfl⟩

theorem natural64_written_eq_ok {value : Json} {n : UInt64} :
    natural64 value.written = .ok n ↔ value = .number (.whole (.ofUInt64 n)) :=
  natural64_eq_ok.trans ⟨written_eq_number, fun h => h ▸ rfl⟩

theorem double_written_eq_ok {value : Json} {x : Double} :
    Document.double value.written = .ok x ↔ ∃ n, value = .number n ∧ n.toDouble = x := by
  rw [double_eq_ok]
  constructor
  · rintro ⟨n, hw, hx⟩
    exact ⟨n, written_eq_number hw, hx⟩
  · rintro ⟨n, rfl, hx⟩
    exact ⟨n, rfl, hx⟩

theorem selector_written_eq_ok {value : Json} {s : Selector} :
    selector value.written = .ok s ↔ value = s.toJson := by
  rw [selector_eq_ok]
  constructor
  · intro h
    cases s with
    | path text => exact written_eq_string h
    | discard => cases value <;> simp_all [Json.written, Selector.toJson]
  · rintro rfl
    rfl

theorem anything_written_eq_ok {value a : Json} (hd : value.Distinct) :
    anything value.written = .ok a ↔ value = a := by
  rw [anything_written hd, Except.ok.injEq]

theorem list_text_written_eq_ok {value : Json} {names : List String}
    (h : list text value.written = .ok names) : value = errorsJson names := by
  obtain ⟨items, rfl⟩ := array_of_list h
  rw [← List.map_id names] at h
  have same : items.map id = names.map Json.string :=
    items_eq (fun item _ name _ hr => text_written_eq_ok.mp hr) h
  rw [List.map_id] at same
  rw [errorsJson, same]

/-! ### Fields that are kept as they are -/

section

variable (hf : ∀ value, f key value = value)

include hf

theorem said_text {s : String} (h : Must text ((get? key members).map Json.written) s) :
    said f members key = some (.string s) :=
  said_must (fun v _ hv => (hf v).trans (text_written_eq_ok.mp hv)) rfl h

theorem said_optional_text {o : Option String} (hk : key ∉ nullableKeys)
    (h : Maybe text ((get? key members).map Json.written) o) :
    said f members key = o.map .string :=
  said_maybe (hf _) hk (fun v _ _ hv => (hf v).trans (text_written_eq_ok.mp hv)) (fun _ _ => rfl) h

theorem said_flag {o : Option Bool} (hk : key ∉ nullableKeys)
    (h : Maybe flag ((get? key members).map Json.written) o) :
    said f members key = o.map .bool :=
  said_maybe (hf _) hk (fun v _ _ hv => (hf v).trans (flag_written_eq_ok.mp hv)) (fun _ _ => rfl) h

theorem said_natural32 {o : Option UInt32} (hk : key ∉ nullableKeys)
    (h : Maybe natural32 ((get? key members).map Json.written) o) :
    said f members key = o.map natural32Json :=
  said_maybe (hf _) hk (fun v _ _ hv => (hf v).trans (natural32_written_eq_ok.mp hv))
    (fun _ _ => rfl) h

theorem said_natural64 {o : Option UInt64} (hk : key ∉ nullableKeys)
    (h : Maybe natural64 ((get? key members).map Json.written) o) :
    said f members key = o.map fun n => .number (.whole (.ofUInt64 n)) :=
  said_maybe (hf _) hk (fun v _ _ hv => (hf v).trans (natural64_written_eq_ok.mp hv))
    (fun _ _ => rfl) h

theorem said_selector {o : Option Selector} (hk : key ∈ nullableKeys) (hp : key ∉ policyKeys)
    (h : May selector ((get? key members).map Json.written) o) :
    said f members key = o.map Selector.toJson :=
  said_may (fun v _ _ hv => (hf v).trans (selector_written_eq_ok.mp hv))
    (fun _ _ => isSilent_nullable hk hp _) h

theorem said_anything {o : Option Json} (hd : Json.DistinctMembers members)
    (hs : ∀ value ∈ o, isSilent key value = false)
    (h : May anything ((get? key members).map Json.written) o) :
    said f members key = o.map id :=
  said_may (fun v hg _ hv => (hf v).trans ((anything_written_eq_ok (hd.of_get? key hg)).mp hv)) hs h

theorem said_errors {names : List String} (hp : key ∉ policyKeys)
    (h : Must (list text) ((get? key members).map Json.written) names) :
    said f members key = some (errorsJson names) :=
  said_must (fun v _ hv => (hf v).trans (list_text_written_eq_ok hv))
    (isSilent_eq_false nofun hp) h

end

/-- The keys that say where control goes are written for the transition that was read from
them. -/
theorem said_exit (hf : ∀ key ∈ ["Next", "End"], ∀ value, f key value = value) {t : Transition}
    (hn : Maybe text ((get? "Next" members).map Json.written) (Exit.ofTransition t).next)
    (he : Maybe flag ((get? "End" members).map Json.written) (Exit.ofTransition t).finish) :
    Members.optional "Next" id (said f members "Next") ++
      Members.optional "End" id (said f members "End") = t.toMembers := by
  rw [said_optional_text (hf "Next" (by simp)) (by decide) hn,
    said_flag (hf "End" (by simp)) (by decide) he]
  cases t <;> rfl

/-! ### Policies -/

theorem keysIn_of_written {names : List String}
    (h : Shape.KeysIn names (Json.writtenMembers members)) : Shape.KeysIn names members := by
  obtain ⟨hn, hk⟩ := h
  rw [Json.map_fst_writtenMembers] at hn hk
  exact ⟨hn, hk⟩

/-- The object of a retrier that was read has the retrier for its normal form. -/
theorem retrier_eq {value : Json} (ho : IsObject value) {r : Retrier}
    (hx : ∀ x ∈ r.backoffRate, x.isFinite = true)
    (h : retrierShape.read value.written = .ok r) : retrier value = r.toJson := by
  obtain ⟨members, rfl⟩ := ho
  rw [Shape.read_object] at h
  obtain ⟨keys, fields⟩ := ofMembers_retrierShape.mp h
  simp only [retrierRead_iff, Json.get?_writtenMembers] at fields
  obtain ⟨errors, interval, attempts, backoff⟩ := fields
  have other (key : String) (hk : key ≠ "BackoffRate") (v : Json) : retrierMember key v = v :=
    if_neg hk
  -- the rate alone is not written as it was: whatever number it is becomes a double
  have rate : said retrierMember members "BackoffRate" = r.backoffRate.map Datum.ofDouble := by
    refine said_maybe rfl (by decide) (fun v _ x hv => ?_) (fun x hm => ?_) backoff
    · obtain ⟨n, rfl, rfl⟩ := double_written_eq_ok.mp hv
      rfl
    · cases x with
      | finite x => rfl
      | _ => cases hx _ hm
  have known : Shape.KeysIn retrierKeys members := keysIn_of_written keys
  rw [retrier, object_rewrite known (by decide) (.refl _)]
  simp [retrierKeys, said_errors (other _ (by simp)) (by decide) errors,
    said_natural32 (other _ (by simp)) (by decide) interval,
    said_natural32 (other _ (by simp)) (by decide) attempts, rate, Retrier.toJson,
    Retrier.toMembers]

/-- The object of a catcher that was read has the catcher for its normal form. -/
theorem catcher_eq {value : Json} (ho : IsObject value) {c : Workflow.Catcher}
    (h : catcherShape.read value.written = .ok c.toDocument) : catcher value = c.toJson := by
  obtain ⟨members, rfl⟩ := ho
  rw [Shape.read_object] at h
  obtain ⟨keys, fields⟩ := ofMembers_catcherShape.mp h
  simp only [catcherRead_iff, exitRead_iff, Json.get?_writtenMembers] at fields
  obtain ⟨errors, path, next, finish⟩ := fields
  have same (key : String) (v : Json) : keep key v = v := rfl
  have known : Shape.KeysIn catcherKeys members := keysIn_of_written keys
  rw [catcher, ← rewrite_keep members, object_rewrite known (by decide) (.refl _)]
  simp [catcherKeys, said_errors (same _) (by decide) errors,
    said_selector (same _) (by decide) (by decide) path,
    said_exit (fun _ _ => same _) next finish, Catcher.toJson, Catcher.toMembers,
    Catcher.toDocument]

end NormalForm

end Workflow
