import Workflow.Proofs.NormalRules

/-!
# The grammar of conditions

Which objects are conditions, said without the reader: an object asks for exactly one thing, under
its only key besides that of a path. The reader accepts these objects and no others, and what it
makes of one is the tree that is written there. When that tree is built and written again, the
object comes back, with its keys in order and its numbers and timestamps in canonical form.

## Main definitions

* `IsCondition`: the objects that are conditions
* `Spells`: an object is written for the tree of a draft
* `Json.Respelt`: a value is another one with its keys reordered, its timestamps in canonical form
  and its numbers beyond 64 bits as doubles

## Main results

* `Draft.Condition.ofMembers_eq_ok_iff`: the draft that is read is the one that is written
* `isCondition_iff`: the conditions are the objects that are written for some draft
* `respelt_toMembers`: what is written for a condition is the object it was read from, respelt
* `Draft.Condition.ofMembers_grammar`: what is accepted, what is read, and what is written again
-/

namespace Workflow

open Json (get?)
open Draft (askedKeys)

/-! ### The grammar -/

/-- A value is of a family: a text, any number, the text of a timestamp, or a truth value. -/
def Json.OfFamily : Family → Json → Prop
  | .string, value => ∃ text, value = .string text
  | .numeric, value => ∃ n, value = .number n
  | .timestamp, value => ∃ text t, value = .string text ∧ Timestamp.parse text = .ok t
  | .boolean, value => ∃ b, value = .bool b

/-- An object has exactly one key besides that of a path, and a value under it. -/
structure AsksFor (members : Members) (key : String) (value : Json) : Prop where
  only : askedKeys members = [key]
  found : get? key members = some value

/-- No path is given in an object. -/
def Bare (members : Members) : Prop := "Variable" ∉ members.map Prod.fst

/-- The objects that are conditions: a combination is a list of conditions, a negation is a
condition, and neither has a path; a comparison has a path and a value of the family of its
comparator. -/
inductive IsCondition : Members → Prop
  | combination {members : Members} {key : String} {items : List Json}
      (asks : AsksFor members key (.array items)) (word : key = "And" ∨ key = "Or")
      (bare : Bare members) (objects : ∀ item ∈ items, ∃ part, item = .object part)
      (parts : ∀ part, .object part ∈ items → IsCondition part) : IsCondition members
  | negation {members part : Members} (asks : AsksFor members "Not" (.object part))
      (bare : Bare members) (negated : IsCondition part) : IsCondition members
  | comparison {members : Members} {c : Comparator} {path : String} {value : Json}
      (asks : AsksFor members c.key value) (subject : get? "Variable" members = some (.string path))
      (family : value.OfFamily c.family) : IsCondition members

/-! ### The tree that is written -/

/-- A value denotes what is compared with. A number is an integer if it is one of 64 bits, and a
double otherwise. -/
inductive Json.Denotes : Family → Json → Expected → Prop
  | string (text : String) : Denotes .string (.string text) (.string text)
  | integer {n : Whole} {i : Int64} (exact : i.toInt = n.val) :
      Denotes .numeric (.number (.whole n)) (.numeric (.integer i))
  | beyond {n : Whole} (wide : 9223372036854775808 ≤ n.val) :
      Denotes .numeric (.number (.whole n)) (.numeric (.double (.ofInt n.val)))
  | real (x : Finite) : Denotes .numeric (.number (.real x)) (.numeric (.double (.finite x)))
  | timestamp {text : String} {t : Timestamp} (read : Timestamp.parse text = .ok t) :
      Denotes .timestamp (.string text) (.timestamp t)
  | boolean (b : Bool) : Denotes .boolean (.bool b) (.boolean b)

mutual

/-- An object is written for the tree of a draft. -/
def Spells (members : Members) : Draft.Condition → Prop
  | .comparison operator path expected =>
    ∃ c value, AsksFor members (Comparator.key c) value ∧
      get? "Variable" members = some (.string path) ∧ c.operator = operator ∧
      value.Denotes c.family expected
  | .and parts => Bare members ∧ ∃ items, AsksFor members "And" (.array items) ∧
      SpellsParts items parts
  | .or parts => Bare members ∧ ∃ items, AsksFor members "Or" (.array items) ∧
      SpellsParts items parts
  | .not part => Bare members ∧ ∃ inner, AsksFor members "Not" (.object inner) ∧
      Spells inner part

/-- Objects are written for the parts of a combination, one for each and in their order. -/
def SpellsParts (items : List Json) : List Draft.Condition → Prop
  | [] => items = []
  | part :: parts => ∃ inner rest, items = .object inner :: rest ∧ Spells inner part ∧
      SpellsParts rest parts

end

/-! ### The object that is written again -/

mutual

/-- A value with every key reordered, every timestamp in canonical form and every number beyond 64
bits as a double. Which texts are timestamps depends on the key that they stand under. -/
inductive Json.Respelt : String → Json → Json → Prop
  | text {key text : String} (plain : ∀ c : Comparator, c.key = key → c.family ≠ .timestamp) :
      Respelt key (.string text) (.string text)
  | timestamp {c : Comparator} {text : String} {t : Timestamp} (moment : c.family = .timestamp)
      (read : Timestamp.parse text = .ok t) : Respelt c.key (.string text) (.string t.text)
  | integer {key : String} {n : Whole} (narrow : n.val < 9223372036854775808) :
      Respelt key (.number (.whole n)) (.number (.whole n))
  | beyond {key : String} {n : Whole} {x : Finite} (wide : 9223372036854775808 ≤ n.val)
      (nearest : Double.ofInt n.val = .finite x) :
      Respelt key (.number (.whole n)) (.number (.real x))
  | real {key : String} (x : Finite) : Respelt key (.number (.real x)) (.number (.real x))
  | boolean {key : String} (b : Bool) : Respelt key (.bool b) (.bool b)
  | array {key : String} {items items' : List Json} (each : RespeltItems key items items') :
      Respelt key (.array items) (.array items')
  | object {key : String} {members ordered members' : Members} (order : members.Perm ordered)
      (each : RespeltMembers ordered members') : Respelt key (.object members) (.object members')

/-- Items are respelt one by one. -/
inductive Json.RespeltItems : String → List Json → List Json → Prop
  | nil {key : String} : RespeltItems key [] []
  | cons {key : String} {item item' : Json} {items items' : List Json}
      (first : Respelt key item item') (rest : RespeltItems key items items') :
      RespeltItems key (item :: items) (item' :: items')

/-- Members keep their keys, and their values are respelt. -/
inductive Json.RespeltMembers : Members → Members → Prop
  | nil : RespeltMembers [] []
  | cons {key : String} {value value' : Json} {members members' : Members}
      (first : Respelt key value value') (rest : RespeltMembers members members') :
      RespeltMembers ((key, value) :: members) ((key, value') :: members')

end

/-! ### Values -/

theorem Json.Whole.toInt64?_eq_none {n : Whole} :
    n.toInt64? = none ↔ 9223372036854775808 ≤ n.val := by
  simp [toInt64?]

/-- The value that is read is the one that is denoted. -/
theorem Expected.ofJson?_eq_some {family : Family} {value : Json} {e : Expected} :
    ofJson? family value = some e ↔ value.Denotes family e := by
  constructor
  · intro h
    unfold ofJson? at h
    split at h
    · obtain rfl := Option.some.inj h
      exact .string _
    -- a whole number is compared as an integer where 64 bits hold it, and as a double elsewhere
    · split at h
      · next i hi =>
        obtain rfl := Option.some.inj h
        obtain rfl := Json.Whole.toInt64?_eq_some.mp hi
        exact .integer rfl
      · next wide =>
        obtain rfl := Option.some.inj h
        exact .beyond (Json.Whole.toInt64?_eq_none.mp wide)
    · obtain rfl := Option.some.inj h
      exact .real _
    · split at h
      · next read =>
        obtain rfl := Option.some.inj h
        exact .timestamp read
      · cases h
    · obtain rfl := Option.some.inj h
      exact .boolean _
    · cases h
  · intro h
    cases h with
    | string | real | boolean => rfl
    | @integer n i exact =>
      have read : n.toInt64? = some i :=
        Json.Whole.toInt64?_eq_some.mpr (Json.Whole.ext exact.symm)
      simp [ofJson?, read]
    | beyond wide => simp [ofJson?, Json.Whole.toInt64?_eq_none.mpr wide]
    | timestamp read => simp [ofJson?, read]

/-- The values of a family are those that denote something. -/
theorem Json.ofFamily_iff {family : Family} {value : Json} :
    value.OfFamily family ↔ ∃ e, value.Denotes family e := by
  constructor
  · intro h
    cases family with
    | string =>
      obtain ⟨text, rfl⟩ := h
      exact ⟨_, .string text⟩
    | numeric =>
      -- every number is read, as an integer or, if it is too great for that, as a double
      obtain ⟨n | x, rfl⟩ := h
      · cases hn : n.toInt64? with
        | none => exact ⟨_, .beyond (Whole.toInt64?_eq_none.mp hn)⟩
        | some i =>
          obtain rfl := Whole.toInt64?_eq_some.mp hn
          exact ⟨_, .integer rfl⟩
      · exact ⟨_, .real x⟩
    | timestamp =>
      obtain ⟨text, t, rfl, read⟩ := h
      exact ⟨_, .timestamp read⟩
    | boolean =>
      obtain ⟨b, rfl⟩ := h
      exact ⟨_, .boolean b⟩
  · rintro ⟨e, h⟩
    cases h with
    | string text => exact ⟨text, rfl⟩
    | @integer n => exact ⟨.whole n, rfl⟩
    | @beyond n => exact ⟨.whole n, rfl⟩
    | real x => exact ⟨.real x, rfl⟩
    | @timestamp text t read => exact ⟨text, t, rfl, read⟩
    | boolean b => exact ⟨b, rfl⟩

/-! ### What is read -/

namespace Draft.Condition

/-- An object is read by the one key it asks under. -/
theorem ofMembers_eq_ok {members : Members} {d : Condition} :
    ofMembers members = .ok d ↔
      ∃ key value, AsksFor members key value ∧
        ofAsked (get? "Variable" members) [(key, value)] = .ok d := by
  constructor
  · intro h
    obtain ⟨key, only⟩ := NormalForm.exists_askedKeys_of_ofMembers h
    obtain ⟨value, found, same⟩ := NormalForm.ofAsked_of_askedKeys only (get? "Variable" members)
    rw [ofMembers, askedOnce, only] at h
    exact ⟨key, value, ⟨only, found⟩, same ▸ h⟩
  · rintro ⟨key, value, ⟨only, found⟩, h⟩
    obtain ⟨value', found', same⟩ := NormalForm.ofAsked_of_askedKeys only (get? "Variable" members)
    obtain rfl := Option.some.inj (found.symm.trans found')
    rw [ofMembers, askedOnce, only]
    exact same.trans h

end Draft.Condition

theorem AsksFor.ne_variable {members : Members} {key : String} {value : Json}
    (h : AsksFor members key value) : key ≠ "Variable" := by
  have asked : key ∈ askedKeys members := by simp [h.only]
  simpa [askedKeys] using (List.mem_filter.mp asked).2

theorem bare_iff {members : Members} : Bare members ↔ get? "Variable" members = none :=
  Json.get?_eq_none.symm

namespace Draft.Condition

mutual

/-- **The draft that is read from an object is the tree that is written there.** -/
theorem ofMembers_eq_ok_iff {members : Members} {d : Condition} :
    ofMembers members = .ok d ↔ Spells members d := by
  rw [ofMembers_eq_ok]
  -- the root of the draft says what the one key must have been, and the parts are smaller drafts
  match d with
  | comparison operator path expected =>
    constructor
    · rintro ⟨key, value, asks, h⟩
      have read := NormalForm.asked_of_ofAsked asks.ne_variable h
      obtain ⟨c, _, _, rfl, subject, denotes, he⟩ := NormalForm.ofComparison_eq_ok.mp read
      obtain ⟨rfl, rfl, rfl⟩ := comparison.inj he
      exact ⟨c, value, asks, subject, rfl, Expected.ofJson?_eq_some.mp denotes⟩
    · rintro ⟨c, value, asks, subject, rfl, denotes⟩
      refine ⟨c.key, value, asks, ?_⟩
      rw [ofAsked, if_neg asks.ne_variable, c.asked_key]
      exact NormalForm.ofComparison_eq_ok.mpr
        ⟨c, path, expected, rfl, subject, Expected.ofJson?_eq_some.mpr denotes, rfl⟩
  | and parts =>
    constructor
    · rintro ⟨key, value, asks, h⟩
      obtain ⟨rfl, bare, hp⟩ := NormalForm.asked_of_ofAsked asks.ne_variable h
      cases value with
      | array items => exact ⟨bare_iff.mpr bare, items, asks, ofItems_eq_ok_iff.mp hp⟩
      | _ => cases hp
    · rintro ⟨bare, items, asks, spelled⟩
      have hp : ofItems "And" 0 items = .ok parts := ofItems_eq_ok_iff.mpr spelled
      refine ⟨"And", .array items, asks, ?_⟩
      simp [ofAsked, Asked.ofKey, bare_iff.mp bare, withoutVariable, ofParts, hp]
  | or parts =>
    constructor
    · rintro ⟨key, value, asks, h⟩
      obtain ⟨rfl, bare, hp⟩ := NormalForm.asked_of_ofAsked asks.ne_variable h
      cases value with
      | array items => exact ⟨bare_iff.mpr bare, items, asks, ofItems_eq_ok_iff.mp hp⟩
      | _ => cases hp
    · rintro ⟨bare, items, asks, spelled⟩
      have hp : ofItems "Or" 0 items = .ok parts := ofItems_eq_ok_iff.mpr spelled
      refine ⟨"Or", .array items, asks, ?_⟩
      simp [ofAsked, Asked.ofKey, bare_iff.mp bare, withoutVariable, ofParts, hp]
  | not part =>
    constructor
    · rintro ⟨key, value, asks, h⟩
      obtain ⟨rfl, bare, hp⟩ := NormalForm.asked_of_ofAsked asks.ne_variable h
      cases value with
      | object inner =>
        exact ⟨bare_iff.mpr bare, inner, asks, ofMembers_eq_ok_iff.mp (mapError_eq_ok.mp hp)⟩
      | _ => cases hp
    · rintro ⟨bare, inner, asks, spelled⟩
      have hp : ofNegated (.object inner) = .ok part :=
        mapError_eq_ok.mpr (ofMembers_eq_ok_iff.mpr spelled)
      refine ⟨"Not", .object inner, asks, ?_⟩
      simp [ofAsked, Asked.ofKey, bare_iff.mp bare, withoutVariable, hp]

theorem ofItems_eq_ok_iff {key : String} {index : Nat} {items : List Json} {ds : List Condition} :
    ofItems key index items = .ok ds ↔ SpellsParts items ds := by
  match ds with
  | [] => cases items <;> simp [ofItems, SpellsParts]
  | d :: ds =>
    cases items with
    | nil => simp [ofItems, SpellsParts]
    | cons item items =>
      simp only [ofItems, bind_eq_ok, Except.ok.injEq, SpellsParts]
      constructor
      · rintro ⟨_, hd, _, hds, he⟩
        obtain ⟨rfl, rfl⟩ := List.cons.inj he
        cases item with
        | object inner =>
          have first := ofMembers_eq_ok_iff.mp (mapError_eq_ok.mp hd)
          exact ⟨inner, items, rfl, first, ofItems_eq_ok_iff.mp hds⟩
        | _ => cases hd
      · rintro ⟨inner, rest, he, first, others⟩
        obtain ⟨rfl, rfl⟩ := List.cons.inj he
        have hd : ofItem key index (.object inner) = .ok d :=
          mapError_eq_ok.mpr (ofMembers_eq_ok_iff.mpr first)
        exact ⟨d, hd, ds, ofItems_eq_ok_iff.mpr others, rfl⟩

end

end Draft.Condition

/-! ### What is accepted -/

/-- Where every part of a list is written for some draft, the list is written for the drafts. -/
theorem exists_spellsParts {items : List Json}
    (h : ∀ item ∈ items, ∃ part d, item = .object part ∧ Spells part d) :
    ∃ ds, SpellsParts items ds := by
  induction items with
  | nil => exact ⟨[], rfl⟩
  | cons item items ih =>
    obtain ⟨part, d, rfl, first⟩ := h item (by simp)
    obtain ⟨ds, rest⟩ := ih fun item hi => h item (by simp [hi])
    exact ⟨d :: ds, part, items, rfl, first, rest⟩

theorem exists_spells {members : Members} (h : IsCondition members) : ∃ d, Spells members d := by
  -- by the grammar: the drafts of the parts are put together in the order of the parts
  induction h with
  | combination asks word bare objects parts ih =>
    obtain ⟨ds, spelled⟩ := exists_spellsParts fun item hi => by
      obtain ⟨part, rfl⟩ := objects item hi
      obtain ⟨d, hd⟩ := ih part hi
      exact ⟨part, d, rfl, hd⟩
    rcases word with rfl | rfl
    · exact ⟨.and ds, bare, _, asks, spelled⟩
    · exact ⟨.or ds, bare, _, asks, spelled⟩
  | negation asks bare negated ih =>
    obtain ⟨d, hd⟩ := ih
    exact ⟨.not d, bare, _, asks, hd⟩
  | @comparison members c path value asks subject family =>
    obtain ⟨e, denotes⟩ := Json.ofFamily_iff.mp family
    exact ⟨.comparison c.operator path e, c, value, asks, subject, rfl, denotes⟩

mutual

theorem isCondition_of_spells {members : Members} {d : Draft.Condition} (h : Spells members d) :
    IsCondition members := by
  match d with
  | .comparison operator path expected =>
    obtain ⟨c, value, asks, subject, -, denotes⟩ := h
    exact .comparison asks subject (Json.ofFamily_iff.mpr ⟨expected, denotes⟩)
  | .and parts =>
    obtain ⟨bare, items, asks, spelled⟩ := h
    have each := isCondition_of_spellsParts spelled
    exact .combination asks (.inl rfl) bare each.1 each.2
  | .or parts =>
    obtain ⟨bare, items, asks, spelled⟩ := h
    have each := isCondition_of_spellsParts spelled
    exact .combination asks (.inr rfl) bare each.1 each.2
  | .not part =>
    obtain ⟨bare, inner, asks, spelled⟩ := h
    exact .negation asks bare (isCondition_of_spells spelled)

theorem isCondition_of_spellsParts {items : List Json} {ds : List Draft.Condition}
    (h : SpellsParts items ds) :
    (∀ item ∈ items, ∃ part, item = .object part) ∧
      ∀ part, .object part ∈ items → IsCondition part := by
  match ds with
  | [] =>
    obtain rfl : items = [] := h
    simp
  | d :: ds =>
    obtain ⟨inner, rest, rfl, first, others⟩ := h
    have one := isCondition_of_spells first
    have each := isCondition_of_spellsParts others
    simp only [List.mem_cons, Json.object.injEq]
    constructor
    · rintro item (rfl | hi)
      · exact ⟨inner, rfl⟩
      · exact each.1 item hi
    · rintro part (rfl | hi)
      · exact one
      · exact each.2 part hi

end

/-- The conditions are the objects that are written for some draft. -/
theorem isCondition_iff {members : Members} : IsCondition members ↔ ∃ d, Spells members d :=
  ⟨exists_spells, fun ⟨_, h⟩ => isCondition_of_spells h⟩

/-! ### What is written again -/

section

variable {members : Members} {key : String} {value : Json}

/-- A bare object has nothing but what it asks for. -/
theorem AsksFor.eq_of_bare (h : AsksFor members key value) (bare : Bare members) :
    members = [(key, value)] := by
  have all : askedKeys members = members.map Prod.fst :=
    List.filter_eq_self.mpr fun k hk => by simpa using fun he : k = "Variable" => bare (he ▸ hk)
  obtain ⟨⟨k, v⟩, rfl, rfl⟩ := List.map_eq_singleton_iff.mp (all.symm.trans h.only)
  obtain rfl : v = value := by simpa [get?] using h.found
  rfl

/-- An object with a path has nothing but the path and what it asks for. -/
theorem AsksFor.perm_of_subject (h : AsksFor members key value) {subject : Json}
    (path : get? "Variable" members = some subject) (hn : (members.map Prod.fst).Nodup) :
    members.Perm [("Variable", subject), (key, value)] := by
  have order := NormalForm.perm_erase path
  -- without the path the object is bare, and still asks for the same
  set rest := Json.erase "Variable" members with hrest
  have keys := order.map Prod.fst
  have bare : Bare rest := (List.nodup_cons.mp (keys.nodup_iff.mp hn)).1
  have asks : AsksFor rest key value := by
    refine ⟨?_, ?_⟩
    · have asked := keys.filter (· ≠ "Variable")
      rw [← askedKeys, h.only] at asked
      simpa [askedKeys] using asked.symm.eq_singleton
    · have found := NormalForm.get?_perm order hn key
      rw [h.found, get?, if_neg h.ne_variable.symm] at found
      exact found.symm
  rwa [asks.eq_of_bare bare] at order

/-- What is written for a value is what denotes it, respelt. -/
theorem Json.Denotes.respelt {c : Comparator} {value : Json} {e : Expected}
    (h : value.Denotes c.family e) (hw : e.Writable) : Respelt c.key value e.toJson := by
  generalize hf : c.family = family at h
  -- a key is that of one comparator, so that it is known which texts are timestamps
  have plain (other : family ≠ .timestamp) (d : Comparator) (same : d.key = c.key) :
      d.family ≠ .timestamp := by
    rw [Comparator.key_injective same, hf]
    exact other
  cases h with
  | string text => exact .text (plain nofun)
  | @integer n i exact =>
    have back : Whole.ofInt64 i = n := Whole.ext exact
    rw [Expected.toJson, back]
    exact .integer (exact ▸ i.toInt_lt)
  | @beyond n wide =>
    cases hx : Double.ofInt n.val with
    | finite x => exact .beyond wide hx
    | _ => simp [Expected.Writable, Numeric.isFinite, Double.isFinite, hx] at hw
  | real x => exact .real x
  | timestamp read => exact .timestamp hf read
  | boolean b => exact .boolean b

end

/-- The key of a path is that of no comparator. -/
theorem Comparator.key_ne_variable (c : Comparator) : c.key ≠ "Variable" := by
  have names : ∀ d ∈ all, d.key ≠ "Variable" := by decide
  exact names c c.mem_all

mutual

/-- What is written for a condition is the object it was read from, respelt. -/
theorem Condition.respelt_toMembers {c : Condition} (hv : c.toDraft.Valid) (ht : c.Typed)
    {members : Members} (h : Spells members c.toDraft) (hd : (Json.object members).Distinct)
    {key : String} : Json.Respelt key (.object members) (.object c.toMembers) := by
  match c with
  | .comparison c =>
    obtain ⟨d, value, asks, subject, same, denotes⟩ := h
    -- the comparator that was asked for is found again by the value and the operator
    have hf : d.family = c.expected.family :=
      (NormalForm.family_of_ofJson? (Expected.ofJson?_eq_some.mpr denotes)).symm
    obtain rfl := NormalForm.comparator_ext (hf.trans ht.symm) same
    refine .object (asks.perm_of_subject subject hd.1) (.cons (.text ?_) (.cons ?_ .nil))
    · exact fun other same => absurd same other.key_ne_variable
    · exact denotes.respelt hv.2.1
  | .and parts =>
    obtain ⟨bare, items, asks, spelled⟩ := h
    have below := hd.2.of_get? "And" asks.found
    have each : Json.RespeltItems "And" items (Condition.toItems parts) :=
      Condition.respelt_toItems hv.2 ht spelled below
    exact .object (.of_eq (asks.eq_of_bare bare)) (.cons (.array each) .nil)
  | .or parts =>
    obtain ⟨bare, items, asks, spelled⟩ := h
    have below := hd.2.of_get? "Or" asks.found
    have each : Json.RespeltItems "Or" items (Condition.toItems parts) :=
      Condition.respelt_toItems hv.2 ht spelled below
    exact .object (.of_eq (asks.eq_of_bare bare)) (.cons (.array each) .nil)
  | .not part =>
    obtain ⟨bare, inner, asks, spelled⟩ := h
    have below := hd.2.of_get? "Not" asks.found
    have one : Json.Respelt "Not" (.object inner) (.object part.toMembers) :=
      respelt_toMembers (c := part) hv ht spelled below
    exact .object (.of_eq (asks.eq_of_bare bare)) (.cons one .nil)

theorem Condition.respelt_toItems {cs : List Condition}
    (hv : Draft.Condition.ValidParts (Condition.toDrafts cs)) (ht : Condition.TypedParts cs)
    {items : List Json} (h : SpellsParts items (Condition.toDrafts cs))
    (hd : Json.DistinctItems items) {key : String} :
    Json.RespeltItems key items (Condition.toItems cs) := by
  match cs with
  | [] =>
    obtain rfl : items = [] := h
    exact .nil
  | c :: cs =>
    obtain ⟨inner, rest, rfl, first, others⟩ := h
    exact .cons (Condition.respelt_toMembers hv.1 ht.1 first hd.1)
      (Condition.respelt_toItems hv.2 ht.2 others hd.2)

end

namespace Draft.Condition

/-- **The grammar of conditions.** The objects that are accepted are the conditions, and what is
read from one is the tree that is written there, with its parts in their order. When that is built,
what is written for it is the object again, up to the order of keys, the canonical form of
timestamps and the numbers beyond 64 bits, which have become doubles. -/
theorem ofMembers_grammar (members : Members) :
    ((∃ d, ofMembers members = .ok d) ↔ IsCondition members) ∧
    (∀ d, ofMembers members = .ok d ↔ Spells members d) ∧
    ((Json.object members).Distinct → ∀ d c, ofMembers members = .ok d → d.build = .ok c →
      ∀ key, Json.Respelt key (.object members) (.object c.toMembers)) := by
  refine ⟨?_, fun d => ofMembers_eq_ok_iff, ?_⟩
  · rw [isCondition_iff]
    exact exists_congr fun d => ofMembers_eq_ok_iff
  · intro distinct d c read built key
    obtain ⟨valid, typed, rfl⟩ := build_eq_ok.mp built
    exact Condition.respelt_toMembers valid typed (ofMembers_eq_ok_iff.mp read) distinct

/-- A condition that is not in canonical form: its keys stand in another order, its number is beyond
64 bits and its timestamp is in another zone. -/
def respellable : Members :=
  [("And", .array [
    .object [
      ("NumericLessThan", .number (.whole ⟨9223372036854775808, by decide, by decide⟩)),
      ("Variable", .string "$.n")],
    .object [("Not", .object [
      ("TimestampEquals", .string "2016-03-14t01:59:00+02:00"),
      ("Variable", .string "$.t")])]])]

theorem exists_built_respellable :
    ∃ d c, ofMembers respellable = .ok d ∧ d.build = .ok c := by
  have both : ((ofMembers respellable).toOption.bind fun d => d.build.toOption).isSome = true := by
    decide +kernel
  cases read : ofMembers respellable with
  | error problem => simp [read, Except.toOption] at both
  | ok d =>
    rw [read] at both
    obtain ⟨c, built⟩ := exists_ok_of_isSome both
    exact ⟨d, c, rfl, built⟩

/-- The condition that is not in canonical form comes back respelt. -/
theorem respelt_respellable :
    IsCondition respellable ∧ ∃ d c, ofMembers respellable = .ok d ∧ d.build = .ok c ∧
      Json.Respelt "Choices" (.object respellable) (.object c.toMembers) := by
  obtain ⟨accepted, -, again⟩ := ofMembers_grammar respellable
  obtain ⟨d, c, read, built⟩ := exists_built_respellable
  have distinct : (Json.object respellable).Distinct := by
    simp [respellable, Json.Distinct, Json.DistinctMembers, Json.DistinctItems]
  exact ⟨accepted.mp ⟨d, read⟩, d, c, read, built, again distinct d c read built "Choices"⟩

end Draft.Condition

end Workflow
