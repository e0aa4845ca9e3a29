import Workflow.Document.Shape
import Workflow.Proofs.Results

/-!
# Reading the members of an object

The members of an object are read one by one, in the order of the text. What is read does not
depend on that order: a document is read exactly when no key is repeated, every key is one of a
field, no required field is missing, and the fields can be read in the order of the shape, each
from the member with its name.

## Main definitions

* `Field.Commutes`: two fields can be read in either order
* `Shape.collect`: the document of the values found under the names of the fields
* `Shape.Completes`: members that can stand behind those that have been read
* `Must`, `May`, `Maybe`: what is read from a value that must be there or may be absent

## Main results

* `Shape.ofMembers_eq_ok`: reading an object does not depend on the order of its members
-/

namespace Workflow

namespace Json

variable {α : Type}

theorem get?_eq_none {key : String} {members : List (String × α)} :
    get? key members = none ↔ key ∉ members.map Prod.fst := by
  induction members with
  | nil => simp [get?]
  | cons member members ih =>
    obtain ⟨k, v⟩ := member
    by_cases h : k = key
    · simp [get?, h]
    · simp [get?, h, ih, Ne.symm h]

end Json

namespace Document

variable {α β δ : Type}

namespace Field

/-- The field is read independently of the document, and then put into it. -/
class Sets (f : Field δ) (α : outParam Type) (set : outParam (α → δ → δ)) : Prop where
  exists_read : ∃ r : Written → Reading α, ∀ w d, f.read w d = (r w).map fun a => set a d

instance (name : String) (read : Written → Reading α) (set : α → δ → δ) :
    Sets (must name read set) α set :=
  ⟨read, fun _ _ => rfl⟩

instance (name : String) (read : Written → Reading α) (set : Option α → δ → δ) :
    Sets (may name read set) (Option α) set :=
  ⟨fun w => (read w).map some, fun w d => by simp only [may]; cases read w <;> rfl⟩

instance (name : String) (read : Written → Reading α) (set : Option α → δ → δ) :
    Sets (maybe name read set) (Option α) set :=
  ⟨fun w => match w with
    | .null => .ok none
    | w => (read w).map some,
   fun w d => by
    cases w with
    | null => rfl
    | _ => simp only [maybe]; cases read _ <;> rfl⟩

instance (name : String) (read : Written → Reading α) (set : List α → δ → δ) :
    Sets (listed name read set) (List α) set :=
  ⟨list read, fun _ _ => rfl⟩

/-- Two fields can be read in either order. -/
def Commutes (f g : Field δ) : Prop :=
  ∀ v w d x, (f.read v d >>= g.read w) = .ok x ↔ (g.read w d >>= f.read v) = .ok x

/-- Fields can be read in either order when they are put into different parts of a document. -/
theorem commutes {f g : Field δ} {s : α → δ → δ} {t : β → δ → δ} [hf : Sets f α s]
    [hg : Sets g β t] (h : ∀ a b d, t b (s a d) = s a (t b d)) : Commutes f g := by
  obtain ⟨r, hr⟩ := hf
  obtain ⟨q, hq⟩ := hg
  intro v w d x
  simp only [bind_eq_ok, hr, hq, map_eq_ok]
  constructor
  · rintro ⟨-, ⟨a, ha, rfl⟩, b, hb, rfl⟩
    exact ⟨_, ⟨b, hb, rfl⟩, a, ha, (h a b d).symm⟩
  · rintro ⟨-, ⟨b, hb, rfl⟩, a, ha, rfl⟩
    exact ⟨_, ⟨a, ha, rfl⟩, b, hb, h a b d⟩

end Field

namespace Shape

/-- The document of the values that are found under the names of fields, read in the order of the
fields. -/
def collect (lookup : String → Option Written) : List (Field δ) → δ → Reading δ
  | [], d => .ok d
  | f :: fields, d =>
    match lookup f.name with
    | none => collect lookup fields d
    | some w => do
      let d ← f.read w d
      collect lookup fields d

theorem collect_congr {lookup lookup' : String → Option Written} {fields : List (Field δ)}
    (h : ∀ f ∈ fields, lookup f.name = lookup' f.name) (d : δ) :
    collect lookup fields d = collect lookup' fields d := by
  induction fields generalizing d with
  | nil => rfl
  | cons f fields ih =>
    have ih' := ih fun g hg => h g (List.mem_cons_of_mem f hg)
    simp only [collect, h f List.mem_cons_self, ih']

/-- A value can be read before all others instead of in its turn. -/
theorem collect_cons {lookup lookup' : String → Option Written} {f : Field δ} {w : Written}
    {fields : List (Field δ)} (hc : fields.Pairwise Field.Commutes)
    (hn : (fields.map Field.name).Nodup) (hf : f ∈ fields) (hw : lookup f.name = some w)
    (hw' : lookup' f.name = none)
    (hl : ∀ name, name ≠ f.name → lookup name = lookup' name) (d x : δ) :
    collect lookup fields d = .ok x ↔ (f.read w d >>= collect lookup' fields) = .ok x := by
  induction fields generalizing d with
  | nil => simp at hf
  | cons g fields ih =>
    obtain ⟨hg, hn⟩ := List.nodup_cons.mp hn
    obtain ⟨hgc, hc⟩ := List.pairwise_cons.mp hc
    -- the fields in front commute with this one, so its member can be read before theirs
    rcases List.mem_cons.mp hf with rfl | hf
    · have others : ∀ h ∈ fields, lookup h.name = lookup' h.name := fun h hh =>
        hl h.name fun he => hg (he ▸ List.mem_map_of_mem hh)
      have he : ∀ d, collect lookup' (f :: fields) d = collect lookup fields d := fun d => by
        simp only [collect, hw', collect_congr others]
      simp only [funext he]
      simp only [collect, hw]
    · have hne : g.name ≠ f.name := fun he => hg (he ▸ List.mem_map_of_mem hf)
      simp only [collect, hl g.name hne]
      cases lookup' g.name with
      | none => exact ih hc hn hf d
      | some v =>
        simp only [bind_eq_ok] at ih ⊢
        simp only [ih hc hn hf]
        have swap := hgc f hf v w d
        simp only [bind_eq_ok] at swap
        constructor
        · rintro ⟨d₁, h₁, d₂, h₂, hx⟩
          obtain ⟨d₃, h₃, h₄⟩ := (swap d₂).mp ⟨d₁, h₁, h₂⟩
          exact ⟨d₃, h₃, d₂, h₄, hx⟩
        · rintro ⟨d₃, h₃, d₂, h₄, hx⟩
          obtain ⟨d₁, h₁, h₂⟩ := (swap d₂).mpr ⟨d₃, h₃, h₄⟩
          exact ⟨d₁, h₁, d₂, h₂, hx⟩

/-- The first of some members can be read first. -/
theorem collect_cons_member {fields : List (Field δ)} (hc : fields.Pairwise Field.Commutes)
    (hn : (fields.map Field.name).Nodup) {f : Field δ} (hf : f ∈ fields) {key : String}
    (hname : f.name = key) (value : Written) {members : List (String × Written)}
    (hk : key ∉ members.map Prod.fst) (d x : δ) :
    collect (fun name => Json.get? name ((key, value) :: members)) fields d = .ok x ↔
      (f.read value d >>= collect (fun name => Json.get? name members) fields) = .ok x := by
  subst hname
  apply collect_cons hc hn hf
  · simp [Json.get?]
  · exact Json.get?_eq_none.mpr hk
  · intro name hne
    simp [Json.get?, Ne.symm hne]

/-- The fields of a shape have different names and can be read in any order. -/
structure Regular (shape : Shape δ) : Prop where
  commutes : shape.fields.Pairwise Field.Commutes
  names_nodup : (shape.fields.map Field.name).Nodup

theorem missing?_eq_none {shape : Shape δ} {seen : List String} :
    shape.missing? seen = none ↔ ∀ f ∈ shape.fields, f.required = true → f.name ∈ seen := by
  simp [missing?]

theorem collect_get?_nil (fields : List (Field δ)) (d : δ) :
    collect (fun name => Json.get? name []) fields d = .ok d := by
  induction fields with
  | nil => rfl
  | cons f fields ih => simpa [collect, Json.get?] using ih

/-- The keys of an object are among some names, and none is repeated. -/
structure KeysIn (names : List String) (members : List (String × α)) : Prop where
  nodup : (members.map Prod.fst).Nodup
  known : ∀ key ∈ members.map Prod.fst, key ∈ names

/-- Some members complete those whose keys have been seen before them: they repeat none of these,
and all required fields are among both. -/
structure Completes (shape : Shape δ) (seen : List String) (members : List (String × α)) :
    Prop where
  keys : KeysIn (shape.fields.map Field.name) members
  fresh : ∀ key ∈ members.map Prod.fst, key ∉ seen
  required : ∀ f ∈ shape.fields, f.required = true → f.name ∈ seen ∨ f.name ∈ members.map Prod.fst

theorem completes_nil {shape : Shape δ} {seen : List String} :
    shape.Completes seen ([] : List (String × α)) ↔ shape.missing? seen = none := by
  rw [missing?_eq_none]
  constructor
  · intro h f hf hr
    exact (h.required f hf hr).resolve_right List.not_mem_nil
  · intro h
    exact ⟨⟨List.nodup_nil, nofun⟩, nofun, fun f hf hr => .inl (h f hf hr)⟩

/-- The first member is checked against those before it, and is then one of them. -/
theorem completes_cons {shape : Shape δ} {seen : List String} {key : String} {value : α}
    {members : List (String × α)} (hk : key ∈ shape.fields.map Field.name) :
    shape.Completes seen ((key, value) :: members) ↔
      key ∉ seen ∧ key ∉ members.map Prod.fst ∧ shape.Completes (key :: seen) members := by
  constructor
  · rintro ⟨⟨nodup, known⟩, fresh, required⟩
    rw [List.map_cons] at nodup known fresh
    obtain ⟨once, nodup⟩ := List.nodup_cons.mp nodup
    obtain ⟨first, fresh⟩ := List.forall_mem_cons.mp fresh
    refine ⟨first, once, ⟨nodup, (List.forall_mem_cons.mp known).2⟩, fun k hm => ?_, ?_⟩
    · exact List.not_mem_cons_of_ne_of_not_mem (fun he => once (he ▸ hm)) (fresh k hm)
    · intro f hf hr
      rcases required f hf hr with h | h
      · exact .inl (List.mem_cons_of_mem _ h)
      · exact (List.mem_cons.mp h).imp_left fun he : f.name = key => he ▸ List.mem_cons_self
  · rintro ⟨first, once, ⟨nodup, known⟩, fresh, required⟩
    refine ⟨⟨List.nodup_cons.mpr ⟨once, nodup⟩, List.forall_mem_cons.mpr ⟨hk, known⟩⟩, ?_, ?_⟩
    · exact List.forall_mem_cons.mpr ⟨first, fun k hm => List.not_mem_of_not_mem_cons (fresh k hm)⟩
    · intro f hf hr
      rw [List.map_cons, List.mem_cons]
      rcases required f hf hr with h | h
      · exact (List.mem_cons.mp h).symm.imp_right .inl
      · exact .inr (.inr h)

/-- The members that are still to be read can be read in the order of the fields. -/
theorem readMembers_eq_ok {shape : Shape δ} (hs : shape.Regular) {seen : List String}
    {members : List (String × Written)} {d x : δ} :
    shape.readMembers seen d members none = .ok x ↔ shape.Completes seen members ∧
      collect (fun name => Json.get? name members) shape.fields d = .ok x := by
  induction members generalizing seen d with
  | nil =>
    rw [collect_get?_nil, completes_nil, readMembers]
    cases shape.missing? seen <;> simp
  | cons member members ih =>
    obtain ⟨key, value⟩ := member
    rw [readMembers]
    cases hf : shape.fields.find? fun f => f.name == key with
    | none =>
      have unknown : key ∉ shape.fields.map Field.name := by simpa using hf
      have incomplete : ¬shape.Completes seen ((key, value) :: members) :=
        fun h => unknown (h.keys.known key List.mem_cons_self)
      simp [incomplete]
    | some f =>
      obtain ⟨hname, hmem⟩ : f.name = key ∧ f ∈ shape.fields :=
        ⟨by simpa using List.find?_some hf, List.mem_of_find?_eq_some hf⟩
      rw [completes_cons (hname ▸ List.mem_map_of_mem hmem)]
      by_cases again : key ∈ seen
      · simp [again]
      -- the member is the first to be read, whatever place its field has
      have first (once : key ∉ members.map Prod.fst) :=
        collect_cons_member hs.commutes hs.names_nodup hmem hname value once d x
      simp only [bind_eq_ok] at first
      have unseen : seen.contains key = false := by simpa using again
      simp only [unseen, Bool.false_eq_true, if_false, bind_eq_ok, ih]
      constructor
      · rintro ⟨d', read, complete, hx⟩
        have once : key ∉ members.map Prod.fst :=
          fun hm => complete.fresh key hm List.mem_cons_self
        exact ⟨⟨again, once, complete⟩, (first once).mpr ⟨d', read, hx⟩⟩
      · rintro ⟨⟨-, once, complete⟩, hx⟩
        obtain ⟨d', read, hx⟩ := (first once).mp hx
        exact ⟨d', read, complete, hx⟩

/-- The document of the values that are found under the names of fields, all required ones
among them. -/
def assemble (lookup : String → Option Written) : List (Field δ) → δ → Reading δ
  | [], d => .ok d
  | f :: fields, d =>
    match lookup f.name with
    | none => if f.required then .error (.missingField f.name) else assemble lookup fields d
    | some w => do
      let d ← f.read w d
      assemble lookup fields d

theorem assemble_eq_ok {lookup : String → Option Written} {fields : List (Field δ)} {d x : δ} :
    assemble lookup fields d = .ok x ↔
      (∀ f ∈ fields, f.required = true → (lookup f.name).isSome) ∧
        collect lookup fields d = .ok x := by
  induction fields generalizing d with
  | nil => simp [assemble, collect]
  | cons f fields ih =>
    rw [assemble, collect, List.forall_mem_cons]
    cases lookup f.name with
    | none => cases f.required <;> simp [ih]
    | some w => simp [ih, ← and_assoc, and_comm]

/-- Reading an object does not depend on the order of its members. -/
theorem ofMembers_eq_ok {shape : Shape δ} (hs : shape.Regular)
    {members : List (String × Written)} {x : δ} :
    shape.ofMembers members none = .ok x ↔ KeysIn (shape.fields.map Field.name) members ∧
      assemble (fun name => Json.get? name members) shape.fields shape.blank = .ok x := by
  have present (name : String) :
      (Json.get? name members).isSome ↔ name ∈ members.map Prod.fst := by
    rw [Option.isSome_iff_ne_none, Ne, Json.get?_eq_none, Decidable.not_not]
  simp only [ofMembers, readMembers_eq_ok hs, assemble_eq_ok, present]
  constructor
  · rintro ⟨⟨keys, -, required⟩, hx⟩
    exact ⟨keys, fun f hf hr => (required f hf hr).resolve_left List.not_mem_nil, hx⟩
  · rintro ⟨keys, required, hx⟩
    exact ⟨⟨keys, fun _ _ => List.not_mem_nil, fun f hf hr => .inr (required f hf hr)⟩, hx⟩

end Shape

/-! ### What the fields of a shape are read from -/

/-- A value that must be there is read. -/
def Must (read : Written → Reading α) : Option Written → α → Prop
  | none, _ => False
  | some w, a => read w = .ok a

/-- A value that may be absent is read if it is there. -/
def May (read : Written → Reading α) : Option Written → Option α → Prop
  | none, o => o = none
  | some w, o => ∃ a, read w = .ok a ∧ o = some a

/-- A value that may be absent or null is read if it is there and not null. -/
def Maybe (read : Written → Reading α) : Option Written → Option α → Prop
  | none, o | some .null, o => o = none
  | some w, o => ∃ a, read w = .ok a ∧ o = some a

/-- The items of a list that may be absent are read, if it is there. -/
def Listed (read : Written → Reading α) : Option Written → List α → Prop
  | none, as => as = []
  | some w, as => list read w = .ok as

namespace Shape

variable {lookup : String → Option Written} {fields : List (Field δ)} {d x : δ}

@[simp]
theorem assemble_nil : assemble lookup [] d = .ok x ↔ d = x := by
  simp [assemble]

theorem assemble_must {name : String} {read : Written → Reading α} {set : α → δ → δ} :
    assemble lookup (.must name read set :: fields) d = .ok x ↔
      ∃ a, Must read (lookup name) a ∧ assemble lookup fields (set a d) = .ok x := by
  cases h : lookup name with
  | none => simp [assemble, Field.must, h, Must]
  | some w => simp [assemble, Field.must, h, Must]

theorem assemble_may {name : String} {read : Written → Reading α} {set : Option α → δ → δ}
    (hd : set none d = d) :
    assemble lookup (.may name read set :: fields) d = .ok x ↔
      ∃ o, May read (lookup name) o ∧ assemble lookup fields (set o d) = .ok x := by
  cases h : lookup name with
  | none => simp [assemble, Field.may, h, May, hd]
  | some w => simp [assemble, Field.may, h, May, Option.exists]

theorem assemble_maybe {name : String} {read : Written → Reading α} {set : Option α → δ → δ}
    (hd : set none d = d) :
    assemble lookup (.maybe name read set :: fields) d = .ok x ↔
      ∃ o, Maybe read (lookup name) o ∧ assemble lookup fields (set o d) = .ok x := by
  cases h : lookup name with
  | none => simp [assemble, Field.maybe, h, Maybe, hd]
  | some w => cases w <;> simp [assemble, Field.maybe, h, Maybe, Option.exists]

theorem assemble_listed {name : String} {read : Written → Reading α} {set : List α → δ → δ}
    (hd : set [] d = d) :
    assemble lookup (.listed name read set :: fields) d = .ok x ↔
      ∃ as, Listed read (lookup name) as ∧ assemble lookup fields (set as d) = .ok x := by
  cases h : lookup name with
  | none => simp [assemble, Field.listed, h, Listed, hd]
  | some w => simp [assemble, Field.listed, h, Listed]

end Shape

end Document

end Workflow
