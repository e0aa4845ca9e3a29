import Workflow.Alike
import Workflow.Double.Round

/-!
# JSON values

Objects keep the order of their keys. A whole number between `-2 ^ 63` and `2 ^ 64` is held
exactly; every other number is a finite double, so the two kinds never mix: `1` and `1.0` are
different values.

## Main definitions

* `Json`: values, with objects as lists of members
* `Json.insert`, `Json.get?`: access to the members of an object
* `Json.erase`: removal of a key, which moves the last member into the gap
* `Json.alike`: likeness of values, in which objects have no order
* `Json.Distinct`: no object repeats a key

## Main results

* `keys_insert`: inserting leaves the keys alone or appends one
* `mem_of_get?`, `get?_of_mem`: what is found is there, and is found if no key is repeated
* `get?_insert`: what is found after an insertion
-/

namespace Workflow

namespace Json

/-- A whole number that is held exactly. -/
structure Whole where
  val : Int
  lower : -9223372036854775808 ≤ val
  upper : val < 18446744073709551616
  deriving DecidableEq

/-- The number as a value held exactly, if it is in range. -/
def Whole.ofInt? (n : Int) : Option Whole :=
  if h : -9223372036854775808 ≤ n ∧ n < 18446744073709551616 then some ⟨n, h.1, h.2⟩ else none

/-- A natural number of 64 bits. -/
def Whole.ofUInt64 (n : UInt64) : Whole where
  val := n.toNat
  lower := by omega
  upper := by have := n.toNat_lt; omega

/-- An integer of 64 bits. -/
def Whole.ofInt64 (n : Int64) : Whole where
  val := n.toInt
  lower := n.le_toInt
  upper := by have := n.toInt_lt; omega

/-- The number as an integer of 64 bits, if it is one. -/
def Whole.toInt64? (n : Whole) : Option Int64 :=
  if n.val < 9223372036854775808 then some (Int64.ofInt n.val) else none

/-- The number as a natural number of 64 bits, if it is one. -/
def Whole.toUInt64? (n : Whole) : Option UInt64 :=
  if 0 ≤ n.val then some (UInt64.ofNat n.val.toNat) else none

/-- The number as a natural number of 32 bits, if it is one. -/
def Whole.toUInt32? (n : Whole) : Option UInt32 :=
  if 0 ≤ n.val ∧ n.val < 4294967296 then some (UInt32.ofNat n.val.toNat) else none

/-- A JSON number. -/
inductive Number where
  | whole (n : Whole)
  | real (x : Finite)
  deriving DecidableEq

/-- Numeric equality within each kind of number. -/
def Number.eq : Number → Number → Bool
  | whole m, whole n => m == n
  | real x, real y => x.eq y
  | _, _ => false

/-- The double nearest to a number. -/
def Number.toDouble : Number → Double
  | whole n => .ofInt n.val
  | real x => .finite x

end Json

/-- A JSON value. -/
inductive Json where
  | null
  | bool (value : Bool)
  | number (value : Json.Number)
  | string (value : String)
  | array (items : List Json)
  | object (members : List (String × Json))

namespace Json

variable {α : Type}

/-- The value of the first member with the given key. -/
def get? (key : String) : List (String × α) → Option α
  | [] => none
  | (k, v) :: members => if k = key then some v else get? key members

theorem mem_of_get? {key : String} {value : α} {members : List (String × α)}
    (h : get? key members = some value) : (key, value) ∈ members := by
  induction members with
  | nil => cases h
  | cons member members ih =>
    obtain ⟨k, v⟩ := member
    by_cases hk : k = key
    · subst hk
      obtain rfl : v = value := by simpa [get?] using h
      exact List.mem_cons_self
    · rw [get?, if_neg hk] at h
      exact List.mem_cons_of_mem _ (ih h)

/-- When no key is repeated, every member is the first one of its key. -/
theorem get?_of_mem {key : String} {value : α} {members : List (String × α)}
    (hn : (members.map Prod.fst).Nodup) (h : (key, value) ∈ members) :
    get? key members = some value := by
  induction members with
  | nil => cases h
  | cons member members ih =>
    obtain ⟨k, v⟩ := member
    obtain ⟨hk, hn⟩ := List.nodup_cons.mp hn
    rcases List.mem_cons.mp h with he | h
    · cases he
      rw [get?, if_pos rfl]
    · have hne : k ≠ key := fun he => hk (List.mem_map.mpr ⟨(key, value), h, he.symm⟩)
      rw [get?, if_neg hne, ih hn h]

theorem get?_map {β : Type} (f : α → β) (key : String) (members : List (String × α)) :
    get? key (members.map fun member => (member.1, f member.2)) = (get? key members).map f := by
  induction members with
  | nil => rfl
  | cons member members ih =>
    obtain ⟨k, v⟩ := member
    by_cases h : k = key
    · simp [get?, h]
    · simpa [get?, h] using ih

theorem get?_append (key : String) (xs ys : List (String × α)) :
    get? key (xs ++ ys) = (get? key xs).or (get? key ys) := by
  induction xs with
  | nil => simp [get?]
  | cons x xs ih =>
    obtain ⟨k, v⟩ := x
    by_cases h : k = key
    · simp [get?, h]
    · simp [get?, h, ih]

/-- Without a member of one key, the members of other keys are still found. -/
theorem get?_eraseP_of_ne {key other : String} (h : other ≠ key) (members : List (String × α)) :
    get? other (members.eraseP fun member => member.1 = key) = get? other members := by
  induction members with
  | nil => rfl
  | cons member members ih =>
    obtain ⟨k, v⟩ := member
    by_cases hk : k = key
    · have hne : k ≠ other := fun ho => h (ho.symm.trans hk)
      rw [List.eraseP_cons_of_pos (by simpa using hk), get?, if_neg hne]
    · rw [List.eraseP_cons_of_neg (by simpa using hk), get?, get?, ih]

/-- Gives a key a value: in place when the key is there, at the end otherwise. -/
def insert (key : String) (value : α) : List (String × α) → List (String × α)
  | [] => [(key, value)]
  | (k, v) :: members =>
    if k = key then (key, value) :: members else (k, v) :: insert key value members

/-- Builds members in order; a repeated key keeps its first place and its last value. -/
def merge (members : List (String × α)) : List (String × α) :=
  members.foldl (fun object member => insert member.1 member.2 object) []

/-- Removes a key. The last member takes its place, and the others stay where they are. -/
def erase (key : String) : List (String × α) → List (String × α)
  | [] => []
  | (k, v) :: members =>
    if k = key then
      match members.getLast? with
      | none => []
      | some last => last :: members.dropLast
    else (k, v) :: erase key members

theorem keys_insert (key : String) (value : α) (members : List (String × α)) :
    (insert key value members).map Prod.fst =
      if key ∈ members.map Prod.fst then members.map Prod.fst
      else members.map Prod.fst ++ [key] := by
  induction members with
  | nil => simp [insert]
  | cons member members ih =>
    obtain ⟨k, v⟩ := member
    by_cases h : k = key
    · simp [insert, h]
    · simp only [insert, if_neg h, List.map_cons, ih]
      by_cases hm : key ∈ members.map Prod.fst
      · simp [hm]
      · simp [hm, Ne.symm h]

theorem get?_insert (key other : String) (value : α) (members : List (String × α)) :
    get? other (insert key value members) =
      if key = other then some value else get? other members := by
  induction members with
  | nil => simp [insert, get?]
  | cons member members ih =>
    obtain ⟨k, v⟩ := member
    by_cases h : k = key
    · subst h
      simp only [insert, if_pos, get?]
      split <;> simp_all
    · simp only [insert, if_neg h, get?, ih]
      by_cases ho : k = other
      · subst ho; simp [Ne.symm h]
      · simp [ho]

mutual

/-- Values are alike when they are the same up to the order of members. -/
def alike : Json → Json → Bool
  | null, null => true
  | bool a, bool b => a == b
  | number a, number b => a.eq b
  | string a, string b => a == b
  | array a, array b => alikeItems a b
  | object a, object b => a.length == b.length && alikeMembers a b
  | _, _ => false

/-- The items of two arrays are alike one by one. -/
def alikeItems : List Json → List Json → Bool
  | [], [] => true
  | a :: as, b :: bs => alike a b && alikeItems as bs
  | _, _ => false

/-- Every member of the first object has a like value in the second one. -/
def alikeMembers : List (String × Json) → List (String × Json) → Bool
  | [], _ => true
  | (k, a) :: members, others =>
    (match get? k others with
      | some b => alike a b
      | none => false) && alikeMembers members others

end

instance : Alike Json := ⟨alike⟩

mutual

/-- No object repeats a key, at any depth. -/
def Distinct : Json → Prop
  | array items => DistinctItems items
  | object members => (members.map Prod.fst).Nodup ∧ DistinctMembers members
  | _ => True

/-- No object in the items repeats a key. -/
def DistinctItems : List Json → Prop
  | [] => True
  | item :: items => Distinct item ∧ DistinctItems items

/-- No object in the values of the members repeats a key. -/
def DistinctMembers : List (String × Json) → Prop
  | [] => True
  | (_, value) :: members => Distinct value ∧ DistinctMembers members

end

end Json

end Workflow
