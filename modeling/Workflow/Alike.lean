/-!
# Likeness

When two definitions count as the same. Numbers are compared numerically, so zero has no sign and
the undefined number is not even like itself; the members of a JSON object have no order; and two
timestamps are alike when they are the same instant. Everything else is compared part by part.

## Main definitions

* `Alike`: types whose values can be alike
-/

namespace Workflow

/-- Types whose values can be alike. -/
class Alike (α : Type) where
  /-- Whether two values count as the same. -/
  alike : α → α → Bool

export Alike (alike)

namespace Alike

variable {α β : Type} [Alike α] [Alike β]

/-- Values that are alike when they are equal. -/
abbrev ofEq (α : Type) [DecidableEq α] : Alike α := ⟨fun a b => decide (a = b)⟩

instance : Alike String := ofEq String

instance : Alike Bool := ofEq Bool

instance : Alike UInt32 := ofEq UInt32

instance : Alike UInt64 := ofEq UInt64

/-- Optional values are alike when both are absent, or both present and alike. -/
def option : Option α → Option α → Bool
  | none, none => true
  | some a, some b => alike a b
  | _, _ => false

instance : Alike (Option α) := ⟨option⟩

/-- Lists are alike when they are so item by item. -/
def list : List α → List α → Bool
  | [], [] => true
  | a :: as, b :: bs => alike a b && list as bs
  | _, _ => false

instance : Alike (List α) := ⟨list⟩

instance : Alike (α × β) := ⟨fun a b => alike a.1 b.1 && alike a.2 b.2⟩

end Alike

end Workflow
