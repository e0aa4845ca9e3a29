import Mathlib.Data.List.TakeWhile
import Workflow.Proofs.Results
import Workflow.Text.Rest

/-!
# What readers leave

A reader takes something from the front of a text and gives what is left, together with a proof
that it is shorter. What is left is what matters, so these predicates leave the proof out.

## Main definitions

* `Leaves`, `LeavesWith`: a reader succeeds, with a value, and leaves a text
* `Stops`: a text does not go on with characters of a kind

## Main results

* `leaves_bind`, `leavesWith_bind`: what one reader behind another leaves
* `takeWhile_append`, `dropWhile_append`: leading characters of a kind, and what is behind them
-/

namespace Workflow.Text

variable {ε : Type}

/-- A reader succeeds and leaves a text. -/
def Leaves {p : List Char → Prop} (result : Except ε {text : List Char // p text})
    (rest : List Char) : Prop :=
  ∃ left, result = .ok left ∧ left.1 = rest

@[simp]
theorem leaves_ok {p : List Char → Prop} {left : {text : List Char // p text}}
    {rest : List Char} : Leaves (Except.ok (ε := ε) left) rest ↔ left.1 = rest := by
  simp [Leaves]

@[simp]
theorem leaves_error {p : List Char → Prop} {fault : ε} {rest : List Char} :
    ¬Leaves (p := p) (.error fault) rest := by
  simp [Leaves]

@[simp]
theorem leaves_bind {α : Type} {p : List Char → Prop} {x : Except ε α}
    {f : α → Except ε {text : List Char // p text}} {rest : List Char} :
    Leaves (x >>= f) rest ↔ ∃ a, x = .ok a ∧ Leaves (f a) rest := by
  cases x <;> simp

/-- A reader succeeds with a value and leaves a text. -/
def LeavesWith {α : Type} {p : List Char → Prop}
    (result : Except ε (α × {text : List Char // p text})) (a : α) (rest : List Char) : Prop :=
  ∃ left, result = .ok (a, left) ∧ left.1 = rest

theorem exists_leaves {p : List Char → Prop} {x : Except ε {text : List Char // p text}}
    {P : List Char → Prop} :
    (∃ rest, Leaves x rest ∧ P rest) ↔ ∃ left, x = .ok left ∧ P left.1 := by
  constructor
  · rintro ⟨_, ⟨left, h, rfl⟩, hP⟩
    exact ⟨left, h, hP⟩
  · rintro ⟨left, h, hP⟩
    exact ⟨left.1, ⟨left, h, rfl⟩, hP⟩

theorem exists_leavesWith {α : Type} {p : List Char → Prop}
    {x : Except ε (α × {text : List Char // p text})} {P : α → List Char → Prop} :
    (∃ a rest, LeavesWith x a rest ∧ P a rest) ↔ ∃ a left, x = .ok (a, left) ∧ P a left.1 := by
  constructor
  · rintro ⟨a, _, ⟨left, h, rfl⟩, hP⟩
    exact ⟨a, left, h, hP⟩
  · rintro ⟨a, left, h, hP⟩
    exact ⟨a, left.1, ⟨left, h, rfl⟩, hP⟩

@[simp]
theorem leavesWith_ok {α : Type} {p : List Char → Prop} {a b : α}
    {left : {text : List Char // p text}} {rest : List Char} :
    LeavesWith (Except.ok (ε := ε) (a, left)) b rest ↔ a = b ∧ left.1 = rest := by
  simp only [LeavesWith, Except.ok.injEq, Prod.mk.injEq]
  exact ⟨fun ⟨_, ⟨ha, hl⟩, hr⟩ => ⟨ha, hl ▸ hr⟩, fun ⟨ha, hr⟩ => ⟨left, ⟨ha, rfl⟩, hr⟩⟩

@[simp]
theorem leavesWith_error {α : Type} {p : List Char → Prop} {fault : ε} {a : α}
    {rest : List Char} : ¬LeavesWith (p := p) (.error fault) a rest := by
  simp [LeavesWith]

@[simp]
theorem leavesWith_bind {α β : Type} {p : List Char → Prop} {x : Except ε α}
    {f : α → Except ε (β × {text : List Char // p text})} {b : β} {rest : List Char} :
    LeavesWith (x >>= f) b rest ↔ ∃ a, x = .ok a ∧ LeavesWith (f a) b rest := by
  cases x <;> simp [LeavesWith]

/-! ### Leading characters -/

/-- A text does not go on with a character of a kind. -/
def Stops (p : Char → Bool) (text : List Char) : Prop := ∀ c ∈ text.head?, p c = false

theorem dropWhile_append {p : Char → Bool} {read rest : List Char} (h : ∀ c ∈ read, p c = true)
    (hs : Stops p rest) : (read ++ rest).dropWhile p = rest := by
  induction read with
  | nil =>
    cases rest with
    | nil => rfl
    | cons c rest => exact List.dropWhile_cons_of_neg (by simpa using hs c rfl)
  | cons c read ih =>
    rw [List.forall_mem_cons] at h
    rw [List.cons_append, List.dropWhile_cons_of_pos h.1, ih h.2]

theorem takeWhile_append {p : Char → Bool} {read rest : List Char} (h : ∀ c ∈ read, p c = true)
    (hs : Stops p rest) : (read ++ rest).takeWhile p = read := by
  induction read with
  | nil =>
    cases rest with
    | nil => rfl
    | cons c rest => exact List.takeWhile_cons_of_neg (by simpa using hs c rfl)
  | cons c read ih =>
    rw [List.forall_mem_cons] at h
    rw [List.cons_append, List.takeWhile_cons_of_pos h.1, ih h.2]

theorem Stops.cons {p : Char → Bool} {c : Char} (h : p c = false) (text : List Char) :
    Stops p (c :: text) := by
  intro d hd
  obtain rfl : c = d := by simpa using hd
  exact h

end Workflow.Text
