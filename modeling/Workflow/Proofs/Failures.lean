import Workflow.Proofs.Results

/-!
# Why a result is not there

What keeps a result from being there is often known to be of a kind, since every step that may fail
only fails in that way. These lemmas tell it of a sequence of steps from what is known of each.

## Main definitions

* `FailsOnly`: what keeps a result from being there is of a kind

## Main results

* `bind_eq_error`, `Checked.within_eq_error`: at what composed steps stop
* `failsOnly_bind`: how a sequence of steps fails
* `FailsOnly.within`, `FailsOnly.inTurn`: how parts fail, as seen from what is around them
-/

namespace Workflow

variable {ε α β : Type} {P : ε → Prop}

/-- A sequence of steps stops at its first step, or at one that comes behind a result. -/
theorem bind_eq_error {x : Except ε α} {f : α → Except ε β} {e : ε} :
    x >>= f = .error e ↔ x = .error e ∨ ∃ a, x = .ok a ∧ f a = .error e := by
  cases x with
  | error d => simp [bind, Except.bind]
  | ok a => simp [bind, Except.bind]

/-- A part stops as it does by itself, seen from what is around it. -/
theorem Checked.within_eq_error {step : Step} {x : Checked α} {e : Defect} :
    x.within step = .error e ↔ ∃ own, x = .error own ∧ own.within step = e := by
  cases x <;> simp [Checked.within]

theorem map_eq_error {f : α → β} {x : Except ε α} {e : ε} :
    f <$> x = .error e ↔ x = .error e := by
  cases x <;> simp [Functor.map, Except.map]

theorem Checked.within_bind (step : Step) (x : Checked α) (f : α → Checked β) :
    (x >>= f).within step = x.within step >>= fun a => (f a).within step := by
  cases x <;> rfl

/-- A result is there, or what keeps it from being there is of a kind. -/
def FailsOnly (P : ε → Prop) (x : Except ε α) : Prop :=
  ∀ e, x = .error e → P e

@[simp]
theorem failsOnly_ok {a : α} : FailsOnly P (.ok a) := nofun

@[simp]
theorem failsOnly_pure {a : α} : FailsOnly P (pure a : Except ε α) := nofun

@[simp]
theorem failsOnly_error {e : ε} : FailsOnly P (.error e : Except ε α) ↔ P e := by
  simp [FailsOnly]

@[simp]
theorem failsOnly_throw {e : ε} : FailsOnly P (throw e : Except ε α) ↔ P e :=
  failsOnly_error

/-- A sequence of steps fails like its first step, or like one that comes behind a result. -/
@[simp]
theorem failsOnly_bind {x : Except ε α} {f : α → Except ε β} :
    FailsOnly P (x >>= f) ↔ FailsOnly P x ∧ ∀ a, x = .ok a → FailsOnly P (f a) := by
  cases x with
  | error e => simp
  | ok a => simp

@[simp]
theorem failsOnly_map {f : α → β} {x : Except ε α} :
    FailsOnly P (f <$> x) ↔ FailsOnly P x := by
  cases x with
  | error e => exact failsOnly_error.trans failsOnly_error.symm
  | ok a => exact iff_of_true failsOnly_ok failsOnly_ok

namespace FailsOnly

theorem bind {x : Except ε α} {f : α → Except ε β} (hx : FailsOnly P x)
    (hf : ∀ a, FailsOnly P (f a)) : FailsOnly P (x >>= f) :=
  failsOnly_bind.mpr ⟨hx, fun a _ => hf a⟩

variable {P : Defect → Prop}

/-- A part fails in the same way as seen from what is around it, if the place of a defect does not
decide its kind. -/
theorem within (hP : ∀ step d, P d → P (d.within step)) {x : Checked α} (hx : FailsOnly P x)
    (step : Step) : FailsOnly P (x.within step) := by
  cases x with
  | ok a => exact failsOnly_ok
  | error d => exact failsOnly_error.mpr (hP step d (hx d rfl))

/-- A list fails in the way its items do. -/
theorem inTurn (hP : ∀ step d, P d → P (d.within step)) {treat : α → Checked β}
    (h : ∀ a, FailsOnly P (treat a)) (step : Nat → α → Step) (index : Nat) (as : List α) :
    FailsOnly P (Checked.inTurn step treat index as) := by
  induction as generalizing index with
  | nil => exact failsOnly_ok
  | cons a as ih =>
    refine ((h a).within hP _).bind fun b => ?_
    exact (ih (index + 1)).bind fun bs => failsOnly_ok

end FailsOnly

end Workflow
