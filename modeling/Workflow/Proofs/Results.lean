import Workflow.Defect

/-!
# When a result is there

A result that may be missing is there exactly when every step that leads to it gave one. These
lemmas turn an equation about a sequence of steps into equations about the steps.

## Main results

* `bind_eq_ok`, `map_eq_ok`, `mapError_eq_ok`, `within_eq_ok`: results of composed steps
* `inTurn_eq_ok`, `each_eq_ok`: results of a step that is taken for every item of a list
-/

namespace Workflow

variable {ε ε' α β : Type}

@[simp]
theorem bind_eq_ok {x : Except ε α} {f : α → Except ε β} {b : β} :
    x >>= f = .ok b ↔ ∃ a, x = .ok a ∧ f a = .ok b := by
  cases x with
  | error e => simp [bind, Except.bind]
  | ok a => simp [bind, Except.bind]

/-- A check has no result but that there was nothing to complain about. -/
@[simp]
theorem exists_unit {p : Unit → Prop} : (∃ u, p u) ↔ p () :=
  ⟨fun ⟨(), h⟩ => h, fun h => ⟨(), h⟩⟩

@[simp]
theorem ok_bind (a : α) (f : α → Except ε β) : (Except.ok a >>= f) = f a := rfl

@[simp]
theorem error_bind (e : ε) (f : α → Except ε β) : (Except.error e >>= f) = .error e := rfl

@[simp]
theorem map_eq_ok {x : Except ε α} {f : α → β} {b : β} :
    x.map f = .ok b ↔ ∃ a, x = .ok a ∧ f a = b := by
  cases x <;> simp [Except.map]

@[simp]
theorem map_bind {γ : Type} (x : Except ε α) (f : α → β) (g : β → Except ε γ) :
    (x.map f >>= g) = (x >>= fun a => g (f a)) := by
  cases x <;> rfl

@[simp]
theorem mapError_ok (f : ε → ε') (a : α) : (Except.ok a).mapError f = .ok a := rfl

@[simp]
theorem mapError_error (f : ε → ε') (e : ε) :
    (Except.error e : Except ε α).mapError f = .error (f e) := rfl

@[simp]
theorem mapError_eq_ok {x : Except ε α} {f : ε → ε'} {a : α} :
    x.mapError f = .ok a ↔ x = .ok a := by
  cases x <;> simp

@[simp]
theorem pure_eq_ok {a b : α} : (pure a : Except ε α) = .ok b ↔ a = b := by
  simp [pure, Except.pure]

@[simp]
theorem throw_ne_ok {e : ε} {a : α} : (throw e : Except ε α) ≠ .ok a := by
  intro h
  cases h

/-- A result that is found to be there is the result of something. -/
theorem exists_ok_of_isSome {x : Except ε α} (h : x.toOption.isSome = true) : ∃ a, x = .ok a := by
  cases x with
  | ok a => exact ⟨a, rfl⟩
  | error e => cases h

/-- What is refused under a condition is there only when the condition fails. -/
theorem ite_throw_eq_ok {γ : Type} {c : Prop} [Decidable c] {e : ε} {f : γ → Except ε α}
    {x : Except ε α} {a : α} : (if c then throw e >>= f else x) = .ok a ↔ ¬c ∧ x = .ok a := by
  by_cases h : c
  · simp [h]
  · simp [h]

/-- What is refused unless a condition holds is there only when it holds. -/
theorem ite_else_throw_eq_ok {γ : Type} {c : Prop} [Decidable c] {e : ε} {f : γ → Except ε α}
    {x : Except ε α} {a : α} : (if c then x else throw e >>= f) = .ok a ↔ c ∧ x = .ok a := by
  by_cases h : c
  · simp [h]
  · simp [h]

namespace Checked

@[simp]
theorem within_eq_ok {step : Step} {x : Checked α} {a : α} :
    x.within step = .ok a ↔ x = .ok a := by
  cases x <;> simp [within]

/-- When the result of a step is there exactly for the items with a property, and can be told from
the item by what it is turned back into and a property of its own, the same holds of the results
for a list. -/
theorem inTurn_eq_ok {step : Nat → α → Step} {treat : α → Checked β} {P : α → Prop} {Q : β → Prop}
    {back : β → α} (h : ∀ a b, treat a = .ok b ↔ P a ∧ Q b ∧ back b = a) {index : Nat}
    {as : List α} {bs : List β} :
    inTurn step treat index as = .ok bs ↔
      (∀ a ∈ as, P a) ∧ (∀ b ∈ bs, Q b) ∧ bs.map back = as := by
  induction as generalizing index bs with
  | nil =>
    rw [inTurn, Except.ok.injEq, List.map_eq_nil_iff]
    constructor
    · rintro rfl
      simp
    · exact fun h => h.2.2.symm
  | cons a as ih =>
    simp only [inTurn, bind_eq_ok, within_eq_ok, h, ih, Except.ok.injEq, List.forall_mem_cons,
      List.map_eq_cons_iff]
    constructor
    · rintro ⟨b, ⟨ha, hq, hb⟩, bs', ⟨has, hqs, hbs⟩, rfl⟩
      exact ⟨⟨ha, has⟩, List.forall_mem_cons.mpr ⟨hq, hqs⟩, b, bs', rfl, hb, hbs⟩
    · rintro ⟨⟨ha, has⟩, hqs, b, bs', rfl, hb, hbs⟩
      obtain ⟨hq, hqs⟩ := List.forall_mem_cons.mp hqs
      exact ⟨b, ⟨ha, hq, hb⟩, bs', ⟨has, hqs, hbs⟩, rfl⟩

theorem each_eq_ok {key : String} {treat : α → Checked β} {P : α → Prop} {back : β → α}
    (h : ∀ a b, treat a = .ok b ↔ P a ∧ back b = a) {as : List α} {bs : List β} :
    each key treat as = .ok bs ↔ (∀ a ∈ as, P a) ∧ bs.map back = as := by
  have h' : ∀ a b, treat a = .ok b ↔ P a ∧ True ∧ back b = a := by simpa using h
  simpa [each] using inTurn_eq_ok h'

end Checked

end Workflow
