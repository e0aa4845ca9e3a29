import Workflow.Proofs.PathScan

/-!
# The two grammars of paths

A path is a root with any number of steps behind it. The steps of a reference path can be told
without the full grammar: each of them names one member or counts to one item, so that there is
only one way to go on.

## Main definitions

* `RootedSteps`: a root and steps of a kind
* `ReferenceStep`: the steps of a reference path

## Main results

* `isPath_iff`: a path is a root and steps
* `step_reference_iff`: what is left of the steps in the reference grammar
* `check_eq_ok_iff_rootedSteps`: what is accepted as a path, and what as a reference path
-/

namespace Workflow.Path

/-! ### Roots and steps -/

/-- A text is `$` or `$$` with any number of steps of a kind behind it. -/
def RootedSteps (step : List Char → Prop) (text : List Char) : Prop :=
  ∃ (root : List Char) (steps : List (List Char)),
    root ∈ [['$'], ['$', '$']] ∧ (∀ s ∈ steps, step s) ∧ text = root ++ steps.flatten

theorem steps_iff {g : Grammar} {text : List Char} :
    Steps g text ↔ ∃ steps : List (List Char), (∀ s ∈ steps, Step g s) ∧ text = steps.flatten := by
  constructor
  · intro h
    induction h with
    | nil => exact ⟨[], by simp, rfl⟩
    | @cons step rest hstep _ ih =>
      obtain ⟨steps, hsteps, rfl⟩ := ih
      exact ⟨step :: steps, List.forall_mem_cons.mpr ⟨hstep, hsteps⟩, rfl⟩
  · rintro ⟨steps, hsteps, rfl⟩
    induction steps with
    | nil => exact .nil
    | cons step steps ih =>
      obtain ⟨hstep, hsteps⟩ := List.forall_mem_cons.mp hsteps
      exact .cons hstep (ih hsteps)

theorem isPath_iff {g : Grammar} {text : List Char} :
    IsPath g text ↔ RootedSteps (Step g) text := by
  constructor
  · rintro (⟨h⟩ | ⟨h⟩)
    · obtain ⟨steps, hsteps, rfl⟩ := steps_iff.mp h
      exact ⟨['$'], steps, by simp, hsteps, rfl⟩
    · obtain ⟨steps, hsteps, rfl⟩ := steps_iff.mp h
      exact ⟨['$', '$'], steps, by simp, hsteps, rfl⟩
  · rintro ⟨root, steps, hroot, hsteps, rfl⟩
    have following : Steps g steps.flatten := steps_iff.mpr ⟨steps, hsteps, rfl⟩
    simp only [List.mem_cons, List.not_mem_nil, or_false] at hroot
    rcases hroot with rfl | rfl
    · exact .input following
    · exact .context following

/-! ### The steps of a reference path -/

/-- A step of a reference path: a plain member name behind a dot, or in brackets one member name in
quotes or one index that is not negative. -/
inductive ReferenceStep : List Char → Prop
  | name {text : List Char} : PlainName text → ReferenceStep ('.' :: text)
  | member {before name behind : List Char} : Spaces before → QuotedName name → Spaces behind →
    ReferenceStep ('[' :: (before ++ (name ++ (behind ++ [']']))))
  | index {before digits behind : List Char} : Spaces before → Digits digits → Spaces behind →
    ReferenceStep ('[' :: (before ++ (digits ++ (behind ++ [']']))))

theorem Spaces.append {before behind : List Char} (h : Spaces before) (h' : Spaces behind) :
    Spaces (before ++ behind) := by
  intro c hc
  rcases List.mem_append.mp hc with hc | hc
  · exact h c hc
  · exact h' c hc

/-- A list of one member name in quotes is the name. -/
theorem QuotedNames.name_of_one {text : List Char} (h : QuotedNames 1 text) : QuotedName text := by
  cases h with
  | single hn => exact hn
  | cons _ _ _ hmore => exact absurd hmore.pos (Nat.lt_irrefl 0)

/-- A list of one index that is not negative is its digits, with spaces around them. -/
theorem ArraySelectors.digits_of_index {text : List Char}
    (h : ArraySelectors [.index false] text) :
    ∃ before digits behind, Spaces before ∧ Digits digits ∧ Spaces behind ∧
      text = before ++ (digits ++ behind) := by
  cases h with
  | single hbefore hs hbehind =>
    rcases hs with ⟨⟨hd⟩⟩
    exact ⟨_, _, _, hbefore, hd, hbehind, rfl⟩
  | cons _ _ _ hmore => exact absurd rfl hmore.kinds_ne_nil

theorem bracket_reference {text : List Char} (h : Bracket .reference text) :
    ReferenceStep text := by
  obtain ⟨hbefore, hbody, hbehind⟩ := h
  cases hbody with
  | names hg hn =>
    obtain rfl := hg rfl
    exact .member hbefore hn.name_of_one hbehind
  | wildcard hg | filter hg _ | script hg _ => cases hg
  | selectors hg hs =>
    obtain rfl := hg rfl
    obtain ⟨inner, digits, outer, hinner, hd, houter, rfl⟩ := hs.digits_of_index
    -- the spaces inside the list of selectors are as good as those around it
    have moved := ReferenceStep.index (hbefore.append hinner) hd (houter.append hbehind)
    simpa only [List.append_assoc] using moved

/-- The steps of the full grammar that the reference grammar keeps. -/
theorem step_reference_iff {text : List Char} : Step .reference text ↔ ReferenceStep text := by
  have none : Spaces [] := fun c hc => absurd hc List.not_mem_nil
  constructor
  · intro h
    cases h with
    | name hn => exact .name hn
    | bracket hb => exact bracket_reference hb
    | wildcard hg | deepName hg _ | deepWildcard hg | deepBracket hg _ => cases hg
  · rintro (hn | ⟨hbefore, hn, hbehind⟩ | ⟨hbefore, hd, hbehind⟩)
    · exact .name hn
    · exact .bracket (.mk hbefore (.names (fun _ => rfl) (.single hn)) hbehind)
    · have one := ArraySelectors.single none (.index (.positive hd)) none
      rw [List.nil_append, List.append_nil] at one
      exact .bracket (.mk hbefore (.selectors (fun _ => rfl) one) hbehind)

/-- **What is accepted**: as a path, a root and steps of the full grammar; as a reference path, a
root and steps each of which leads to one member or one item. -/
theorem check_eq_ok_iff_rootedSteps (text : String) :
    (check .path text = .ok () ↔ RootedSteps (Step .path) text.toList) ∧
      (check .reference text = .ok () ↔ RootedSteps ReferenceStep text.toList) := by
  have reference : Step .reference = ReferenceStep := funext fun _ => propext step_reference_iff
  rw [check_eq_ok, check_eq_ok, isPath_iff, isPath_iff, reference]
  exact ⟨Iff.rfl, Iff.rfl⟩

end Workflow.Path
