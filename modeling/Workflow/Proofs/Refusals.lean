import Workflow.Path.Scan
import Workflow.Proofs.Failures

/-!
# The reference grammar only adds refusals

A path is read in the same way against both grammars, except that the reference grammar refuses the
queries. A refusal comes where the query begins, or behind the array selectors that it is one of;
so the two readings are followed side by side, and go on alike until the first of them refuses.

## Main definitions

* `Fault.OfForm`: a fault that is none in one grammar only
* `Narrows`: a reading against the reference grammar beside one against the full grammar
* `Reason.Disallows`: what a refused query is said to be

## Main results

* `Narrows.bind`: readings that are made of steps
* `narrows_steps`, `narrows_scan`: the steps of a path, and a whole path
* `check_reference`: how a check against the reference grammar ends
-/

namespace Workflow.Path

open Text (Rest Tail)

/-- A fault of form: the text is wrong as it stands, and not for a query in it. -/
def Fault.OfForm (f : Fault) : Prop :=
  ∀ query, f.reason ≠ .refused query

@[simp]
theorem Fault.ofForm_mk {reason : Reason} {ahead : List Char} :
    OfForm ⟨reason, ahead⟩ ↔ ∀ query, reason ≠ .refused query := Iff.rfl

/-! ### What both grammars share

Texts in quotes, array selectors and expressions are read without regard to the grammar. -/

theorem ofForm_quotedTail {quote : Char} {start ahead : List Char} {length : Nat} :
    FailsOnly Fault.OfForm (quotedTail quote start ahead length) := by
  fun_induction quotedTail quote start ahead length with
  | case1 => simp
  | case2 => simp
  | case3 => simp
  | case4 length d text hq ih => exact ih.bind fun _ => failsOnly_ok
  | case5 c text length hq hb ih => exact ih.bind fun _ => failsOnly_ok

theorem ofForm_quotedMember {ahead : List Char} : FailsOnly Fault.OfForm (quotedMember ahead) := by
  unfold quotedMember
  split
  · simp
  · split
    · refine ofForm_quotedTail.bind ?_
      rintro ⟨length, rest⟩
      by_cases none : length = 0 <;> simp [none]
    · simp

theorem ofForm_integer {ahead : List Char} : FailsOnly Fault.OfForm (integer ahead) := by
  unfold integer
  split
  · simp
  · split
    · split <;> simp
    · split <;> simp

theorem ofForm_sliceTail {ahead : List Char} : FailsOnly Fault.OfForm (sliceTail ahead) := by
  refine ofForm_integer.bind ?_
  rintro ⟨_, second⟩
  dsimp only
  cases colon? second.1 with
  | none => exact failsOnly_ok
  | some colon => exact ofForm_integer.bind fun _ => failsOnly_ok

theorem ofForm_indexSelector {ahead : List Char} :
    FailsOnly Fault.OfForm (indexSelector ahead) := by
  refine ofForm_integer.bind ?_
  rintro ⟨first, rest⟩
  dsimp only
  cases colon? rest.1 with
  | some colon => exact ofForm_sliceTail.bind fun _ => failsOnly_ok
  | none =>
    cases first with
    | some negative => exact failsOnly_ok
    | none => simp

theorem ofForm_indexSelectors {ahead : List Char} :
    FailsOnly Fault.OfForm (indexSelectors ahead) := by
  rw [indexSelectors]
  refine ofForm_indexSelector.bind ?_
  rintro ⟨kind, selector⟩
  dsimp only
  obtain ⟨_ | ⟨c, text⟩, shorter⟩ :=
    (skipSpaces ahead).trans (selector.trans (skipSpaces selector.1))
  · exact failsOnly_ok
  · by_cases comma : c = ','
    · simp only [if_pos comma]
      exact ofForm_indexSelectors.bind fun _ => failsOnly_ok
    · simp only [if_neg comma, failsOnly_ok]
termination_by ahead.length

theorem ofForm_expressionTail {start ahead : List Char} {depth content : Nat} :
    FailsOnly Fault.OfForm (expressionTail start ahead depth content) := by
  fun_induction expressionTail start ahead depth content with
  | case1 => simp
  | case2 depth content text ih => exact ih.bind fun _ => failsOnly_ok
  | case3 => simp
  | case4 => exact failsOnly_ok
  | case5 depth content text _ _ ih => exact ih.bind fun _ => failsOnly_ok
  | case6 depth content c text _ _ _ ih =>
    refine ofForm_quotedTail.bind ?_
    rintro ⟨_, quoted⟩
    exact (ih quoted).bind fun _ => failsOnly_ok
  | case7 depth content c text _ _ _ ih => exact ih.bind fun _ => failsOnly_ok

theorem ofForm_expression {ahead : List Char} : FailsOnly Fault.OfForm (expression ahead) := by
  unfold expression
  split
  · simp
  · split
    · exact ofForm_expressionTail.bind fun _ => failsOnly_ok
    · simp

/-! ### Two readings side by side -/

/-- A reading against the reference grammar does what the one against the full grammar does, or
refuses a query. The full grammar refuses none. -/
structure Narrows {α : Type} (narrow full : Except Fault α) : Prop where
  form : FailsOnly Fault.OfForm full
  agrees : narrow = full ∨ ∃ query ahead, narrow = .error ⟨.refused query, ahead⟩

namespace Narrows

variable {α β : Type}

/-- What both grammars share is read alike. -/
theorem same {x : Except Fault α} (h : FailsOnly Fault.OfForm x) : Narrows x x :=
  ⟨h, .inl rfl⟩

/-- Readings that go side by side may be followed by such readings. -/
theorem bind {x y : Except Fault α} {f g : α → Except Fault β} (h : Narrows x y)
    (hf : ∀ a, Narrows (f a) (g a)) : Narrows (x >>= f) (y >>= g) := by
  refine ⟨h.form.bind fun a => (hf a).form, ?_⟩
  rcases h.agrees with rfl | ⟨query, ahead, rfl⟩
  · cases x with
    | error e => exact .inl rfl
    | ok a => exact (hf a).agrees
  · -- the first reading has ended, so what comes behind does not matter
    exact .inr ⟨query, ahead, rfl⟩

theorem ite {c : Prop} [Decidable c] {x y x' y' : Except Fault α} (h : Narrows x y)
    (h' : Narrows x' y') : Narrows (if c then x else x') (if c then y else y') := by
  split
  · exact h
  · exact h'

end Narrows

/-- The grammars only differ in what they allow. -/
theorem narrows_allow (query : Query) (ahead : List Char) :
    Narrows (allow .reference query ahead) (allow .path query ahead) :=
  ⟨failsOnly_ok, .inr ⟨query, ahead, rfl⟩⟩

theorem narrows_quotedMembers {ahead : List Char} :
    Narrows (quotedMembers .reference ahead) (quotedMembers .path ahead) := by
  rw [quotedMembers, quotedMembers]
  refine (Narrows.same ofForm_quotedMember).bind fun member => ?_
  obtain ⟨_ | ⟨c, text⟩, shorter⟩ := member.trans (skipSpaces member.1)
  · exact .same failsOnly_ok
  · by_cases comma : c = ','
    · -- a second name makes a union
      simp only [if_pos comma]
      refine (narrows_allow ..).bind fun _ => ?_
      have shorter : (skipSpaces text).1.length < ahead.length := by
        have := (skipSpaces text).2
        simp only [List.length_cons] at shorter
        omega
      exact narrows_quotedMembers.bind fun _ => .same failsOnly_ok
    · simp only [if_neg comma]
      exact .same failsOnly_ok
termination_by ahead.length

theorem narrows_allowSelectors {kinds : List IndexKind} {ahead : List Char} :
    Narrows (allowSelectors .reference kinds ahead) (allowSelectors .path kinds ahead) := by
  -- the three refusals, from the last one back to the first
  have skipped : Narrows (pure () : Except Fault Unit) (pure ()) := .same failsOnly_pure
  have negative := Narrows.ite (c := kinds.contains (.index true))
    (narrows_allow .negativeIndex ahead) skipped
  have union := Narrows.ite (c := 1 < kinds.length)
    ((narrows_allow .union ahead).bind fun _ => negative) negative
  exact .ite ((narrows_allow .slice ahead).bind fun _ => union) union

theorem narrows_bracketBody {c : Char} {text : List Char} :
    Narrows (bracketBody .reference c text) (bracketBody .path c text) := by
  unfold bracketBody
  dsimp only
  split
  -- names in quotes
  · exact narrows_quotedMembers.bind fun _ => .same failsOnly_ok
  split
  -- a wildcard, a filter and a script are refused before they are read
  · exact (narrows_allow ..).bind fun _ => .same failsOnly_ok
  split
  · refine (narrows_allow ..).bind fun _ => ?_
    exact (Narrows.same ofForm_expression).bind fun _ => .same failsOnly_ok
  split
  · refine (narrows_allow ..).bind fun _ => ?_
    exact (Narrows.same ofForm_expression).bind fun _ => .same failsOnly_ok
  split
  -- array selectors are refused when all of them are read
  · refine (Narrows.same ofForm_indexSelectors).bind ?_
    rintro ⟨kinds, rest⟩
    exact narrows_allowSelectors.bind fun _ => .same failsOnly_ok
  · exact .same (by simp)

theorem narrows_bracketStep {start text : List Char} :
    Narrows (bracketStep .reference start text) (bracketStep .path start text) := by
  unfold bracketStep
  obtain ⟨_ | ⟨c, inner⟩, h⟩ := skipSpaces text
  · exact .same (by simp)
  · refine narrows_bracketBody.bind fun body => .same ?_
    obtain ⟨_ | ⟨close, rest⟩, h⟩ := Tail.trans ⟨c :: inner, h⟩ (body.trans (skipSpaces body.1))
    · simp
    · dsimp only
      split <;> simp

theorem narrows_dotMember {start text : List Char} :
    Narrows (dotMember .reference start text) (dotMember .path start text) := by
  cases text with
  | nil => exact .same (by simp [dotMember])
  | cons c text =>
    unfold dotMember
    dsimp only
    split
    · exact (narrows_allow ..).bind fun _ => .same failsOnly_ok
    · split <;> exact .same (by simp)

theorem narrows_descendants {start text : List Char} :
    Narrows (descendants .reference start text) (descendants .path start text) := by
  unfold descendants
  cases text with
  | nil => exact narrows_dotMember
  | cons c body =>
    dsimp only
    split
    · exact narrows_bracketStep.bind fun _ => .same failsOnly_ok
    · exact narrows_dotMember

theorem narrows_dotStep {start text : List Char} :
    Narrows (dotStep .reference start text) (dotStep .path start text) := by
  unfold dotStep
  cases text with
  | nil => exact narrows_dotMember
  | cons c text =>
    dsimp only
    split
    · refine (narrows_allow ..).bind fun _ => ?_
      exact narrows_descendants.bind fun _ => .same failsOnly_ok
    · exact narrows_dotMember

/-- The steps of a path are read alike up to the first query. -/
theorem narrows_steps {ahead : List Char} :
    Narrows (steps .reference ahead) (steps .path ahead) := by
  unfold steps
  cases ahead with
  | nil => exact .same failsOnly_ok
  | cons c text =>
    dsimp only
    split
    · refine narrows_dotStep.bind fun rest => ?_
      have shorter : rest.1.length < text.length := rest.2
      exact narrows_steps
    · split
      · refine narrows_bracketStep.bind fun rest => ?_
        have shorter : rest.1.length < text.length := rest.2
        exact narrows_steps
      · exact .same (by simp)
termination_by ahead.length
decreasing_by all_goals exact Nat.lt_succ_of_lt shorter

theorem narrows_scan (text : List Char) : Narrows (scan .reference text) (scan .path text) := by
  unfold scan
  -- only behind a root is there anything that depends on the grammar
  split
  · exact .same (by simp)
  · exact narrows_steps
  · exact narrows_steps
  · exact .same (by simp)

/-! ### What the message says -/

/-- The message of a reason says that something is not allowed in a reference path. -/
def Reason.Disallows (r : Reason) : Prop :=
  ∃ subject, r.message = subject ++ "not allowed in a reference path"

theorem getLast?_toList_append (before : String) {behind : String} {c : Char}
    (h : behind.toList.getLast? = some c) : (before ++ behind).toList.getLast? = some c := by
  rw [String.toList_append, List.getLast?_append, h]
  rfl

/-- Only the refusal of a query is said in this way: no other message ends in the same letter. -/
theorem Reason.disallows_iff {r : Reason} : r.Disallows ↔ ∃ query, r = .refused query := by
  constructor
  · rintro ⟨subject, said⟩
    -- only the message about a refused query ends with this letter
    have last : r.message.toList.getLast? = some 'h' := by
      rw [said]
      exact getLast?_toList_append subject rfl
    have quoting (before : String) : (before ++ "'").toList.getLast? = some '\'' :=
      getLast?_toList_append before rfl
    clear said
    cases r with
    | refused query => exact ⟨query, rfl⟩
    | unexpected c => cases (quoting _).symm.trans last
    | unexpectedInBrackets c =>
      have brackets (before : String) : (before ++ "' in brackets").toList.getLast? = some 's' :=
        getLast?_toList_append before rfl
      cases (brackets _).symm.trans last
    | bracketExpected found =>
      cases found with
      | none => exact absurd last (by decide)
      | some c => cases (quoting _).symm.trans last
    | _ => exact absurd last (by decide)
  · rintro ⟨query, rfl⟩
    exact ⟨query.subject ++ " ", by rw [String.append_assoc]; rfl⟩

/-- **The reference grammar only adds refusals.** A check against it ends as the check against the
full grammar does, with the same reason at the same offset if it fails; or it refuses what is not
allowed in a reference path, which the full grammar never does. So every reference path is a
path. -/
theorem check_reference (text : String) :
    (check .reference text = check .path text ∨
      ∃ refusal, check .reference text = .error refusal ∧ refusal.reason.Disallows) ∧
    (check .reference text = .ok () → check .path text = .ok ()) ∧
    ∀ refusal, check .path text = .error refusal → ¬refusal.reason.Disallows := by
  have runs := narrows_scan text.toList
  have first : check .reference text = check .path text ∨
      ∃ refusal, check .reference text = .error refusal ∧ refusal.reason.Disallows := by
    rcases runs.agrees with same | ⟨query, ahead, refused⟩
    · exact .inl (by rw [check, same, check])
    · exact .inr ⟨_, by rw [check, refused], Reason.disallows_iff.mpr ⟨query, rfl⟩⟩
  refine ⟨first, ?_, ?_⟩
  · intro accepted
    rcases first with same | ⟨refusal, refused, -⟩
    · exact same.symm.trans accepted
    · cases accepted.symm.trans refused
  · -- the full grammar only has faults of form
    intro refusal refused disallows
    obtain ⟨query, hq⟩ := Reason.disallows_iff.mp disallows
    unfold check at refused
    split at refused
    · cases refused
    · next fault hf =>
      cases refused
      exact runs.form fault hf query hq

end Workflow.Path
