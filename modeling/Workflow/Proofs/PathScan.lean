import Workflow.Proofs.PathReaders

/-!
# The scanner accepts exactly the paths

A step is read up to the dot or the bracket of the next one, since no character of a plain name
begins a step. A bracket is read from the first character in it that is no space.

## Main results

* `bracketStep_sound`, `bracketStep_complete`: steps in brackets
* `dotStep_sound`, `step_complete`: steps behind dots, and any step
* `scan_eq_ok`, `check_eq_ok`: a text is accepted exactly when it is a path of the grammar
-/

namespace Workflow.Path

open Text (Rest Tail Leaves LeavesWith leaves_ok leaves_error leaves_bind exists_leaves Stops
  dropWhile_append)

/-! ### Steps in brackets -/

theorem ArraySelectors.append_spaces {kinds : List IndexKind} {text behind : List Char}
    (h : ArraySelectors kinds text) (hb : Spaces behind) :
    ArraySelectors kinds (text ++ behind) := by
  induction h with
  | single hbefore hs hbehind =>
    rw [List.append_assoc, List.append_assoc]
    exact .single hbefore hs fun c hc => (List.mem_append.mp hc).elim (hbehind c) (hb c)
  | cons hbefore hs hbehind _ ih =>
    simp only [List.append_assoc, List.cons_append]
    exact .cons hbefore hs hbehind ih

/-- The spaces in front of array selectors may be left out. -/
theorem ArraySelectors.trim {kinds : List IndexKind} {text : List Char}
    (h : ArraySelectors kinds text) : ∃ spaces c more, Spaces spaces ∧ selectorChar c = true ∧
      text = spaces ++ c :: more ∧ ArraySelectors kinds (c :: more) := by
  have none : Spaces [] := fun c hc => absurd hc List.not_mem_nil
  cases h with
  | single hbefore hs hbehind =>
    obtain ⟨c, more, hc, rfl⟩ := hs.cons_form
    exact ⟨_, c, _, hbefore, hc, rfl, .single none hs hbehind⟩
  | cons hbefore hs hbehind hmore =>
    obtain ⟨c, more, hc, rfl⟩ := hs.cons_form
    exact ⟨_, c, _, hbefore, hc, rfl, .cons none hs hbehind hmore⟩

theorem ArraySelectors.kinds_ne_nil {kinds : List IndexKind} {text : List Char}
    (h : ArraySelectors kinds text) : kinds ≠ [] := by
  cases h <;> nofun

theorem allowSelectors_eq_ok {g : Grammar} {kinds : List IndexKind} (hk : kinds ≠ [])
    (ahead : List Char) :
    allowSelectors g kinds ahead = .ok () ↔ (g = .reference → kinds = [.index false]) := by
  cases g with
  | path =>
    simp only [allowSelectors, reduceCtorEq, false_imp_iff, iff_true]
    split <;> split <;> split <;> rfl
  | reference =>
    obtain ⟨kind, kinds, rfl⟩ := List.exists_cons_of_ne_nil hk
    cases kinds with
    | nil => cases kind with
      | slice => simp [allowSelectors, allow]
      | index negative => cases negative with
        | false => exact iff_of_true rfl fun _ => rfl
        | true => exact iff_of_false (by simp [allowSelectors, allow]) (by simp)
    | cons second kinds =>
      refine iff_of_false ?_ (by simp)
      simp only [allowSelectors, allow, List.length_cons]
      split <;> simp

/-- What follows the body of a bracket when it is closed. -/
def Closed (left rest : List Char) : Prop := (skipSpaces left).1 = ']' :: rest

theorem bracketBody_sound {g : Grammar} {c : Char} {text left : List Char}
    (h : Leaves (bracketBody g c text) left) :
    ∃ body behind, BracketBody g body ∧ Spaces behind ∧ c :: text = body ++ (behind ++ left) := by
  have none : Spaces [] := fun c hc => absurd hc List.not_mem_nil
  -- the first character says which of the bodies it is
  simp only [bracketBody] at h
  split at h
  · simp only [leaves_bind, leaves_ok] at h
    obtain ⟨count, names, behind, hn, hg, hb, he⟩ := quotedMembers_sound h
    exact ⟨names, behind, .names hg hn, hb, he⟩
  split at h
  · next hc =>
    simp only [leaves_bind, allow_eq_ok, exists_unit, leaves_ok] at h
    obtain ⟨hg, rfl⟩ := h
    exact ⟨['*'], [], .wildcard hg, none, by rw [hc]; rfl⟩
  split at h
  · next hc =>
    simp only [leaves_bind, allow_eq_ok, exists_unit, leaves_ok] at h
    obtain ⟨hg, rest, hr, rfl⟩ := h
    obtain ⟨expr, he, ht⟩ := expression_sound ⟨rest, hr, rfl⟩
    refine ⟨'?' :: expr, [], .filter hg he, none, ?_⟩
    rw [hc]
    exact congrArg ('?' :: ·) ht
  split at h
  · simp only [leaves_bind, allow_eq_ok, exists_unit, leaves_ok] at h
    obtain ⟨hg, rest, hr, rfl⟩ := h
    obtain ⟨expr, he, ht⟩ := expression_sound ⟨rest, hr, rfl⟩
    exact ⟨expr, [], .script hg he, none, ht⟩
  split at h
  · simp only [leaves_bind, exists_unit, leaves_ok, Prod.exists] at h
    obtain ⟨kinds, rest, hr, ha, rfl⟩ := h
    obtain ⟨selectors, hs, ht⟩ := indexSelectors_sound ⟨rest, hr, rfl⟩
    exact ⟨selectors, [], .selectors ((allowSelectors_eq_ok hs.kinds_ne_nil _).mp ha) hs, none, ht⟩
  · simp at h

theorem selectorChar_ne {c : Char} (h : selectorChar c = true) :
    ¬isQuote c = true ∧ c ≠ '*' ∧ c ≠ '?' ∧ c ≠ '(' ∧ c ≠ ' ' := by
  refine ⟨?_, ?_, ?_, ?_, ?_⟩
  · intro hq
    rcases isQuote_iff.mp hq with rfl | rfl <;> exact absurd h (by decide)
  all_goals
    rintro rfl
    exact absurd h (by decide)

theorem Closed.of_spaces {spaces : List Char} (h : Spaces spaces) (rest : List Char) :
    Closed (spaces ++ ']' :: rest) rest :=
  skipSpaces_complete h (.cons rfl rest)

/-- A body is read from its first character that is no space, up to the bracket that closes it. -/
theorem bracketBody_complete {g : Grammar} {body behind : List Char} (h : BracketBody g body)
    (hb : Spaces behind) (rest : List Char) :
    ∃ spaces c text left, Spaces spaces ∧ c ≠ ' ' ∧
      body ++ (behind ++ ']' :: rest) = spaces ++ c :: text ∧
      Leaves (bracketBody g c text) left ∧ Closed left rest := by
  have none : Spaces [] := fun c hc => absurd hc List.not_mem_nil
  have closed := Closed.of_spaces hb rest
  cases h with
  | names hg hn =>
    obtain ⟨quote, text, hq, rfl⟩ := hn.cons_form
    have read : Leaves (quotedMembers g (quote :: text ++ (behind ++ ']' :: rest))) (']' :: rest) :=
      quotedMembers_complete hn hg hb (.cons rfl _) (.cons rfl _)
    refine ⟨[], quote, _, ']' :: rest, none, hq.ne.2.1, rfl, ?_, .of_spaces none rest⟩
    simp only [bracketBody, if_pos (isQuote_iff.mpr hq), leaves_bind, leaves_ok]
    exact read
  | wildcard hg =>
    refine ⟨[], '*', _, _, none, by simp, rfl, ?_, closed⟩
    simp [bracketBody, isQuote, hg, Tail.behind]
  | @filter text hg he =>
    obtain ⟨left, hr, hl⟩ := expression_complete he (behind ++ ']' :: rest)
    refine ⟨[], '?', _, _, none, by simp, rfl, ?_, closed⟩
    simp [bracketBody, isQuote, hg, hr, Tail.after, Rest.toTail, hl]
  | script hg he =>
    have read := expression_complete he (behind ++ ']' :: rest)
    cases he with
    | mk hi hn =>
      rw [List.cons_append] at read
      obtain ⟨left, hr, hl⟩ := read
      refine ⟨[], '(', _, _, none, by simp, rfl, ?_, closed⟩
      simp [bracketBody, isQuote, hg, hr, Rest.toTail, hl]
  | @selectors kinds _ hg hs =>
    -- spaces in front of a selector are skipped before the body is read
    obtain ⟨spaces, c, more, hspaces, hc, rfl, hmore⟩ := hs.trim
    obtain ⟨no_quote, no_star, no_filter, no_script, no_space⟩ := selectorChar_ne hc
    have read : LeavesWith (indexSelectors (c :: more ++ behind ++ ']' :: rest)) kinds
        (']' :: rest) :=
      indexSelectors_complete (hmore.append_spaces hb) (.cons rfl _)
    rw [List.append_assoc, List.cons_append] at read
    obtain ⟨left, hr, hl⟩ := read
    have allowed := (allowSelectors_eq_ok hmore.kinds_ne_nil
      (c :: (more ++ (behind ++ ']' :: rest)))).mpr hg
    refine ⟨spaces, c, more ++ (behind ++ ']' :: rest), ']' :: rest, hspaces, no_space, by simp,
      ?_, .of_spaces none rest⟩
    have kept : (c.isDigit || c == '-' || c == ':') = true := hc
    simp only [bracketBody, no_quote, no_star, no_filter, no_script, kept, if_true, if_false,
      Bool.false_eq_true, leaves_bind, leaves_ok, Prod.exists]
    exact ⟨kinds, left, hr, (), allowed, hl⟩

theorem leaves_bracketStep {g : Grammar} {start text rest : List Char} :
    Leaves (bracketStep g start text) rest ↔ ∃ c inner, (skipSpaces text).1 = c :: inner ∧
      ∃ left, Leaves (bracketBody g c inner) left ∧ Closed left rest := by
  -- what is left comes with a proof about its length, so the pairs are named before they are split
  obtain ⟨⟨ahead, hl⟩, he⟩ : ∃ ahead, skipSpaces text = ahead := ⟨_, rfl⟩
  rw [bracketStep, he]
  cases ahead with
  | nil => simp
  | cons c inner =>
    rw [leaves_bind]
    have inner_eq {P : Char → List Char → Prop} :
        (∃ d more, c :: inner = d :: more ∧ P d more) ↔ P c inner := by
      constructor
      · rintro ⟨d, more, h, hP⟩
        obtain ⟨rfl, rfl⟩ := List.cons.inj h
        exact hP
      · exact fun hP => ⟨c, inner, rfl, hP⟩
    rw [inner_eq, exists_leaves]
    refine exists_congr fun body => and_congr_right fun _ => ?_
    obtain ⟨⟨behind, hb⟩, hbehind⟩ : ∃ behind, Tail.trans ⟨c :: inner, hl⟩
      (body.trans (skipSpaces body.1)) = behind := ⟨_, rfl⟩
    have same : (skipSpaces body.1).1 = behind := congrArg Subtype.val hbehind
    rw [hbehind, Closed, same]
    cases behind with
    | nil => simp
    | cons close more =>
      by_cases hc : close = ']'
      · simp [hc]
      · simp [hc]

theorem bracketStep_sound {g : Grammar} {start text rest : List Char}
    (h : Leaves (bracketStep g start text) rest) :
    ∃ step, Bracket g step ∧ '[' :: text = step ++ rest := by
  obtain ⟨c, inner, hc, left, hbody, hclosed⟩ := leaves_bracketStep.mp h
  obtain ⟨before, hbefore, htext⟩ := skipSpaces_sound text
  obtain ⟨body, spaces, hg, hspaces, hinner⟩ := bracketBody_sound hbody
  obtain ⟨behind, hbehind, hleft⟩ := skipSpaces_sound left
  rw [hclosed] at hleft
  refine ⟨_, .mk hbefore hg fun c hc => (List.mem_append.mp hc).elim (hspaces c) (hbehind c), ?_⟩
  simp [htext, hc, hinner, hleft]

theorem bracketStep_complete {g : Grammar} {step : List Char} (h : Bracket g step)
    (rest : List Char) : ∃ text, step ++ rest = '[' :: text ∧
      ∀ start, Leaves (bracketStep g start text) rest := by
  cases h with
  | @mk before body behind hbefore hbody hbehind =>
    obtain ⟨spaces, c, text, left, hspaces, hc, he, hread, hclosed⟩ :=
      bracketBody_complete hbody hbehind rest
    refine ⟨before ++ (spaces ++ c :: text), by simp [← he], fun start => ?_⟩
    rw [leaves_bracketStep, ← List.append_assoc, skipSpaces_complete
      (fun c hc => (List.mem_append.mp hc).elim (hbefore c) (hspaces c))
      (.cons (by simpa using hc) _)]
    exact ⟨c, text, rfl, left, hread, hclosed⟩

/-! ### Steps behind dots -/

theorem NameChar.ne {c : Char} (h : NameChar c) : c ≠ '*' ∧ c ≠ '.' ∧ c ≠ '[' := by
  refine ⟨?_, ?_, ?_⟩
  all_goals
    rintro rfl
    simp [NameChar, Mark] at h

/-- A wildcard or a plain name. -/
def IsMember (g : Grammar) (text : List Char) : Prop := (g = .path ∧ text = ['*']) ∨ PlainName text

theorem dotMember_sound {g : Grammar} {start text rest : List Char}
    (h : Leaves (dotMember g start text) rest) : ∃ name, IsMember g name ∧ text = name ++ rest := by
  cases text with
  | nil => simp [dotMember] at h
  | cons c text =>
    simp only [dotMember] at h
    split at h
    · next hc =>
      simp only [leaves_bind, allow_eq_ok, exists_unit, leaves_ok] at h
      obtain ⟨hg, rfl⟩ := h
      exact ⟨['*'], .inl ⟨hg, rfl⟩, by rw [hc]; rfl⟩
    split at h
    · next hm =>
      obtain rfl := leaves_ok.mp h
      refine ⟨c :: text.takeWhile memberChar, .inr ⟨List.cons_ne_nil _ _, ?_⟩,
        congrArg (c :: ·) List.takeWhile_append_dropWhile.symm⟩
      simp only [← memberChar_iff]
      exact List.forall_mem_cons.mpr ⟨hm, fun d hd => List.mem_takeWhile_imp hd⟩
    · simp at h

theorem dotMember_complete {g : Grammar} {name rest : List Char} (h : IsMember g name)
    (hs : Stops memberChar rest) (start : List Char) :
    Leaves (dotMember g start (name ++ rest)) rest := by
  rcases h with ⟨hg, rfl⟩ | ⟨hn, hm⟩
  · simp [dotMember, hg, Text.Rest.behind]
  · obtain ⟨c, more, rfl⟩ := List.exists_cons_of_ne_nil hn
    rw [List.forall_mem_cons] at hm
    simp only [List.cons_append, dotMember, if_neg hm.1.ne.1,
      if_pos (memberChar_iff.mpr hm.1), leaves_ok]
    exact dropWhile_append (fun d hd => memberChar_iff.mpr (hm.2 d hd)) hs

theorem IsMember.cons_form {g : Grammar} {name : List Char} (h : IsMember g name) :
    ∃ c more, c ≠ '.' ∧ c ≠ '[' ∧ name = c :: more := by
  rcases h with ⟨-, rfl⟩ | ⟨hn, hm⟩
  · exact ⟨'*', [], by decide, by decide, rfl⟩
  · obtain ⟨c, more, rfl⟩ := List.exists_cons_of_ne_nil hn
    have member := (hm c List.mem_cons_self).ne
    exact ⟨c, more, member.2.1, member.2.2, rfl⟩

theorem IsMember.step {g : Grammar} {name : List Char} (h : IsMember g name) :
    Step g ('.' :: name) := by
  rcases h with ⟨hg, rfl⟩ | hn
  · exact .wildcard hg
  · exact .name hn

theorem IsMember.deepStep {g : Grammar} {name : List Char} (hg : g = .path)
    (h : IsMember g name) : Step g ('.' :: '.' :: name) := by
  rcases h with ⟨-, rfl⟩ | hn
  · exact .deepWildcard hg
  · exact .deepName hg hn

theorem descendants_sound {g : Grammar} {start text rest : List Char} (hg : g = .path)
    (h : Leaves (descendants g start text) rest) :
    ∃ step, Step g ('.' :: '.' :: step) ∧ text = step ++ rest := by
  have member (h : Leaves (dotMember g start text) rest) :
      ∃ step, Step g ('.' :: '.' :: step) ∧ text = step ++ rest := by
    obtain ⟨name, hn, rfl⟩ := dotMember_sound h
    exact ⟨name, hn.deepStep hg, rfl⟩
  cases text with
  | nil => exact member h
  | cons c body =>
    simp only [descendants] at h
    split at h
    · next hc =>
      simp only [leaves_bind, leaves_ok] at h
      obtain ⟨left, hr, rfl⟩ := h
      obtain ⟨step, hs, he⟩ := bracketStep_sound ⟨left, hr, rfl⟩
      exact ⟨step, .deepBracket hg hs, by rw [hc]; exact he⟩
    · exact member h

/-- A dot step is read with the dot in front of it. -/
theorem dotStep_sound {g : Grammar} {start text rest : List Char}
    (h : Leaves (dotStep g start text) rest) :
    ∃ step, Step g step ∧ '.' :: text = step ++ rest := by
  have member (h : Leaves (dotMember g start text) rest) :
      ∃ step, Step g step ∧ '.' :: text = step ++ rest := by
    obtain ⟨name, hn, rfl⟩ := dotMember_sound h
    exact ⟨'.' :: name, hn.step, rfl⟩
  cases text with
  | nil => exact member h
  | cons c text =>
    simp only [dotStep] at h
    split at h
    · next hc =>
      simp only [leaves_bind, allow_eq_ok, exists_unit, leaves_ok] at h
      obtain ⟨hg, left, hr, rfl⟩ := h
      obtain ⟨step, hs, he⟩ := descendants_sound hg ⟨left, hr, rfl⟩
      refine ⟨_, hs, ?_⟩
      rw [hc]
      exact congrArg ('.' :: '.' :: ·) he
    · exact member h

theorem dotStep_complete_member {g : Grammar} {name rest : List Char} (h : IsMember g name)
    (hs : Stops memberChar rest) (start : List Char) :
    Leaves (dotStep g start (name ++ rest)) rest := by
  have read := dotMember_complete h hs start
  obtain ⟨c, more, hc, -, rfl⟩ := h.cons_form
  rw [List.cons_append] at read ⊢
  simpa only [dotStep, if_neg hc] using read

theorem dotStep_complete_deep {text rest : List Char} {start : List Char}
    (h : Leaves (descendants .path start text) rest) :
    Leaves (dotStep .path start ('.' :: text)) rest := by
  obtain ⟨left, hr, rfl⟩ := h
  simp only [dotStep, if_true, leaves_bind, allow_eq_ok, exists_unit, leaves_ok]
  exact ⟨trivial, left, hr, rfl⟩

theorem descendants_complete_member {name rest : List Char} (h : IsMember .path name)
    (hs : Stops memberChar rest) (start : List Char) :
    Leaves (descendants .path start (name ++ rest)) rest := by
  have read := dotMember_complete h hs start
  obtain ⟨c, more, -, hc, rfl⟩ := h.cons_form
  rw [List.cons_append] at read ⊢
  simpa only [descendants, if_neg hc] using read

theorem descendants_complete_bracket {bracket : List Char} (h : Bracket .path bracket)
    (start rest : List Char) : Leaves (descendants .path start (bracket ++ rest)) rest := by
  obtain ⟨text, he, hread⟩ := bracketStep_complete h rest
  obtain ⟨left, hr, rfl⟩ := hread ('[' :: text)
  rw [he]
  simp only [descendants, if_true, leaves_bind, leaves_ok]
  exact ⟨left, hr, rfl⟩

/-! ### Paths -/

/-- A step is read behind its dot or its bracket. -/
theorem step_complete {g : Grammar} {step rest : List Char} (h : Step g step)
    (hs : Stops memberChar rest) :
    (∃ text, step ++ rest = '.' :: text ∧ ∀ start, Leaves (dotStep g start text) rest) ∨
      ∃ text, step ++ rest = '[' :: text ∧ ∀ start, Leaves (bracketStep g start text) rest := by
  cases h with
  | name hn => exact .inl ⟨_, rfl, dotStep_complete_member (.inr hn) hs⟩
  | wildcard hg => exact .inl ⟨_, rfl, dotStep_complete_member (.inl ⟨hg, rfl⟩) hs⟩
  | bracket hb => exact .inr (bracketStep_complete hb rest)
  | deepName hg hn =>
    subst hg
    exact .inl ⟨_, rfl, fun start =>
      dotStep_complete_deep (descendants_complete_member (.inr hn) hs start)⟩
  | deepWildcard hg =>
    subst hg
    exact .inl ⟨_, rfl, fun start =>
      dotStep_complete_deep (descendants_complete_member (.inl ⟨rfl, rfl⟩) hs start)⟩
  | deepBracket hg hb =>
    subst hg
    exact .inl ⟨_, rfl, fun start =>
      dotStep_complete_deep (descendants_complete_bracket hb start rest)⟩

/-- No plain name goes on into the next step. -/
theorem Steps.stops {g : Grammar} {text : List Char} (h : Steps g text) :
    Stops memberChar text := by
  have none : Stops memberChar [] := nofun
  cases h with
  | nil => exact none
  | cons hstep _ =>
    cases hstep with
    | bracket hb =>
      cases hb with
      | mk => exact .cons rfl _
    | _ => exact .cons rfl _

theorem steps_complete {g : Grammar} {text : List Char} (h : Steps g text) :
    steps g text = .ok () := by
  induction h with
  | nil => simp [steps]
  | @cons step rest hstep hsteps ih =>
    rcases step_complete hstep hsteps.stops with ⟨text, he, hread⟩ | ⟨text, he, hread⟩
    · obtain ⟨left, hr, hl⟩ := hread ('.' :: text)
      rw [he, steps, if_pos rfl, hr]
      subst hl
      exact ih
    · obtain ⟨left, hr, hl⟩ := hread ('[' :: text)
      rw [he, steps, if_neg (by decide), if_pos rfl, hr]
      subst hl
      exact ih

theorem steps_sound {g : Grammar} {ahead : List Char} (h : steps g ahead = .ok ()) :
    Steps g ahead := by
  cases ahead with
  | nil => exact .nil
  | cons c text =>
    rw [steps] at h
    split at h
    · next hc =>
      obtain ⟨left, hr, h⟩ := bind_eq_ok.mp h
      obtain ⟨step, hs, he⟩ := dotStep_sound ⟨left, hr, rfl⟩
      rw [hc, he]
      exact .cons hs (steps_sound h)
    split at h
    · next hc =>
      obtain ⟨left, hr, h⟩ := bind_eq_ok.mp h
      obtain ⟨step, hs, he⟩ := bracketStep_sound ⟨left, hr, rfl⟩
      rw [hc, he]
      exact .cons (.bracket hs) (steps_sound h)
    · cases h
termination_by ahead.length
decreasing_by
  all_goals
    subst_vars
    exact Nat.lt_succ_of_lt left.2

theorem steps_eq_ok {g : Grammar} {text : List Char} : steps g text = .ok () ↔ Steps g text :=
  ⟨steps_sound, steps_complete⟩

/-- No step begins with a root. -/
theorem not_steps_root {g : Grammar} {text : List Char} : ¬Steps g ('$' :: text) := by
  rw [← steps_eq_ok, steps, if_neg (by simp), if_neg (by simp)]
  intro h
  cases h

theorem scan_eq_ok {g : Grammar} {text : List Char} : scan g text = .ok () ↔ IsPath g text := by
  constructor
  · intro h
    unfold scan at h
    split at h
    · cases h
    · exact .context (steps_sound h)
    · exact .input (steps_sound h)
    · cases h
  · rintro (⟨h⟩ | ⟨h⟩)
    · unfold scan
      split
      · next he => cases he
      · next he =>
        obtain ⟨-, rfl⟩ := List.cons.inj he
        -- no step begins with the root, so this is not a path of the context
        exact absurd h not_steps_root
      · next he =>
        obtain ⟨-, rfl⟩ := List.cons.inj he
        exact steps_complete h
      · next _ hn => exact absurd rfl (hn _)
    · exact steps_complete h

/-- A text is accepted exactly when it is a path of the grammar. -/
theorem check_eq_ok {g : Grammar} {text : String} :
    check g text = .ok () ↔ IsPath g text.toList := by
  rw [← scan_eq_ok, check]
  split
  · next h => exact iff_of_true rfl h
  · next h => exact iff_of_false nofun (by rw [h]; nofun)

end Workflow.Path
