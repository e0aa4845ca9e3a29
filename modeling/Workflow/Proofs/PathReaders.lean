import Workflow.Proofs.PathLanguage
import Workflow.Proofs.Readers

/-!
# What the readers of a path take

For every reader of what stands between brackets, two lemmas: what it has read when it succeeds,
and that it reads whatever it should. A reader takes as much as it can, so the second lemma asks
that what is ahead does not go on in the same way.

## Main results

* `quotedMembers_sound`, `quotedMembers_complete`: member names in quotes
* `indexSelectors_sound`, `indexSelectors_complete`: array selectors
* `expression_sound`, `expression_complete`: balanced expressions
-/

namespace Workflow.Path

open Text (Rest Tail Leaves LeavesWith leaves_ok leaves_error leaves_bind leavesWith_ok
  leavesWith_error leavesWith_bind exists_leaves exists_leavesWith
  Stops takeWhile_append dropWhile_append)

@[simp]
theorem allow_eq_ok {g : Grammar} {query : Query} {ahead : List Char} :
    allow g query ahead = .ok () ↔ g = .path := by
  cases g <;> simp [allow]

/-! ### Spaces -/

theorem skipSpaces_sound (ahead : List Char) :
    ∃ spaces, Spaces spaces ∧ ahead = spaces ++ (skipSpaces ahead).1 := by
  refine ⟨ahead.takeWhile (· = ' '), fun c hc => by simpa using List.mem_takeWhile_imp hc, ?_⟩
  exact List.takeWhile_append_dropWhile.symm

theorem skipSpaces_complete {spaces rest : List Char} (h : Spaces spaces)
    (hs : Stops (· = ' ') rest) : (skipSpaces (spaces ++ rest)).1 = rest :=
  dropWhile_append (fun c hc => by simpa using h c hc) hs

/-! ### Texts in quotes -/

theorem quotedTail_sound {quote : Char} {start : List Char} :
    ∀ {ahead : List Char} {n k : Nat} {rest : Tail ahead},
      quotedTail quote start ahead n = .ok (k, rest) →
        n ≤ k ∧ ∃ body, Enclosed quote body ∧ ahead = body ++ quote :: rest.1 ∧
          (body = [] → k = n) := by
  intro ahead n
  -- one case for each way to go on: a quote ends the text, a backslash takes a character with it
  fun_induction quotedTail quote start ahead n with
  | case1 n => nofun
  | case2 ahead n =>
    intro k rest h
    obtain ⟨rfl, rfl⟩ := Prod.mk.inj (Except.ok.inj h)
    exact ⟨Nat.le_refl _, [], .nil, rfl, fun _ => rfl⟩
  | case3 => nofun
  | case4 n d text hq ih =>
    intro k rest h
    obtain ⟨⟨k', rest'⟩, hr, hk⟩ := bind_eq_ok.mp h
    obtain ⟨rfl, rfl⟩ := Prod.mk.inj (Except.ok.inj hk)
    obtain ⟨hn, body, hb, he, -⟩ := ih hr
    exact ⟨Nat.le_of_succ_le hn, '\\' :: d :: body, .escaped hb, congrArg (_ :: _ :: ·) he, nofun⟩
  | case5 c text n hq hb ih =>
    intro k rest h
    obtain ⟨⟨k', rest'⟩, hr, hk⟩ := bind_eq_ok.mp h
    obtain ⟨rfl, rfl⟩ := Prod.mk.inj (Except.ok.inj hk)
    obtain ⟨hn, body, hbody, he, -⟩ := ih hr
    exact ⟨Nat.le_of_succ_le hn, c :: body, .plain hq hb hbody, congrArg (_ :: ·) he, nofun⟩

theorem quotedTail_complete {quote : Char} (hq : quote ≠ '\\') {body : List Char}
    (h : Enclosed quote body) (start rest : List Char) (n : Nat) :
    ∃ k left, quotedTail quote start (body ++ quote :: rest) n = .ok (k, left) ∧ left.1 = rest ∧
      n ≤ k ∧ (k = n → body = []) := by
  induction h generalizing n with
  | nil =>
    refine ⟨n, .behind quote rest, ?_, rfl, Nat.le_refl _, fun _ => rfl⟩
    unfold quotedTail
    simp
  | plain hc hb _ ih =>
    obtain ⟨k, left, hr, hl, hk, -⟩ := ih (n + 1)
    refine ⟨k, (Tail.after _ left).toTail, ?_, hl, by omega, by omega⟩
    unfold quotedTail
    simp [hc, hb, hr]
  | escaped _ ih =>
    obtain ⟨k, left, hr, hl, hk, -⟩ := ih (n + 1)
    refine ⟨k, (Tail.after _ (Tail.after _ left).toTail).toTail, ?_, hl, by omega, by omega⟩
    unfold quotedTail
    simp [Ne.symm hq, hr]

theorem QuoteMark.ne {c : Char} (h : QuoteMark c) : c ≠ '\\' ∧ c ≠ ' ' ∧ c ≠ ',' := by
  rcases h with rfl | rfl <;> decide

theorem QuoteMark.ne_parenthesis {c : Char} (h : QuoteMark c) : c ≠ '(' ∧ c ≠ ')' := by
  rcases h with rfl | rfl <;> decide

theorem quotedMember_sound {ahead rest : List Char} (h : Leaves (quotedMember ahead) rest) :
    ∃ name, QuotedName name ∧ ahead = name ++ rest := by
  cases ahead with
  | nil => simp [quotedMember] at h
  | cons c text =>
    by_cases hq : isQuote c = true
    · simp only [quotedMember, if_pos hq, leaves_bind, Prod.exists] at h
      obtain ⟨k, left, hr, h⟩ := h
      obtain ⟨-, body, hb, he, hn⟩ := quotedTail_sound hr
      by_cases hk : k = 0
      · simp [hk] at h
      · obtain rfl : left.1 = rest := by simpa [hk, Tail.after] using h
        refine ⟨_, .mk (isQuote_iff.mp hq) hb fun hbody => hk (hn hbody), ?_⟩
        simp [he]
    · simp [quotedMember, hq] at h

theorem quotedMember_complete {name : List Char} (h : QuotedName name) (rest : List Char) :
    Leaves (quotedMember (name ++ rest)) rest := by
  cases h with
  | @mk quote body hq hb hn =>
    have he : quote :: (body ++ [quote]) ++ rest = quote :: (body ++ quote :: rest) := by simp
    rw [he]
    obtain ⟨k, left, hr, hl, -, hk⟩ := quotedTail_complete hq.ne.1 hb
      (quote :: (body ++ quote :: rest)) rest 0
    have some : k ≠ 0 := fun h0 => hn (hk h0)
    simp [quotedMember, isQuote_iff.mpr hq, hr, some, Tail.after, hl]

/-- What is left behind a list of member names: whatever does not go on with a comma. -/
theorem leaves_quotedMembers {g : Grammar} {ahead rest : List Char} :
    Leaves (quotedMembers g ahead) rest ↔ ∃ middle, Leaves (quotedMember ahead) middle ∧
      match (skipSpaces middle).1 with
      | [] => rest = []
      | c :: text =>
        if c = ',' then g = .path ∧ Leaves (quotedMembers g (skipSpaces text).1) rest
        else rest = c :: text := by
  rw [quotedMembers, leaves_bind, exists_leaves]
  refine exists_congr fun member => and_congr_right fun _ => ?_
  -- what is left comes with a proof about its length, so the pair is named before it is split
  obtain ⟨⟨left, hl⟩, he⟩ : ∃ left, member.trans (skipSpaces member.1) = left := ⟨_, rfl⟩
  have same : (skipSpaces member.1).1 = left := congrArg Subtype.val he
  rw [he, same]
  cases left with
  | nil => simp [eq_comm]
  | cons c text =>
    by_cases hc : c = ','
    · simp only [if_pos hc, leaves_bind, allow_eq_ok, exists_unit, leaves_ok]
      rfl
    · simp [if_neg hc, eq_comm]

theorem quotedMembers_sound {g : Grammar} {ahead rest : List Char}
    (h : Leaves (quotedMembers g ahead) rest) :
    ∃ count names behind, QuotedNames count names ∧ (g = .reference → count = 1) ∧
      Spaces behind ∧ ahead = names ++ (behind ++ rest) := by
  obtain ⟨middle, hm, hrest⟩ := leaves_quotedMembers.mp h
  obtain ⟨name, hname, he⟩ := quotedMember_sound hm
  obtain ⟨before, hbefore, hskip⟩ := skipSpaces_sound middle
  cases hleft : (skipSpaces middle).1 with
  | nil =>
    rw [hleft] at hrest hskip
    exact ⟨1, name, before, .single hname, fun _ => rfl, hbefore, by rw [he, hskip, hrest]⟩
  | cons c text =>
    rw [hleft] at hrest hskip
    dsimp only at hrest
    split at hrest
    · next hc =>
      obtain ⟨rfl, hmore⟩ := hrest
      -- a name and a comma are gone, so the recursion is on a shorter text
      have shorter : (skipSpaces text).1.length < ahead.length := by
        have := (skipSpaces text).2
        rw [he, hskip]
        simp only [List.length_append, List.length_cons]
        omega
      obtain ⟨count, names, behind, hnames, -, hbehind, hread⟩ := quotedMembers_sound hmore
      obtain ⟨after, hafter, htext⟩ := skipSpaces_sound text
      rw [hread] at htext
      exact ⟨count + 1, _, behind, .cons hname hbefore hafter hnames, nofun, hbehind,
        by simp [he, hskip, htext, hc]⟩
    · exact ⟨1, name, before, .single hname, fun _ => rfl, hbefore, by rw [he, hskip, hrest]⟩
termination_by ahead.length

theorem QuotedNames.cons_form {count : Nat} {names : List Char} (h : QuotedNames count names) :
    ∃ quote text, QuoteMark quote ∧ names = quote :: text := by
  have first {name : List Char} (h : QuotedName name) (more : List Char) :
      ∃ quote text, QuoteMark quote ∧ name ++ more = quote :: text := by
    cases h with
    | mk hq => exact ⟨_, _, hq, rfl⟩
  cases h with
  | single h => simpa using first h []
  | cons h => exact first h _

theorem QuotedNames.pos {count : Nat} {names : List Char} (h : QuotedNames count names) :
    0 < count := by
  cases h <;> omega

theorem quotedMembers_complete {g : Grammar} {count : Nat} {names : List Char}
    (h : QuotedNames count names) (hg : g = .reference → count = 1) {behind rest : List Char}
    (hb : Spaces behind) (hs : Stops (· = ' ') rest) (hc : Stops (· = ',') rest) :
    Leaves (quotedMembers g (names ++ (behind ++ rest))) rest := by
  induction h with
  | @single name hname =>
    rw [leaves_quotedMembers]
    refine ⟨_, quotedMember_complete hname _, ?_⟩
    rw [skipSpaces_complete hb hs]
    cases rest with
    | nil => rfl
    | cons c text =>
      have no_comma : c ≠ ',' := by simpa using hc c rfl
      simp [no_comma]
  | @cons count name before after names hname hbefore hafter hnames ih =>
    -- a reference has one name, so another one is in a path
    have path : g = .path := by
      cases g with
      | path => rfl
      | reference => exact absurd (hg rfl) (by have := hnames.pos; omega)
    subst path
    obtain ⟨quote, text, hquote, he⟩ := hnames.cons_form
    have hstop : Stops (· = ' ') (names ++ (behind ++ rest)) := by
      rw [he]
      exact .cons (by simpa using hquote.ne.2.1) _
    rw [leaves_quotedMembers, List.append_assoc]
    refine ⟨_, quotedMember_complete hname _, ?_⟩
    rw [List.append_assoc, List.cons_append, skipSpaces_complete hbefore (.cons rfl _)]
    simp only [if_true, true_and]
    rw [List.append_assoc, skipSpaces_complete hafter hstop]
    exact ih nofun

/-! ### Selectors of arrays -/

/-- What an integer that was looked for looks like. -/
def IntegerText : Option Bool → List Char → Prop
  | none, text => text = []
  | some negative, text => Integer negative text

theorem IntegerText.optional {o : Option Bool} {text : List Char} (h : IntegerText o text) :
    OptionalInteger text := by
  cases o with
  | none => exact .inl h
  | some negative => exact .inr ⟨negative, h⟩

theorem digits_takeWhile {text : List Char} (h : text.takeWhile Char.isDigit ≠ []) :
    Digits (text.takeWhile Char.isDigit) :=
  ⟨h, fun _ hc => List.mem_takeWhile_imp hc⟩

theorem integer_sound {ahead rest : List Char} {o : Option Bool}
    (h : LeavesWith (integer ahead) o rest) :
    ∃ text, IntegerText o text ∧ ahead = text ++ rest := by
  obtain ⟨left, hi, rfl⟩ := h
  cases ahead with
  | nil =>
    obtain ⟨rfl, rfl⟩ := Prod.mk.inj (Except.ok.inj hi)
    exact ⟨[], rfl, rfl⟩
  | cons c text =>
    -- behind a sign there must be digits; without one there may be no integer at all
    by_cases hc : c = '-'
    · subst hc
      cases ht : text.takeWhile Char.isDigit with
      | nil => simp [integer, digits, ht] at hi
      | cons d ds =>
        simp only [integer, if_true, digits, ht, Except.ok.injEq, Prod.mk.injEq] at hi
        obtain ⟨rfl, rfl⟩ := hi
        refine ⟨'-' :: text.takeWhile Char.isDigit, .negative (digits_takeWhile (by simp [ht])), ?_⟩
        exact congrArg ('-' :: ·) List.takeWhile_append_dropWhile.symm
    · cases ht : (c :: text).takeWhile Char.isDigit with
      | nil =>
        simp only [integer, if_neg hc, digits, ht, Except.ok.injEq, Prod.mk.injEq] at hi
        obtain ⟨rfl, rfl⟩ := hi
        refine ⟨[], rfl, ?_⟩
        have whole := List.takeWhile_append_dropWhile (p := Char.isDigit) (l := c :: text)
        rw [ht] at whole
        exact whole.symm
      | cons d ds =>
        simp only [integer, if_neg hc, digits, ht, Except.ok.injEq, Prod.mk.injEq] at hi
        obtain ⟨rfl, rfl⟩ := hi
        refine ⟨(c :: text).takeWhile Char.isDigit, .positive (digits_takeWhile (by simp [ht])), ?_⟩
        exact List.takeWhile_append_dropWhile.symm

/-- The characters of integers and slices. -/
def selectorChar (c : Char) : Bool := c.isDigit || c == '-' || c == ':'

theorem isDigit_ne {c : Char} (h : c.isDigit = true) : c ≠ '-' := by
  rintro rfl
  exact absurd h (by decide)

theorem integer_complete {o : Option Bool} {text rest : List Char} (h : IntegerText o text)
    (hs : Stops (fun c => c.isDigit || c == '-') rest) :
    LeavesWith (integer (text ++ rest)) o rest := by
  have stop : Stops Char.isDigit rest := fun c hc => by
    simpa using (Bool.or_eq_false_iff.mp (hs c hc)).1
  -- an integer is only absent if neither a sign nor a digit is ahead
  cases o with
  | none =>
    obtain rfl : text = [] := h
    cases rest with
    | nil => exact ⟨Tail.whole [], rfl, rfl⟩
    | cons c rest =>
      have no_sign : c ≠ '-' := by simpa using (Bool.or_eq_false_iff.mp (hs c rfl)).2
      have no_digit : ¬c.isDigit = true := by simpa using stop c rfl
      refine ⟨Tail.dropWhile Char.isDigit (c :: rest), ?_, List.dropWhile_cons_of_neg no_digit⟩
      simp [integer, no_sign, digits, List.takeWhile_cons_of_neg no_digit]
  | some negative =>
    cases h with
    | negative hd =>
      have read := takeWhile_append hd.2 stop
      obtain ⟨d, ds, rfl⟩ := List.exists_cons_of_ne_nil hd.1
      refine ⟨(Tail.after '-' (.dropWhile Char.isDigit (d :: ds ++ rest))).toTail, ?_,
        dropWhile_append hd.2 stop⟩
      simp only [List.cons_append] at read ⊢
      simp [integer, digits, read]
    | positive hd =>
      have read := takeWhile_append hd.2 stop
      obtain ⟨d, ds, rfl⟩ := List.exists_cons_of_ne_nil hd.1
      have no_sign := isDigit_ne (hd.2 d List.mem_cons_self)
      refine ⟨Tail.dropWhile Char.isDigit (d :: ds ++ rest), ?_, dropWhile_append hd.2 stop⟩
      simp only [List.cons_append] at read ⊢
      simp [integer, no_sign, digits, read]

theorem leaves_sliceTail {ahead rest : List Char} :
    Leaves (sliceTail ahead) rest ↔ ∃ o second, LeavesWith (integer ahead) o second ∧
      ((∃ text, second = ':' :: text ∧ ∃ o', LeavesWith (integer text) o' rest) ∨
        (second.head? ≠ some ':' ∧ rest = second)) := by
  rw [sliceTail, leaves_bind, Prod.exists, exists_leavesWith]
  refine exists_congr fun o => exists_congr fun ⟨second, hl⟩ => and_congr_right fun _ => ?_
  cases second with
  | nil => simp [colon?, eq_comm]
  | cons c text =>
    by_cases hc : c = ':'
    · subst hc
      simp only [colon?, if_true, leaves_bind, Prod.exists, leaves_ok, List.cons.injEq, true_and,
        exists_eq_left', List.head?_cons, ne_eq, not_true_eq_false, false_and, or_false, LeavesWith]
      rfl
    · simp [colon?, hc, eq_comm]

theorem leaves_indexSelector {ahead rest : List Char} {kind : IndexKind} :
    LeavesWith (indexSelector ahead) kind rest ↔ ∃ o first, LeavesWith (integer ahead) o first ∧
      ((∃ text, first = ':' :: text ∧ kind = .slice ∧ Leaves (sliceTail text) rest) ∨
        (first.head? ≠ some ':' ∧ ∃ negative, o = some negative ∧ kind = .index negative ∧
          rest = first)) := by
  rw [indexSelector, leavesWith_bind, Prod.exists, exists_leavesWith]
  refine exists_congr fun o => exists_congr fun ⟨first, hl⟩ => and_congr_right fun _ => ?_
  -- a colon behind the first integer tells a slice from an index
  cases first with
  | nil =>
    cases o with
    | none => simp [colon?]
    | some negative => simp [colon?, eq_comm]
  | cons c text =>
    by_cases hc : c = ':'
    · subst hc
      simp only [colon?, if_true, leavesWith_bind, leavesWith_ok, List.cons.injEq, true_and,
        exists_eq_left', List.head?_cons, ne_eq, not_true_eq_false, false_and, or_false, Leaves]
      constructor
      · rintro ⟨left, h, rfl, hr⟩
        exact ⟨rfl, left, h, hr⟩
      · rintro ⟨rfl, left, h, hr⟩
        exact ⟨left, h, rfl, hr⟩
    · cases o with
      | none => simp [colon?, hc]
      | some negative => simp [colon?, hc, eq_comm]

theorem indexSelector_sound {ahead rest : List Char} {kind : IndexKind}
    (h : LeavesWith (indexSelector ahead) kind rest) :
    ∃ text, ArraySelector kind text ∧ ahead = text ++ rest := by
  obtain ⟨o, _, hfirst, ⟨text, rfl, rfl, htail⟩ | ⟨-, negative, rfl, rfl, rfl⟩⟩ :=
    leaves_indexSelector.mp h
  -- a slice of three integers or of two, or an index
  · obtain ⟨first, ho, rfl⟩ := integer_sound hfirst
    obtain ⟨o', _, hsecond, ⟨text', rfl, o'', hthird⟩ | ⟨-, rfl⟩⟩ :=
      leaves_sliceTail.mp htail
    · obtain ⟨second, ho', rfl⟩ := integer_sound hsecond
      obtain ⟨third, ho'', rfl⟩ := integer_sound hthird
      exact ⟨_, .stepped ho.optional ho'.optional ho''.optional, by simp⟩
    · obtain ⟨second, ho', rfl⟩ := integer_sound hsecond
      exact ⟨_, .slice ho.optional ho'.optional, by simp⟩
  · obtain ⟨text, ho, rfl⟩ := integer_sound hfirst
    exact ⟨text, .index ho, rfl⟩

theorem OptionalInteger.exists_text {text : List Char} (h : OptionalInteger text) :
    ∃ o, IntegerText o text := by
  rcases h with rfl | ⟨negative, h⟩
  · exact ⟨none, rfl⟩
  · exact ⟨some negative, h⟩

theorem indexSelector_complete {kind : IndexKind} {text rest : List Char}
    (h : ArraySelector kind text) (hs : Stops selectorChar rest) :
    LeavesWith (indexSelector (text ++ rest)) kind rest := by
  have stop : Stops (fun c => c.isDigit || c == '-') rest := fun c hc =>
    (Bool.or_eq_false_iff.mp (hs c hc)).1
  have no_colon : rest.head? ≠ some ':' := fun hc => by simpa [selectorChar] using hs _ hc
  have colon (text : List Char) : Stops (fun c => c.isDigit || c == '-') (':' :: text) :=
    .cons rfl text
  rw [leaves_indexSelector]
  cases h with
  | index h =>
    exact ⟨some _, rest, integer_complete h stop, .inr ⟨no_colon, _, rfl, rfl, rfl⟩⟩
  | slice hfirst hsecond =>
    obtain ⟨o, ho⟩ := hfirst.exists_text
    obtain ⟨o', ho'⟩ := hsecond.exists_text
    rw [List.append_assoc]
    refine ⟨o, _, integer_complete ho (colon _), .inl ⟨_, rfl, rfl, ?_⟩⟩
    exact leaves_sliceTail.mpr ⟨o', rest, integer_complete ho' stop, .inr ⟨no_colon, rfl⟩⟩
  | stepped hfirst hsecond hthird =>
    obtain ⟨o, ho⟩ := hfirst.exists_text
    obtain ⟨o', ho'⟩ := hsecond.exists_text
    obtain ⟨o'', ho''⟩ := hthird.exists_text
    rw [List.append_assoc]
    refine ⟨o, _, integer_complete ho (colon _), .inl ⟨_, rfl, rfl, ?_⟩⟩
    rw [leaves_sliceTail, List.append_eq, List.append_assoc]
    exact ⟨o', _, integer_complete ho' (colon _), .inl ⟨_, rfl, o'', integer_complete ho'' stop⟩⟩

/-- What is left behind a list of array selectors: whatever does not go on with a comma. -/
theorem leaves_indexSelectors {ahead rest : List Char} {kinds : List IndexKind} :
    LeavesWith (indexSelectors ahead) kinds rest ↔ ∃ kind middle,
      LeavesWith (indexSelector (skipSpaces ahead).1) kind middle ∧
        match (skipSpaces middle).1 with
        | [] => kinds = [kind] ∧ rest = []
        | c :: text =>
          if c = ',' then ∃ more, kinds = kind :: more ∧ LeavesWith (indexSelectors text) more rest
          else kinds = [kind] ∧ rest = c :: text := by
  rw [indexSelectors, leavesWith_bind, Prod.exists, exists_leavesWith]
  refine exists_congr fun kind => exists_congr fun selector => and_congr_right fun _ => ?_
  -- as with member names, the pair is named before it is split
  obtain ⟨⟨left, hl⟩, he⟩ : ∃ left, (skipSpaces ahead).trans
    (selector.trans (skipSpaces selector.1)) = left := ⟨_, rfl⟩
  have same : (skipSpaces selector.1).1 = left := congrArg Subtype.val he
  rw [same]
  simp only [he]
  cases left with
  | nil => simp [eq_comm]
  | cons c text =>
    by_cases hc : c = ','
    · simp only [if_pos hc, leavesWith_bind, Prod.exists, leavesWith_ok]
      constructor
      · rintro ⟨more, left, h, rfl, hr⟩
        exact ⟨more, rfl, left, h, hr⟩
      · rintro ⟨more, rfl, left, h, hr⟩
        exact ⟨more, left, h, rfl, hr⟩
    · simp [if_neg hc, eq_comm]

theorem indexSelectors_sound {ahead rest : List Char} {kinds : List IndexKind}
    (h : LeavesWith (indexSelectors ahead) kinds rest) :
    ∃ text, ArraySelectors kinds text ∧ ahead = text ++ rest := by
  obtain ⟨kind, middle, hselector, hrest⟩ := leaves_indexSelectors.mp h
  obtain ⟨before, hbefore, hahead⟩ := skipSpaces_sound ahead
  obtain ⟨selector, hs, he⟩ := indexSelector_sound hselector
  obtain ⟨behind, hbehind, hskip⟩ := skipSpaces_sound middle
  rw [he] at hahead
  cases hleft : (skipSpaces middle).1 with
  | nil =>
    rw [hleft] at hrest hskip
    obtain ⟨rfl, rfl⟩ := hrest
    exact ⟨_, .single hbefore hs hbehind, by simp [hahead, hskip]⟩
  | cons c text =>
    rw [hleft] at hrest hskip
    dsimp only at hrest
    split at hrest
    · next hc =>
      obtain ⟨more, rfl, hmore⟩ := hrest
      -- a selector and a comma are gone, so the recursion is on a shorter text
      have shorter : text.length < ahead.length := by
        rw [hahead, hskip]
        simp only [List.length_append, List.length_cons]
        omega
      obtain ⟨rest', hrest', rfl⟩ := indexSelectors_sound hmore
      exact ⟨_, .cons hbefore hs hbehind hrest', by simp [hahead, hskip, hc]⟩
    · obtain ⟨rfl, rfl⟩ := hrest
      exact ⟨_, .single hbefore hs hbehind, by simp [hahead, hskip]⟩
termination_by ahead.length

theorem Digits.cons_form {text : List Char} (h : Digits text) :
    ∃ c more, c.isDigit = true ∧ text = c :: more := by
  obtain ⟨c, more, rfl⟩ := List.exists_cons_of_ne_nil h.1
  exact ⟨c, more, h.2 c List.mem_cons_self, rfl⟩

theorem Integer.cons_form {negative : Bool} {text : List Char} (h : Integer negative text) :
    ∃ c more, selectorChar c = true ∧ text = c :: more := by
  cases h with
  | positive hd =>
    obtain ⟨c, more, hc, rfl⟩ := hd.cons_form
    exact ⟨c, more, by simp [selectorChar, hc], rfl⟩
  | negative hd => exact ⟨'-', _, by decide, rfl⟩

/-- An array selector begins with a digit, a sign or a colon. -/
theorem ArraySelector.cons_form {kind : IndexKind} {text : List Char}
    (h : ArraySelector kind text) : ∃ c more, selectorChar c = true ∧ text = c :: more := by
  have first {a : List Char} (ha : OptionalInteger a) (b : List Char) :
      ∃ c more, selectorChar c = true ∧ a ++ ':' :: b = c :: more := by
    rcases ha with rfl | ⟨negative, ha⟩
    · exact ⟨':', b, by decide, rfl⟩
    · obtain ⟨c, more, hc, rfl⟩ := ha.cons_form
      exact ⟨c, _, hc, rfl⟩
  cases h with
  | index h => exact h.cons_form
  | slice ha => exact first ha _
  | stepped ha => exact first ha _

theorem Spaces.stops {p : Char → Bool} {spaces rest : List Char} (h : Spaces spaces)
    (hp : p ' ' = false) (hs : Stops p rest) : Stops p (spaces ++ rest) := by
  cases spaces with
  | nil => exact hs
  | cons c spaces =>
    obtain rfl := h c List.mem_cons_self
    exact .cons hp _

theorem indexSelectors_complete {kinds : List IndexKind} {text rest : List Char}
    (h : ArraySelectors kinds text)
    (hs : Stops (fun c => selectorChar c || c == ' ' || c == ',') rest) :
    LeavesWith (indexSelectors (text ++ rest)) kinds rest := by
  -- what a selector is read from, when something that is no part of it stands behind it
  have read {kind : IndexKind} {before selector behind rest : List Char} (hbefore : Spaces before)
      (h : ArraySelector kind selector) (hbehind : Spaces behind) (hs : Stops selectorChar rest) :
      LeavesWith (indexSelector (skipSpaces (before ++ (selector ++ (behind ++ rest)))).1) kind
        (behind ++ rest) := by
    obtain ⟨c, more, hc, he⟩ := h.cons_form
    have start : Stops (· = ' ') (selector ++ (behind ++ rest)) := by
      rw [he]
      refine .cons ?_ _
      simpa using fun hsp : c = ' ' => by simp [hsp, selectorChar] at hc
    rw [skipSpaces_complete hbefore start]
    exact indexSelector_complete h (hbehind.stops (by decide) hs)
  induction h with
  | @single kind before selector behind hbefore hselector hbehind =>
    have hsel : Stops selectorChar rest := fun c hc => by
      simpa using (Bool.or_eq_false_iff.mp (Bool.or_eq_false_iff.mp (hs c hc)).1).1
    have hsp : Stops (· = ' ') rest := fun c hc => by
      simpa using (Bool.or_eq_false_iff.mp (Bool.or_eq_false_iff.mp (hs c hc)).1).2
    rw [leaves_indexSelectors, List.append_assoc, List.append_assoc]
    refine ⟨kind, _, read hbefore hselector hbehind hsel, ?_⟩
    rw [skipSpaces_complete hbehind hsp]
    cases rest with
    | nil => exact ⟨rfl, rfl⟩
    | cons c text =>
      have no_comma : c ≠ ',' := by simpa using (Bool.or_eq_false_iff.mp (hs c rfl)).2
      simp [no_comma]
  | @cons kind kinds before selector behind more hbefore hselector hbehind hmore ih =>
    rw [leaves_indexSelectors, List.append_assoc, List.append_assoc, List.append_assoc,
      List.cons_append]
    refine ⟨kind, _, read hbefore hselector hbehind (.cons rfl _), ?_⟩
    rw [skipSpaces_complete hbehind (.cons rfl _)]
    simpa using ih

/-! ### Expressions -/

theorem leaves_expressionTail {start text rest : List Char} {c : Char} {depth content : Nat} :
    Leaves (expressionTail start (c :: text) depth content) rest ↔
      if c = '(' then Leaves (expressionTail start text (depth + 1) (content + 1)) rest
      else if c = ')' then
        if depth = 0 then content ≠ 0 ∧ rest = text
        else Leaves (expressionTail start text (depth - 1) (content + 1)) rest
      else if isQuote c = true then
        ∃ k quoted, LeavesWith (quotedTail c (c :: text) text 0) k quoted ∧
          Leaves (expressionTail start quoted depth (content + 1)) rest
      else Leaves (expressionTail start text depth (content + 1)) rest := by
  -- one case for each kind of character, in the order in which the reader asks
  rw [expressionTail]
  split
  · rw [leaves_bind, Leaves]
    simp only [leaves_ok]
    rfl
  split
  · split
    · by_cases hc : content = 0
      · simp [hc]
      · simp only [hc, if_false, leaves_ok, ne_eq, not_false_eq_true, true_and]
        exact eq_comm
    · rw [leaves_bind, Leaves]
      simp only [leaves_ok]
      rfl
  split
  · rw [leaves_bind, Prod.exists, exists_leavesWith]
    refine exists_congr fun k => exists_congr fun quoted => and_congr_right fun _ => ?_
    rw [leaves_bind, Leaves]
    simp only [leaves_ok]
    rfl
  · rw [leaves_bind, Leaves]
    simp only [leaves_ok]
    rfl

theorem expressionTail_sound {start ahead rest : List Char} {depth content : Nat}
    (h : Leaves (expressionTail start ahead depth content) rest) :
    ∃ body, Closes depth body ∧ ahead = body ++ rest ∧
      (depth = 0 → content = 0 → body ≠ [')']) := by
  cases ahead with
  | nil => simp [expressionTail] at h
  | cons c text =>
    rw [leaves_expressionTail] at h
    split at h
    · next hc =>
      obtain ⟨body, hb, rfl, -⟩ := expressionTail_sound h
      exact ⟨_, hb.open_, by rw [hc]; rfl, fun _ _ => by simp⟩
    split at h
    · next hc =>
      split at h
      -- the last parenthesis, which may not be the first character
      · next hd =>
        obtain ⟨hn, rfl⟩ := h
        subst hd
        exact ⟨[')'], .last .nil, by rw [hc]; rfl, fun _ h0 => absurd h0 hn⟩
      · next hd =>
        obtain ⟨d, rfl⟩ := Nat.exists_eq_succ_of_ne_zero hd
        obtain ⟨body, hb, rfl, -⟩ := expressionTail_sound h
        exact ⟨_, .one .nil hb, by rw [hc]; rfl, by simp⟩
    split at h
    · next hq =>
      obtain ⟨k, _, ⟨left, hr, rfl⟩, h⟩ := h
      obtain ⟨-, quoted, hquoted, he, -⟩ := quotedTail_sound hr
      obtain ⟨body, hb, hbody, -⟩ := expressionTail_sound h
      refine ⟨_, hb.quoted (.mk (isQuote_iff.mp hq) hquoted), by rw [he, hbody]; simp, fun _ _ => ?_⟩
      simp
    · next ho hc hq =>
      obtain ⟨body, hb, rfl, -⟩ := expressionTail_sound h
      exact ⟨_, hb.plain ho hc (mt isQuote_iff.mpr hq), rfl, fun _ _ he => hc (List.cons.inj he).1⟩
termination_by ahead.length
decreasing_by
  all_goals
    subst_vars
    grind

theorem expressionTail_complete {start body rest : List Char} {depth content : Nat}
    (h : Closes depth body) (hn : depth = 0 → content = 0 → body ≠ [')']) :
    Leaves (expressionTail start (body ++ rest) depth content) rest := by
  -- behind its first character an expression is not empty
  have some (P : Prop) : content + 1 = 0 → P := fun h0 => absurd h0 (Nat.succ_ne_zero _)
  rcases h.cases_first with ⟨rfl, rfl⟩ | ⟨d, text, rfl, rfl, ht⟩ | ⟨c, text, ho, hc, hq, rfl, ht⟩ |
    ⟨quotation, text, hq, rfl, ht⟩ | ⟨text, rfl, ht⟩
  · rw [List.singleton_append, leaves_expressionTail]
    simpa using fun h0 => hn rfl h0 rfl
  · rw [List.cons_append, leaves_expressionTail]
    simpa using @expressionTail_complete start text rest d (content + 1) ht fun _ => some _
  · rw [List.cons_append, leaves_expressionTail, if_neg ho, if_neg hc,
      if_neg (mt isQuote_iff.mp hq)]
    exact expressionTail_complete ht fun _ => some _
  · cases hq with
    | @mk quote quoted hquote hbody =>
      obtain ⟨no_open, no_close⟩ := hquote.ne_parenthesis
      obtain ⟨k, left, hr, hl, -⟩ := quotedTail_complete hquote.ne.1 hbody
        (quote :: (quoted ++ quote :: (text ++ rest))) (text ++ rest) 0
      have shape : quote :: (quoted ++ [quote]) ++ text ++ rest =
          quote :: (quoted ++ quote :: (text ++ rest)) := by simp
      rw [shape, leaves_expressionTail, if_neg no_open, if_neg no_close,
        if_pos (isQuote_iff.mpr hquote)]
      exact ⟨k, text ++ rest, ⟨left, hr, hl⟩, expressionTail_complete ht fun _ => some _⟩
  · rw [List.cons_append, leaves_expressionTail, if_pos rfl]
    exact expressionTail_complete ht nofun
termination_by body.length
decreasing_by
  all_goals
    subst_vars
    simp only [List.length_cons, List.length_append]
    omega

theorem expression_sound {ahead rest : List Char} (h : Leaves (expression ahead) rest) :
    ∃ text, Expression text ∧ ahead = text ++ rest := by
  cases ahead with
  | nil => simp [expression] at h
  | cons c text =>
    by_cases hc : c = '('
    · simp only [expression, if_pos hc, leaves_bind, leaves_ok] at h
      obtain ⟨left, hr, rfl⟩ := h
      obtain ⟨body, hb, he, hn⟩ := expressionTail_sound ⟨left, hr, rfl⟩
      cases hb with
      | @last inner hi =>
        refine ⟨_, .mk hi fun h0 => hn rfl rfl (by rw [h0]; rfl), ?_⟩
        simp [hc, he, Tail.after]
    · simp [expression, hc] at h

theorem expression_complete {text : List Char} (h : Expression text) (rest : List Char) :
    Leaves (expression (text ++ rest)) rest := by
  cases h with
  | @mk inner hi hn =>
    obtain ⟨left, hr, hl⟩ := @expressionTail_complete ('(' :: (inner ++ [')'] ++ rest)) _ rest 0 0
      (.last hi) fun _ _ h1 => hn (by simpa using h1)
    have shape : '(' :: (inner ++ [')']) ++ rest = '(' :: (inner ++ [')'] ++ rest) := by simp
    rw [shape]
    simp only [expression, if_true, leaves_bind, leaves_ok]
    exact ⟨left, hr, hl⟩

end Workflow.Path
