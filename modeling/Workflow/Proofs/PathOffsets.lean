import Mathlib.Control.Monad.Basic
import Mathlib.Data.String.Basic
import Workflow.Path.Scan
import Workflow.Proofs.Failures

/-!
# Where a path is refused

Every reader of a path is given an end of the path, and what it leaves is an end of the path again.
The place of a fault is such an end, too: the one the reader is at, or one that was kept when a
quoted text, a bracket or an expression began. So the offset of a refusal is the length of all that
stands before that end. It is not behind the path and not inside a character; and if the message
quotes a character as the one that was met, the end begins with that character.

## Main definitions

* `Reason.Quotes`: the message of a reason quotes a character that was met
* `Fault.MetIn`: a fault that was met in a text
* `Reads`: a reading that does not leave a text

## Main results

* `Reads.bind`: readings that are made of steps
* `reads_steps`, `reads_scan`: the steps of a path, and a whole path
* `check_offset`: the offset of a refusal is a position in the path
-/

namespace Workflow

/-! ### Bytes -/

theorem Text.byteLength_eq (text : List Char) : byteLength text = String.utf8Len text := by
  induction text with
  | nil => rfl
  | cons c text ih => rw [byteLength, String.utf8Len_cons, ih, Nat.add_comm]

namespace Path

open Text (Rest Tail)

/-! ### What a message quotes -/

/-- The message of a reason quotes a character as the one that was met. -/
def Reason.Quotes (r : Reason) (c : Char) : Prop :=
  r.message = "unexpected character '" ++ c.toString ++ "'" ∨
    r.message = "unexpected character '" ++ c.toString ++ "' in brackets" ∨
    ∃ expected : Char,
      r.message = "expected '" ++ expected.toString ++ "' but found '" ++ c.toString ++ "'"

/-- The character that a reason holds, if one was met. -/
def Reason.met? : Reason → Option Char
  | unexpected c | unexpectedInBrackets c => some c
  | bracketExpected found => found
  | _ => none

/-- How much stands before and behind the character in the messages that quote one. -/
def quotingLengths : List (ℕ × ℕ) := [(22, 1), (22, 13), (24, 1)]

/-- A message has a character in the place where a message of its length may quote one. -/
def Quoting (message : String) (c : Char) : Prop :=
  ∃ before behind, message = before ++ c.toString ++ behind ∧
    (before.length, behind.length) ∈ quotingLengths

namespace Quoting

variable {message : String} {c d : Char}

theorem length_message (h : Quoting message c) :
    ∃ lengths ∈ quotingLengths, message.length = lengths.1 + lengths.2 + 1 := by
  obtain ⟨before, behind, rfl, known⟩ := h
  refine ⟨_, known, ?_⟩
  simp only [String.length_append, Char.toString_eq_singleton, String.length_singleton]
  omega

/-- The length of a message tells the place. -/
theorem unique (hc : Quoting message c) (hd : Quoting message d) : c = d := by
  obtain ⟨before, behind, rfl, known⟩ := hc
  obtain ⟨before', behind', same, known'⟩ := hd
  have lengths := congrArg String.length same
  simp only [String.length_append, Char.toString_eq_singleton, String.length_singleton] at lengths
  -- no two forms are of the same length, so both messages are split in the same place
  have place : before.length = before'.length := by
    simp only [quotingLengths, List.mem_cons, Prod.mk.injEq, List.not_mem_nil, or_false]
      at known known'
    omega
  have letters := congrArg String.toList same
  simp only [String.toList_append, List.append_assoc] at letters
  have behind := (List.append_inj letters (by simp only [String.length_toList, place])).2
  simp only [Char.toString_eq_singleton, String.toList_singleton, List.singleton_append] at behind
  exact (List.cons.inj behind).1

end Quoting

theorem Reason.Quotes.quoting {r : Reason} {c : Char} (h : r.Quotes c) : Quoting r.message c := by
  rcases h with h | h | ⟨expected, h⟩
  · exact ⟨_, _, h, by decide +kernel⟩
  · exact ⟨_, _, h, by decide +kernel⟩
  · refine ⟨_, _, h, ?_⟩
    simp only [String.length_append, Char.toString_eq_singleton, String.length_singleton]
    decide +kernel

theorem Reason.quoting_of_met? {r : Reason} {c : Char} (h : r.met? = some c) :
    Quoting r.message c := by
  cases r with
  | unexpected d => cases h; exact ⟨_, _, rfl, by decide +kernel⟩
  | unexpectedInBrackets d => cases h; exact ⟨_, _, rfl, by decide +kernel⟩
  | bracketExpected found => cases h; exact ⟨_, _, rfl, by decide +kernel⟩
  | _ => cases h

theorem head?_toList_append {before : String} {c : Char} (behind : String)
    (h : before.toList.head? = some c) : (before ++ behind).toList.head? = some c := by
  rw [String.toList_append, List.head?_append, h, Option.some_or]

/-- The message of a missing root is as long as one that quotes a character, but begins with
another letter. -/
theorem Reason.not_quotes_noRoot {c : Char} : ¬noRoot.Quotes c := by
  have first : noRoot.message.toList.head? = some 'p' := by decide +kernel
  have unexpected (behind : String) :
      ("unexpected character '" ++ behind).toList.head? = some 'u' := head?_toList_append _ rfl
  have expected (behind : String) : ("expected '" ++ behind).toList.head? = some 'e' :=
    head?_toList_append _ rfl
  rintro (h | h | ⟨x, h⟩) <;> rw [h] at first <;> simp only [String.append_assoc] at first
  · cases (unexpected _).symm.trans first
  · cases (unexpected _).symm.trans first
  · cases (expected _).symm.trans first

/-- **What a message quotes is held by its reason.** -/
theorem Reason.met?_of_quotes {r : Reason} {c : Char} (h : r.Quotes c) : r.met? = some c := by
  cases hr : r.met? with
  | some d => rw [h.quoting.unique (quoting_of_met? hr)]
  | none =>
    -- no other message is as long as one that quotes a character, but for that of a missing root
    have length : r.message.length ∈ quotingLengths.map fun l => l.1 + l.2 + 1 := by
      obtain ⟨lengths, known, he⟩ := h.quoting.length_message
      exact List.mem_map.mpr ⟨lengths, known, he.symm⟩
    cases r with
    | noRoot => exact absurd h not_quotes_noRoot
    | unexpected d | unexpectedInBrackets d => cases hr
    | bracketExpected found =>
      cases hr
      exact absurd length (by decide +kernel)
    | refused query => cases query <;> exact absurd length (by decide +kernel)
    | _ => exact absurd length (by decide +kernel)

/-! ### Readings that do not leave a text -/

/-- A fault that was met in a text. Its place is an end of the text, and if the reason holds a
character that was met, this end begins with it. -/
structure Fault.MetIn (text : List Char) (f : Fault) : Prop where
  suffix : f.ahead <:+ text
  head : ∀ c ∈ f.reason.met?, f.ahead.head? = some c

/-- A reading that does not leave a text: what is left behind it is an end of the text, and a fault
was met in the text. -/
structure Reads {α : Type} (text : List Char) (left : α → List Char) (x : Except Fault α) :
    Prop where
  leaves : ∀ a, x = .ok a → left a <:+ text
  fails : FailsOnly (Fault.MetIn text) x

namespace Reads

variable {α β : Type} {text ahead : List Char} {left : α → List Char} {left' : β → List Char}

theorem ok {a : α} (h : left a <:+ text) : Reads text left (.ok a) where
  leaves _ he := Except.ok.inj he ▸ h
  fails := failsOnly_ok

theorem fault {reason : Reason} (h : ahead <:+ text) (none : reason.met? = none) :
    Reads text left (.error ⟨reason, ahead⟩) where
  leaves _ := nofun
  fails := failsOnly_error.mpr ⟨h, by simp [none]⟩

/-- A fault that is met at a character may hold it. -/
theorem faultAt {reason : Reason} {c : Char} {more : List Char} (h : c :: more <:+ text)
    (met : reason.met? = some c) : Reads text left (.error ⟨reason, c :: more⟩) where
  leaves _ := nofun
  fails := failsOnly_error.mpr ⟨h, by simp [met]⟩

/-- **Readings one behind the other** do not leave the text if none of them does. -/
theorem bind {x : Except Fault α} {f : α → Except Fault β} (hx : Reads text left x)
    (hf : ∀ a, left a <:+ text → Reads text left' (f a)) : Reads text left' (x >>= f) where
  leaves b h := by
    obtain ⟨a, ha, hb⟩ := bind_eq_ok.mp h
    exact (hf a (hx.leaves a ha)).leaves b hb
  fails := failsOnly_bind.mpr ⟨hx.fails, fun a ha => (hf a (hx.leaves a ha)).fails⟩

theorem ite {c : Prop} [Decidable c] {x y : Except Fault α} (hx : Reads text left x)
    (hy : Reads text left y) : Reads text left (if c then x else y) := by
  split
  · exact hx
  · exact hy

end Reads

/-! ### What stands between brackets -/

section

variable {text : List Char} {g : Grammar}

/-- What is behind a character of an end of a text is an end, too. -/
theorem suffix_behind {c : Char} {ahead : List Char} (h : c :: ahead <:+ text) : ahead <:+ text :=
  (List.suffix_cons c ahead).trans h

theorem suffix_skipSpaces {ahead : List Char} (h : ahead <:+ text) :
    (skipSpaces ahead).1 <:+ text :=
  (List.dropWhile_suffix _).trans h

theorem reads_allow {query : Query} {ahead : List Char} (h : ahead <:+ text) :
    Reads text (fun _ => ahead) (allow g query ahead) := by
  unfold allow
  split
  · exact .fault h rfl
  · exact .ok h

theorem reads_quotedTail {quote : Char} {start ahead : List Char} {length : Nat}
    (hs : start <:+ text) (h : ahead <:+ text) :
    Reads text (fun r => r.2.1) (quotedTail quote start ahead length) := by
  fun_induction quotedTail quote start ahead length with
  -- a text that does not end is a fault where it began, which is an end of the path as well
  | case1 => exact .fault hs rfl
  | case2 => exact .ok (suffix_behind h)
  | case3 => exact .fault hs rfl
  | case4 length d ahead hq ih =>
    exact (ih (suffix_behind (suffix_behind h))).bind fun _ left => .ok left
  | case5 c ahead length hq hb ih => exact (ih (suffix_behind h)).bind fun _ left => .ok left

theorem reads_quotedMember {ahead : List Char} (h : ahead <:+ text) :
    Reads text Subtype.val (quotedMember ahead) := by
  unfold quotedMember
  split
  · exact .fault h rfl
  · split
    · refine (reads_quotedTail h (suffix_behind h)).bind ?_
      rintro ⟨length, rest⟩ left
      dsimp only
      split
      · exact .fault h rfl
      · exact .ok left
    · exact .fault h rfl

theorem reads_quotedMembers {ahead : List Char} (h : ahead <:+ text) :
    Reads text Subtype.val (quotedMembers g ahead) := by
  rw [quotedMembers]
  refine (reads_quotedMember h).bind fun member left => ?_
  have spaced : (Rest.trans member (skipSpaces member.1)).1 <:+ text := suffix_skipSpaces left
  -- from here on it counts where the reader stands, not how it got there
  generalize Rest.trans member (skipSpaces member.1) = behind at spaced ⊢
  obtain ⟨_ | ⟨c, more⟩, shorter⟩ := behind
  · exact .ok spaced
  · by_cases comma : c = ','
    · simp only [if_pos comma]
      refine (reads_allow spaced).bind fun _ _ => ?_
      have shorter : (skipSpaces more).1.length < ahead.length := by
        have := (skipSpaces more).2
        simp only [List.length_cons] at shorter
        omega
      exact (reads_quotedMembers (suffix_skipSpaces (suffix_behind spaced))).bind
        fun _ left => .ok left
    · simp only [if_neg comma]
      exact .ok spaced
termination_by ahead.length

theorem suffix_digits {ahead : List Char} (h : ahead <:+ text) : (digits ahead).2.1 <:+ text :=
  (List.dropWhile_suffix _).trans h

theorem reads_integer {ahead : List Char} (h : ahead <:+ text) :
    Reads text (fun r => r.2.1) (integer ahead) := by
  unfold integer
  split
  · exact .ok h
  · next c more =>
    split
    · have left := suffix_digits (suffix_behind h)
      split
      · next he =>
        rw [he] at left
        exact .fault left rfl
      · next he =>
        rw [he] at left
        exact .ok left
    · have left := suffix_digits h
      split
      · next he =>
        rw [he] at left
        exact .ok left
      · next he =>
        rw [he] at left
        exact .ok left

theorem suffix_colon {ahead : List Char} {colon : Tail ahead} (h : ahead <:+ text)
    (hc : colon? ahead = some colon) : colon.1 <:+ text := by
  unfold colon? at hc
  split at hc
  · cases hc
  · split at hc
    · cases hc
      exact suffix_behind h
    · cases hc

theorem reads_sliceTail {ahead : List Char} (h : ahead <:+ text) :
    Reads text Subtype.val (sliceTail ahead) := by
  refine (reads_integer h).bind ?_
  rintro ⟨_, second⟩ left
  dsimp only
  cases hc : colon? second.1 with
  | none => exact .ok left
  | some colon => exact (reads_integer (suffix_colon left hc)).bind fun _ left => .ok left

theorem reads_indexSelector {ahead : List Char} (h : ahead <:+ text) :
    Reads text (fun r => r.2.1) (indexSelector ahead) := by
  refine (reads_integer h).bind ?_
  rintro ⟨first, rest⟩ left
  dsimp only
  cases hc : colon? rest.1 with
  | some colon => exact (reads_sliceTail (suffix_colon left hc)).bind fun _ left => .ok left
  | none =>
    cases first with
    | some negative => exact .ok left
    | none => exact .fault left rfl

theorem reads_indexSelectors {ahead : List Char} (h : ahead <:+ text) :
    Reads text (fun r => r.2.1) (indexSelectors ahead) := by
  rw [indexSelectors]
  refine (reads_indexSelector (suffix_skipSpaces h)).bind ?_
  rintro ⟨kind, selector⟩ left
  have spaced :
      ((skipSpaces ahead).trans (selector.trans (skipSpaces selector.1))).1 <:+ text :=
    suffix_skipSpaces left
  dsimp only
  generalize (skipSpaces ahead).trans (selector.trans (skipSpaces selector.1)) = behind
    at spaced ⊢
  obtain ⟨_ | ⟨c, more⟩, shorter⟩ := behind
  · exact .ok spaced
  · by_cases comma : c = ','
    · simp only [if_pos comma]
      exact (reads_indexSelectors (suffix_behind spaced)).bind fun _ left => .ok left
    · simp only [if_neg comma]
      exact .ok spaced
termination_by ahead.length

theorem reads_allowSelectors {kinds : List IndexKind} {ahead : List Char} (h : ahead <:+ text) :
    Reads text (fun _ => ahead) (allowSelectors g kinds ahead) := by
  -- the three refusals, from the last one back to the first
  have skipped : Reads text (fun _ => ahead) (pure () : Except Fault Unit) := .ok h
  have refused (query : Query) : Reads text (fun _ => ahead) (allow g query ahead) := reads_allow h
  have negative := Reads.ite (c := kinds.contains (.index true)) (refused .negativeIndex) skipped
  have union := Reads.ite (c := 1 < kinds.length)
    ((refused .union).bind fun _ _ => negative) negative
  exact .ite ((refused .slice).bind fun _ _ => union) union

theorem reads_expressionTail {start ahead : List Char} {depth content : Nat}
    (hs : start <:+ text) (h : ahead <:+ text) :
    Reads text Subtype.val (expressionTail start ahead depth content) := by
  fun_induction expressionTail start ahead depth content with
  | case1 => exact .fault hs rfl
  | case2 depth content more ih => exact (ih (suffix_behind h)).bind fun _ left => .ok left
  | case3 => exact .fault hs rfl
  | case4 => exact .ok (suffix_behind h)
  | case5 depth content more _ _ ih => exact (ih (suffix_behind h)).bind fun _ left => .ok left
  | case6 depth content c more _ _ _ ih =>
    refine (reads_quotedTail h (suffix_behind h)).bind ?_
    rintro ⟨_, quoted⟩ left
    exact (ih quoted left).bind fun _ left => .ok left
  | case7 depth content c more _ _ _ ih =>
    exact (ih (suffix_behind h)).bind fun _ left => .ok left

theorem reads_expression {ahead : List Char} (h : ahead <:+ text) :
    Reads text Subtype.val (expression ahead) := by
  unfold expression
  split
  · exact .fault h rfl
  · split
    · exact (reads_expressionTail h (suffix_behind h)).bind fun _ left => .ok left
    · exact .fault h rfl

/-! ### Steps -/

theorem reads_bracketBody {c : Char} {more : List Char} (h : c :: more <:+ text) :
    Reads text Subtype.val (bracketBody g c more) := by
  unfold bracketBody
  dsimp only
  split
  -- names in quotes
  · exact (reads_quotedMembers h).bind fun _ left => .ok left
  split
  -- a wildcard, a filter and a script
  · exact (reads_allow h).bind fun _ _ => .ok (suffix_behind h)
  split
  · refine (reads_allow h).bind fun _ _ => ?_
    exact (reads_expression (suffix_behind h)).bind fun _ left => .ok left
  split
  · exact (reads_allow h).bind fun _ _ => (reads_expression h).bind fun _ left => .ok left
  split
  -- array selectors
  · refine (reads_indexSelectors h).bind ?_
    rintro ⟨kinds, rest⟩ left
    exact (reads_allowSelectors h).bind fun _ _ => .ok left
  · exact .faultAt h rfl

theorem reads_bracketStep {start ahead : List Char} (hs : start <:+ text) (h : ahead <:+ text) :
    Reads text Subtype.val (bracketStep g start ahead) := by
  unfold bracketStep
  have spaced := suffix_skipSpaces h
  generalize skipSpaces ahead = inner at spaced ⊢
  obtain ⟨_ | ⟨c, inner⟩, shorter⟩ := inner
  · exact .fault hs rfl
  · refine (reads_bracketBody spaced).bind fun body left => ?_
    have spaced : (Tail.trans (⟨c :: inner, shorter⟩ : Tail ahead)
        (Tail.trans body (skipSpaces body.1))).1 <:+ text := suffix_skipSpaces left
    generalize Tail.trans (⟨c :: inner, shorter⟩ : Tail ahead)
      (Tail.trans body (skipSpaces body.1)) = behind at spaced ⊢
    obtain ⟨_ | ⟨close, rest⟩, shorter⟩ := behind
    · exact .fault spaced rfl
    · dsimp only
      split
      · exact .ok (suffix_behind spaced)
      · exact .faultAt spaced rfl

theorem reads_dotMember {start ahead : List Char} (hs : start <:+ text) (h : ahead <:+ text) :
    Reads text Subtype.val (dotMember g start ahead) := by
  cases ahead with
  | nil => exact .fault hs rfl
  | cons c more =>
    unfold dotMember
    dsimp only
    split
    · exact (reads_allow h).bind fun _ _ => .ok (suffix_behind h)
    · split
      · exact .ok ((List.dropWhile_suffix _).trans (suffix_behind h))
      · exact .fault hs rfl

theorem reads_descendants {start ahead : List Char} (hs : start <:+ text) (h : ahead <:+ text) :
    Reads text Subtype.val (descendants g start ahead) := by
  unfold descendants
  cases ahead with
  | nil => exact reads_dotMember hs h
  | cons c body =>
    dsimp only
    split
    · exact (reads_bracketStep h (suffix_behind h)).bind fun _ left => .ok left
    · exact reads_dotMember hs h

theorem reads_dotStep {start ahead : List Char} (hs : start <:+ text) (h : ahead <:+ text) :
    Reads text Subtype.val (dotStep g start ahead) := by
  unfold dotStep
  cases ahead with
  | nil => exact reads_dotMember hs h
  | cons c more =>
    dsimp only
    split
    · refine (reads_allow hs).bind fun _ _ => ?_
      exact (reads_descendants hs (suffix_behind h)).bind fun _ left => .ok left
    · exact reads_dotMember hs h

/-- **The steps of a path** are read up to its end. -/
theorem reads_steps {ahead : List Char} (h : ahead <:+ text) :
    Reads text (fun _ => []) (steps g ahead) := by
  unfold steps
  match ahead, h with
  | [], _ => exact .ok List.nil_suffix
  | c :: more, h =>
    dsimp only
    split
    · refine (reads_dotStep h (suffix_behind h)).bind fun rest left => ?_
      have shorter : rest.1.length < more.length := rest.2
      exact reads_steps left
    · split
      · refine (reads_bracketStep h (suffix_behind h)).bind fun rest left => ?_
        have shorter : rest.1.length < more.length := rest.2
        exact reads_steps left
      · exact .faultAt h rfl
termination_by ahead.length
decreasing_by all_goals exact Nat.lt_succ_of_lt shorter

end

theorem reads_scan (g : Grammar) (text : List Char) : Reads text (fun _ => []) (scan g text) := by
  unfold scan
  split
  · exact .fault List.suffix_rfl rfl
  · exact reads_steps (suffix_behind (suffix_behind List.suffix_rfl))
  · exact reads_steps (suffix_behind List.suffix_rfl)
  · exact .fault List.suffix_rfl rfl

/-! ### The offset -/

/-- The length of what stands before an end of a text is a position in the text, at which the end
begins. -/
theorem position_suffix {text : String} {ahead : List Char} (h : ahead <:+ text.toList) :
    let place : String.Pos.Raw := ⟨Text.byteLength text.toList - Text.byteLength ahead⟩
    place.IsValid text ∧ place.get? text = ahead.head? := by
  obtain ⟨before, split⟩ := h
  have whole : text = String.ofList (before ++ ahead) := by rw [split, String.ofList_toList]
  -- the lengths differ by that of the text in front
  have offset : Text.byteLength text.toList - Text.byteLength ahead = String.utf8Len before := by
    rw [← split, Text.byteLength_eq, Text.byteLength_eq, String.utf8Len_append,
      Nat.add_sub_cancel]
  intro place
  constructor
  · refine String.Pos.Raw.isValid_iff_exists_append.mpr
      ⟨String.ofList before, String.ofList ahead, by rw [whole, String.ofList_append], ?_⟩
    rw [String.rawEndPos_ofList, ← offset]
  · rw [whole]
    simp only [place, offset]
    exact String.get?_of_valid before ahead

/-- **The offset of a refusal is a position in the path.** It is not behind the path and stands
between two characters of it, or at an end; and the character that the message quotes as the one
that was met is the one that begins there. -/
theorem check_offset {g : Grammar} {text : String} {refusal : Refusal}
    (h : check g text = .error refusal) :
    refusal.offset ≤ text.utf8ByteSize ∧
      String.Pos.Raw.IsValid text ⟨refusal.offset⟩ ∧
      ∀ c, refusal.reason.Quotes c → String.Pos.Raw.get? text ⟨refusal.offset⟩ = some c := by
  unfold check at h
  split at h
  · cases h
  next fault hf =>
    cases h
    have met : fault.MetIn text.toList := (reads_scan g text.toList).fails fault hf
    obtain ⟨valid, begins⟩ := position_suffix met.suffix
    refine ⟨valid.le_rawEndPos, valid, fun c quoted => ?_⟩
    exact begins.trans (met.head c (Reason.met?_of_quotes quoted))

/-- The bracket is not closed where a character of two bytes stands, behind a name that holds
another one. -/
theorem check_offset_bracket :
    let text := "$['é' ä]"
    let refusal : Refusal := ⟨.bracketExpected (some 'ä'), 7⟩
    check .path text = .error refusal ∧ refusal.reason.Quotes 'ä' ∧
      refusal.offset ≤ text.utf8ByteSize ∧ String.Pos.Raw.IsValid text ⟨refusal.offset⟩ ∧
      String.Pos.Raw.get? text ⟨refusal.offset⟩ = some 'ä' := by
  intro text refusal
  have refused : check .path text = .error refusal := by
    show check .path "$['é' ä]" = .error ⟨.bracketExpected (some 'ä'), 7⟩
    decide +kernel
  have quoted : refusal.reason.Quotes 'ä' := .inr (.inr ⟨']', rfl⟩)
  obtain ⟨within, valid, begins⟩ := check_offset refused
  exact ⟨refused, quoted, within, valid, begins 'ä' quoted⟩

end Path

end Workflow
