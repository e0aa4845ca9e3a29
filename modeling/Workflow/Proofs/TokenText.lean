import Workflow.Proofs.NumberText
import Workflow.Proofs.StringText

/-!
# The tokens of a written value

Both layouts of a value are cut into the same tokens, because they differ in spaces only.

## Main definitions

* `valueTokens`, `itemsTokens`, `membersTokens`: the tokens of a value and of its parts
* `Spaces`: a text that only separates tokens
* `Layout.Spaced`: a layout that sets parts off by nothing but spaces

## Main results

* `tokens_stringText`, `tokens_numberText`: the tokens of a string and of a number
* `tokens_text`: the tokens of a value in a layout
* `tokens_layout`: the tokens of the text of a value
-/

namespace Workflow.Json

open Text (Rest Tail LeavesWith Stops)

/-! ### One token -/

theorem tokens_cons {c : Char} {text rest : List Char} {token : Token} (hs : isSpace c = false)
    (h : LeavesWith (scan c text) token rest) : tokens (c :: text) = token :: tokens rest := by
  obtain ⟨left, h, rfl⟩ := h
  rw [tokens, if_neg (by simp [hs]), h]

/-- A token of one character. -/
theorem tokens_mark {c : Char} {token : Token} (hs : isSpace c = false)
    (h : ∀ text, scan c text = .ok (token, Tail.whole text)) (text : List Char) :
    tokens (c :: text) = token :: tokens text :=
  tokens_cons hs ⟨Tail.whole text, h text, rfl⟩

theorem tokens_null (rest : List Char) :
    tokens (['n', 'u', 'l', 'l'] ++ rest) = .null :: tokens rest :=
  tokens_cons rfl ⟨_, rfl, rfl⟩

theorem tokens_bool (value : Bool) (rest : List Char) :
    tokens ((if value then ['t', 'r', 'u', 'e'] else ['f', 'a', 'l', 's', 'e']) ++ rest) =
      .bool value :: tokens rest := by
  cases value
  · exact tokens_cons rfl ⟨_, rfl, rfl⟩
  · exact tokens_cons rfl ⟨_, rfl, rfl⟩

theorem tokens_stringText (s : String) (rest : List Char) :
    tokens (stringText s ++ rest) = .string s :: tokens rest := by
  obtain ⟨left, hr, hl⟩ := scanString_flatMap s.toList rest
  have quoted : stringText s ++ rest =
      '\x22' :: (s.toList.flatMap escapeChar ++ '\x22' :: rest) := by
    simp [stringText]
  rw [quoted]
  refine tokens_cons rfl ⟨Rest.toTail left, ?_, hl⟩
  simp [scan, hr]

/-! ### Numbers -/

/-- A number begins with a digit. -/
theorem exists_digit_of_scanMagnitude {negative : Bool} {text rest : List Char} {value : Number}
    (h : LeavesWith (scanMagnitude negative text) value rest) :
    ∃ c more, text = c :: more ∧ c.isDigit = true := by
  cases text with
  | nil => simp [scanMagnitude, scanWholePart, scanDigits] at h
  | cons c more =>
    refine ⟨c, more, rfl, ?_⟩
    by_contra hc
    simp [scanMagnitude, scanWholePart, scanDigits, hc] at h

theorem scan_digit {c : Char} {text rest : List Char} {value : Number} (hc : c.isDigit = true)
    (h : LeavesWith (scanMagnitude false (c :: text)) value rest) :
    LeavesWith (scan c text) (.number value) rest := by
  obtain ⟨left, h, hl⟩ := h
  refine ⟨Rest.within left, ?_, hl⟩
  have other (d : Char) (hd : d.isDigit = false) : c ≠ d := by
    rintro rfl
    simp [hc] at hd
  simp only [scan, if_neg (other '[' rfl), if_neg (other ']' rfl), if_neg (other '\x7b' rfl),
    if_neg (other '\x7d' rfl), if_neg (other ',' rfl), if_neg (other ':' rfl),
    if_neg (other 'n' rfl), if_neg (other 't' rfl), if_neg (other 'f' rfl),
    if_neg (other '\x22' rfl), if_neg (other '-' rfl), if_pos hc, h]

theorem scan_minus {text rest : List Char} {value : Number}
    (h : LeavesWith (scanMagnitude true text) value rest) :
    LeavesWith (scan '-' text) (.number value) rest := by
  obtain ⟨left, h, hl⟩ := h
  refine ⟨Rest.toTail left, ?_, hl⟩
  simp [scan, h]

/-- A number is its sign and its magnitude. -/
theorem tokens_signed {negative : Bool} {magnitude rest : List Char} {value : Number}
    (h : LeavesWith (scanMagnitude negative (magnitude ++ rest)) value rest) :
    tokens ((if negative then '-' :: magnitude else magnitude) ++ rest) =
      .number value :: tokens rest := by
  cases negative with
  | true => exact tokens_cons rfl (scan_minus h)
  | false =>
    obtain ⟨c, more, hm, hc⟩ := exists_digit_of_scanMagnitude h
    have no_space : isSpace c = false := by
      have other (d : Char) (hd : d.isDigit = false) : c ≠ d := by
        rintro rfl
        simp [hc] at hd
      simp [isSpace, other ' ' rfl, other '\t' rfl, other '\n' rfl, other '\r' rfl]
    rw [if_neg Bool.false_ne_true]
    rw [hm] at h ⊢
    exact tokens_cons no_space (scan_digit hc h)

theorem toList_toString (n : ℤ) : (toString n).toList =
    if n < 0 then '-' :: Nat.toDigits 10 n.natAbs else Nat.toDigits 10 n.natAbs := by
  cases n with
  | ofNat n => simp [toString, Int.repr, Nat.repr]
  | negSucc n => simp [toString, Int.repr, Nat.repr]

theorem tokens_numberText (n : Number) {rest : List Char} (hs : Stops numberChar rest) :
    tokens (n.text ++ rest) = .number n :: tokens rest := by
  cases n with
  | whole n =>
    have signed := tokens_signed (scanMagnitude_toDigits n hs)
    rw [Number.text, toList_toString]
    simpa using signed
  | real x => exact tokens_signed (scanMagnitude_magnitudeText x hs)

/-! ### Spaces -/

/-- A text that only separates tokens. -/
def Spaces (text : List Char) : Prop := ∀ c ∈ text, isSpace c = true

theorem tokens_spaces {spaces : List Char} (h : Spaces spaces) (rest : List Char) :
    tokens (spaces ++ rest) = tokens rest := by
  induction spaces with
  | nil => rfl
  | cons c spaces ih =>
    obtain ⟨hc, hs⟩ := List.forall_mem_cons.mp h
    rw [List.cons_append, tokens, if_pos hc, ih hs]

theorem Stops.spaces_append {spaces rest : List Char} (h : Spaces spaces)
    (hs : Stops numberChar rest) : Stops numberChar (spaces ++ rest) := by
  cases spaces with
  | nil => exact hs
  | cons c spaces =>
    refine .cons ?_ _
    have hc : isSpace c = true := h c (List.mem_cons_self ..)
    simp only [isSpace, Bool.or_eq_true, beq_iff_eq] at hc
    rcases hc with ((rfl | rfl) | rfl) | rfl <;> rfl

/-- A layout sets parts off by nothing but spaces. -/
structure Layout.Spaced (layout : Layout) : Prop where
  partBreak : ∀ depth, Spaces (layout.partBreak depth)
  closeBreak : ∀ depth, Spaces (layout.closeBreak depth)
  afterColon : Spaces layout.afterColon

theorem Layout.spaced_compact : Layout.compact.Spaced := by
  constructor <;> simp [Layout.compact, Spaces]

theorem Layout.spaced_pretty : Layout.pretty.Spaced := by
  constructor <;> simp [Layout.pretty, Spaces, isSpace]

/-! ### Values -/

mutual

/-- The tokens of a value. -/
def valueTokens : Json → List Token
  | null => [.null]
  | bool value => [.bool value]
  | number value => [.number value]
  | string value => [.string value]
  | array [] => [.openArray, .closeArray]
  | array (item :: items) =>
    .openArray :: (valueTokens item ++ (itemsTokens items ++ [.closeArray]))
  | object [] => [.openObject, .closeObject]
  | object ((key, value) :: members) =>
    .openObject :: .string key :: .colon ::
      (valueTokens value ++ (membersTokens members ++ [.closeObject]))

/-- The tokens of the items behind the first one. -/
def itemsTokens : List Json → List Token
  | [] => []
  | item :: items => .comma :: (valueTokens item ++ itemsTokens items)

/-- The tokens of the members behind the first one. -/
def membersTokens : List (String × Json) → List Token
  | [] => []
  | (key, value) :: members =>
    .comma :: .string key :: .colon :: (valueTokens value ++ membersTokens members)

end

variable {layout : Layout}

/-- What stands behind a part of an array does not go on with a number. -/
theorem Stops.itemsText (depth : ℕ) (items : List Json) {rest : List Char}
    (hs : Stops numberChar rest) : Stops numberChar (itemsText layout depth items ++ rest) := by
  cases items with
  | nil => exact hs
  | cons item items => exact .cons rfl _

/-- What stands behind a part of an object does not go on with a number. -/
theorem Stops.membersText (depth : ℕ) (members : List (String × Json)) {rest : List Char}
    (hs : Stops numberChar rest) :
    Stops numberChar (membersText layout depth members ++ rest) := by
  cases members with
  | nil => exact hs
  | cons member members => exact .cons rfl _

mutual

/-- **Every layout of a value is cut into the tokens of the value.** -/
theorem tokens_text (h : layout.Spaced) (depth : ℕ) (value : Json) {rest : List Char}
    (hs : Stops numberChar rest) :
    tokens (text layout depth value ++ rest) = valueTokens value ++ tokens rest := by
  cases value with
  | null => exact tokens_null rest
  | bool value => exact tokens_bool value rest
  | number value => exact tokens_numberText value hs
  | string value => exact tokens_stringText value rest
  | array items =>
    cases items with
    | nil =>
      have close := tokens_mark (c := ']') rfl (fun _ => rfl) rest
      simp only [text, valueTokens, List.cons_append, List.nil_append]
      rw [tokens_mark rfl (fun _ => rfl), close]
    | cons item items =>
      -- the last item may be a number, which ends at what stands behind it
      have behind : Stops numberChar (layout.closeBreak depth ++ ']' :: rest) :=
        Stops.spaces_append (h.closeBreak depth) (.cons rfl _)
      simp only [text, valueTokens, List.cons_append, List.append_assoc, List.nil_append]
      rw [tokens_mark rfl (fun _ => rfl), tokens_spaces (h.partBreak depth),
        tokens_text h (depth + 1) item (Stops.itemsText depth items behind),
        tokens_itemsText h depth items behind, tokens_spaces (h.closeBreak depth),
        tokens_mark rfl (fun _ => rfl)]
  | object members =>
    cases members with
    | nil =>
      have close := tokens_mark (c := '\x7d') rfl (fun _ => rfl) rest
      simp only [text, valueTokens, List.cons_append, List.nil_append]
      rw [tokens_mark rfl (fun _ => rfl), close]
    | cons member members =>
      obtain ⟨key, value⟩ := member
      have behind : Stops numberChar (layout.closeBreak depth ++ '\x7d' :: rest) :=
        Stops.spaces_append (h.closeBreak depth) (.cons rfl _)
      simp only [text, valueTokens, List.cons_append, List.append_assoc, List.nil_append]
      rw [tokens_mark rfl (fun _ => rfl), tokens_spaces (h.partBreak depth), tokens_stringText,
        tokens_mark rfl (fun _ => rfl), tokens_spaces h.afterColon,
        tokens_text h (depth + 1) value (Stops.membersText depth members behind),
        tokens_membersText h depth members behind, tokens_spaces (h.closeBreak depth),
        tokens_mark rfl (fun _ => rfl)]

theorem tokens_itemsText (h : layout.Spaced) (depth : ℕ) (items : List Json) {rest : List Char}
    (hs : Stops numberChar rest) :
    tokens (itemsText layout depth items ++ rest) = itemsTokens items ++ tokens rest := by
  cases items with
  | nil => rfl
  | cons item items =>
    simp only [itemsText, itemsTokens, List.cons_append, List.append_assoc]
    rw [tokens_mark rfl (fun _ => rfl), tokens_spaces (h.partBreak depth),
      tokens_text h (depth + 1) item (Stops.itemsText depth items hs),
      tokens_itemsText h depth items hs]

theorem tokens_membersText (h : layout.Spaced) (depth : ℕ) (members : List (String × Json))
    {rest : List Char} (hs : Stops numberChar rest) :
    tokens (membersText layout depth members ++ rest) = membersTokens members ++ tokens rest := by
  cases members with
  | nil => rfl
  | cons member members =>
    obtain ⟨key, value⟩ := member
    simp only [membersText, membersTokens, List.cons_append, List.append_assoc]
    rw [tokens_mark rfl (fun _ => rfl), tokens_spaces (h.partBreak depth), tokens_stringText,
      tokens_mark rfl (fun _ => rfl), tokens_spaces h.afterColon,
      tokens_text h (depth + 1) value (Stops.membersText depth members hs),
      tokens_membersText h depth members hs]

end

/-- The tokens of the text of a value. -/
theorem tokens_layout (h : layout.Spaced) (value : Json) :
    tokens (String.ofList (value.text layout 0)).toList = valueTokens value := by
  have whole := @tokens_text layout h 0 value [] (by simp [Stops])
  rw [String.toList_ofList]
  simpa [tokens] using whole

end Workflow.Json
