import Workflow.Path.Scan

/-!
# The languages of paths

What a path is, said without a scanner: a root and steps behind it. The reference grammar has the
same rules with fewer alternatives.

## Main definitions

* `QuoteMark`, `WhiteSpace`, `NameChar`: the classes of characters
* `Enclosed`, `Quoted`, `Balanced`: texts in quotes and expressions
* `QuotedNames`, `ArraySelectors`: what is listed between brackets
* `Step`, `Steps`, `IsPath`: the steps of a path, and paths

## Main results

* `isQuote_iff`, `memberChar_iff`: the scanner goes by these classes
* `Closes.cases_first`: the first thing in a text that closes parentheses opened before it
-/

namespace Workflow.Path

/-! ### Characters -/

/-- The marks in which a text is quoted: an apostrophe, or a quotation mark. -/
def QuoteMark (c : Char) : Prop := c = '\x27' ∨ c = '\x22'

/-- The first and the last code point of every range with the property White_Space, as the Unicode
Character Database lists them. -/
def whiteSpaceRanges : List (Nat × Nat) := [
  (0x9, 0xD), (0x20, 0x20), (0x85, 0x85), (0xA0, 0xA0), (0x1680, 0x1680), (0x2000, 0x200A),
  (0x2028, 0x2029), (0x202F, 0x202F), (0x205F, 0x205F), (0x3000, 0x3000)]

/-- A character is white space. -/
def WhiteSpace (c : Char) : Prop :=
  ∃ range ∈ whiteSpaceRanges, range.1 ≤ c.toNat ∧ c.toNat ≤ range.2

/-- The characters that mean something in a path, and so do not stand in a plain member name. -/
def Mark (c : Char) : Prop :=
  c = '.' ∨ c = '[' ∨ c = ']' ∨ c = '(' ∨ c = ')' ∨ QuoteMark c ∨ c = '*' ∨ c = ',' ∨ c = '?' ∨
    c = '@' ∨ c = '$'

/-- The characters of a plain member name. -/
def NameChar (c : Char) : Prop := ¬WhiteSpace c ∧ ¬Mark c

theorem isQuote_iff {c : Char} : isQuote c = true ↔ QuoteMark c := by
  simp [isQuote, QuoteMark]

theorem isBlank_iff {c : Char} : Text.isBlank c = true ↔ WhiteSpace c := by
  simp only [Text.isBlank, WhiteSpace, whiteSpaceRanges, Bool.or_eq_true, Bool.and_eq_true,
    decide_eq_true_eq, beq_iff_eq, List.mem_cons, List.not_mem_nil, or_false, exists_eq_or_imp,
    exists_eq_left]
  omega

theorem memberChar_iff {c : Char} : memberChar c = true ↔ NameChar c := by
  have marks : reserved.contains c = true ↔ Mark c := by
    simp [reserved, Mark, QuoteMark, or_assoc]
  rw [memberChar, Bool.and_eq_true, Bool.not_eq_true', Bool.not_eq_true', ← Bool.not_eq_true,
    ← Bool.not_eq_true, isBlank_iff, marks, NameChar]

/-! ### Texts in quotes -/

/-- What stands between quotes. A backslash takes the next character with it. -/
inductive Enclosed (quote : Char) : List Char → Prop
  | nil : Enclosed quote []
  | plain {c : Char} {text : List Char} (hq : c ≠ quote) (hb : c ≠ '\\') :
    Enclosed quote text → Enclosed quote (c :: text)
  | escaped {c : Char} {text : List Char} :
    Enclosed quote text → Enclosed quote ('\\' :: c :: text)

/-- A text in quotes. -/
inductive Quoted : List Char → Prop
  | mk {quote : Char} {body : List Char} (hq : QuoteMark quote) (hb : Enclosed quote body) :
    Quoted (quote :: (body ++ [quote]))

/-- A member name in quotes, which is not empty. -/
inductive QuotedName : List Char → Prop
  | mk {quote : Char} {body : List Char} (hq : QuoteMark quote) (hb : Enclosed quote body)
    (hn : body ≠ []) : QuotedName (quote :: (body ++ [quote]))

/-- Any number of spaces. -/
def Spaces (text : List Char) : Prop := ∀ c ∈ text, c = ' '

/-- So many member names in quotes, with commas between them. -/
inductive QuotedNames : Nat → List Char → Prop
  | single {name : List Char} : QuotedName name → QuotedNames 1 name
  | cons {count : Nat} {name before behind names : List Char} :
    QuotedName name → Spaces before → Spaces behind → QuotedNames count names →
      QuotedNames (count + 1) (name ++ (before ++ ',' :: (behind ++ names)))

/-! ### Selectors of arrays -/

/-- Decimal digits, at least one. -/
def Digits (text : List Char) : Prop := text ≠ [] ∧ ∀ c ∈ text, c.isDigit = true

/-- An integer, which may have a minus sign. -/
inductive Integer : Bool → List Char → Prop
  | positive {text : List Char} : Digits text → Integer false text
  | negative {text : List Char} : Digits text → Integer true ('-' :: text)

/-- An integer that may be absent. -/
def OptionalInteger (text : List Char) : Prop := text = [] ∨ ∃ negative, Integer negative text

/-- An index, or a slice of at most three integers. -/
inductive ArraySelector : IndexKind → List Char → Prop
  | index {negative : Bool} {text : List Char} : Integer negative text →
    ArraySelector (.index negative) text
  | slice {first second : List Char} : OptionalInteger first → OptionalInteger second →
    ArraySelector .slice (first ++ ':' :: second)
  | stepped {first second third : List Char} : OptionalInteger first → OptionalInteger second →
    OptionalInteger third → ArraySelector .slice (first ++ ':' :: (second ++ ':' :: third))

/-- Array selectors with commas between them and any number of spaces around each. -/
inductive ArraySelectors : List IndexKind → List Char → Prop
  | single {kind : IndexKind} {before selector behind : List Char} :
    Spaces before → ArraySelector kind selector → Spaces behind →
      ArraySelectors [kind] (before ++ (selector ++ behind))
  | cons {kind : IndexKind} {kinds : List IndexKind} {before selector behind rest : List Char} :
    Spaces before → ArraySelector kind selector → Spaces behind → ArraySelectors kinds rest →
      ArraySelectors (kind :: kinds) (before ++ (selector ++ (behind ++ ',' :: rest)))

/-! ### Expressions -/

/-- A text in which all parentheses are paired, but for those in quotes. -/
inductive Balanced : List Char → Prop
  | nil : Balanced []
  | plain {c : Char} {text : List Char} (ho : c ≠ '(') (hc : c ≠ ')') (hq : ¬QuoteMark c) :
    Balanced text → Balanced (c :: text)
  | quoted {quotation text : List Char} : Quoted quotation → Balanced text →
    Balanced (quotation ++ text)
  | nested {inner text : List Char} : Balanced inner → Balanced text →
    Balanced ('(' :: (inner ++ ')' :: text))

/-- A balanced text in parentheses, which is not empty. -/
inductive Expression : List Char → Prop
  | mk {inner : List Char} : Balanced inner → inner ≠ [] → Expression ('(' :: (inner ++ [')']))

/-! ### Steps -/

/-- What may stand between brackets. In a reference path this is one member name or one index that
is not negative. -/
inductive BracketBody (g : Grammar) : List Char → Prop
  | names {count : Nat} {text : List Char} (hg : g = .reference → count = 1) :
    QuotedNames count text → BracketBody g text
  | wildcard (hg : g = .path) : BracketBody g ['*']
  | filter {text : List Char} (hg : g = .path) : Expression text → BracketBody g ('?' :: text)
  | script {text : List Char} (hg : g = .path) : Expression text → BracketBody g text
  | selectors {kinds : List IndexKind} {text : List Char}
    (hg : g = .reference → kinds = [.index false]) :
    ArraySelectors kinds text → BracketBody g text

/-- A step in brackets. -/
inductive Bracket (g : Grammar) : List Char → Prop
  | mk {before body behind : List Char} : Spaces before → BracketBody g body → Spaces behind →
    Bracket g ('[' :: (before ++ (body ++ (behind ++ [']']))))

/-- A plain member name. -/
def PlainName (text : List Char) : Prop := text ≠ [] ∧ ∀ c ∈ text, NameChar c

/-- A step of a path. -/
inductive Step (g : Grammar) : List Char → Prop
  | name {text : List Char} : PlainName text → Step g ('.' :: text)
  | wildcard (hg : g = .path) : Step g ['.', '*']
  | bracket {text : List Char} : Bracket g text → Step g text
  | deepName {text : List Char} (hg : g = .path) : PlainName text → Step g ('.' :: '.' :: text)
  | deepWildcard (hg : g = .path) : Step g ['.', '.', '*']
  | deepBracket {text : List Char} (hg : g = .path) : Bracket g text → Step g ('.' :: '.' :: text)

/-- Any number of steps. -/
inductive Steps (g : Grammar) : List Char → Prop
  | nil : Steps g []
  | cons {step steps : List Char} : Step g step → Steps g steps → Steps g (step ++ steps)

/-- A path: `$` or `$$`, and steps. -/
inductive IsPath (g : Grammar) : List Char → Prop
  | input {steps : List Char} : Steps g steps → IsPath g ('$' :: steps)
  | context {steps : List Char} : Steps g steps → IsPath g ('$' :: '$' :: steps)

/-! ### Closing parentheses -/

/-- A text that closes all of the parentheses opened before it, one of them and `depth` around
it. -/
inductive Closes : Nat → List Char → Prop
  | last {text : List Char} : Balanced text → Closes 0 (text ++ [')'])
  | one {depth : Nat} {text rest : List Char} : Balanced text → Closes depth rest →
    Closes (depth + 1) (text ++ ')' :: rest)

namespace Closes

variable {depth : Nat} {text : List Char}

/-- A text that closes parentheses does so behind a balanced text. -/
theorem prepend (before : List Char) (hb : ∀ {t}, Balanced t → Balanced (before ++ t))
    (h : Closes depth text) : Closes depth (before ++ text) := by
  cases h with
  | last ht =>
    rw [← List.append_assoc]
    exact .last (hb ht)
  | one ht hr =>
    rw [← List.append_assoc]
    exact .one (hb ht) hr

theorem plain {c : Char} (ho : c ≠ '(') (hc : c ≠ ')') (hq : ¬QuoteMark c)
    (h : Closes depth text) : Closes depth (c :: text) :=
  prepend [c] (.plain ho hc hq) h

theorem quoted {quotation : List Char} (hq : Quoted quotation) (h : Closes depth text) :
    Closes depth (quotation ++ text) :=
  h.prepend _ (.quoted hq)

theorem open_ (h : Closes (depth + 1) text) : Closes depth ('(' :: text) := by
  cases h with
  | @one _ inner rest hi hr =>
    have := hr.prepend ('(' :: (inner ++ [')'])) fun ht => by
      simpa using Balanced.nested hi ht
    simpa using this

/-- The first thing in a text that closes parentheses: the last or another one is closed, or
there is a character, a quotation or an opening parenthesis in front of the rest. -/
theorem cases_first (h : Closes depth text) :
    (depth = 0 ∧ text = [')']) ∨
      (∃ d rest, depth = d + 1 ∧ text = ')' :: rest ∧ Closes d rest) ∨
      (∃ c rest, c ≠ '(' ∧ c ≠ ')' ∧ ¬QuoteMark c ∧ text = c :: rest ∧ Closes depth rest) ∨
      (∃ quotation rest, Quoted quotation ∧ text = quotation ++ rest ∧ Closes depth rest) ∨
      ∃ rest, text = '(' :: rest ∧ Closes (depth + 1) rest := by
  cases h with
  | last ht =>
    cases ht with
    | nil => exact .inl ⟨rfl, rfl⟩
    | plain ho hc hq ht => exact .inr (.inr (.inl ⟨_, _, ho, hc, hq, rfl, .last ht⟩))
    | quoted hq ht =>
      exact .inr (.inr (.inr (.inl ⟨_, _, hq, List.append_assoc _ _ _, .last ht⟩)))
    | nested hi ht =>
      exact .inr (.inr (.inr (.inr ⟨_, by simp, .one hi (.last ht)⟩)))
  | one ht hr =>
    cases ht with
    | nil => exact .inr (.inl ⟨_, _, rfl, rfl, hr⟩)
    | plain ho hc hq ht => exact .inr (.inr (.inl ⟨_, _, ho, hc, hq, rfl, .one ht hr⟩))
    | quoted hq ht =>
      exact .inr (.inr (.inr (.inl ⟨_, _, hq, List.append_assoc _ _ _, .one ht hr⟩)))
    | nested hi ht =>
      exact .inr (.inr (.inr (.inr ⟨_, by simp, .one hi (.one ht hr)⟩)))

end Closes

end Workflow.Path
