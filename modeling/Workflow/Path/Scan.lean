import Workflow.Path.Grammar
import Workflow.Text.Blank
import Workflow.Text.Rest

/-!
# Checking a path

A path is read from left to right, step by step. Every reader takes the text ahead and gives the
text behind what it has read, or the fault it met; so the place of a fault is the text ahead of
it, and its offset is the length of the path before that text.

## Main definitions

* `memberChar`: the characters of a plain member name
* `dotStep`, `bracketStep`: the two kinds of step
* `steps`: any number of steps
* `Path.check`: whether a text is a path of a grammar
-/

namespace Workflow.Path

open Text (Rest Tail)

/-- What a reader gives: the text behind what it has read. -/
abbrev Read (ahead : List Char) := Except Fault (Rest ahead)

/-- Refuses a query in a reference path. -/
def allow (g : Grammar) (query : Query) (ahead : List Char) : Except Fault Unit :=
  if g = .reference then .error ⟨.refused query, ahead⟩ else .ok ()

/-- The characters that end a plain member name. -/
def reserved : List Char :=
  ['.', '[', ']', '(', ')', '\x27', '\x22', '*', ',', '?', '@', '$']

/-- Whether a character may stand in a plain member name. -/
def memberChar (c : Char) : Bool :=
  !Text.isBlank c && !reserved.contains c

/-- Skips spaces. -/
def skipSpaces (ahead : List Char) : Tail ahead :=
  Tail.dropWhile (· = ' ') ahead

/-- Whether a character opens and closes a quoted text. -/
def isQuote (c : Char) : Bool :=
  c == '\x27' || c == '\x22'

/-- Reads the rest of a quoted text, in which a backslash takes the next character with it. Gives
the number of characters as well, an escape being one of them. A quoted text that does not end is
a fault at `start`. -/
def quotedTail (quote : Char) (start : List Char) :
    (ahead : List Char) → (length : Nat) → Except Fault (Nat × Tail ahead)
  | [], _ => .error ⟨.unterminatedString, start⟩
  | c :: ahead, length =>
    if c = quote then .ok (length, Tail.behind c ahead)
    else if c = '\\' then
      match ahead with
      | [] => .error ⟨.unterminatedString, start⟩
      | d :: ahead => do
        let (length, rest) ← quotedTail quote start ahead (length + 1)
        .ok (length, (Tail.after c (Tail.after d rest).toTail).toTail)
    else do
      let (length, rest) ← quotedTail quote start ahead (length + 1)
      .ok (length, (Tail.after c rest).toTail)

/-- Reads a quoted member name, which is not empty. -/
def quotedMember : (ahead : List Char) → Read ahead
  | [] => .error ⟨.quoteExpected, []⟩
  | c :: ahead =>
    if isQuote c then do
      let (length, rest) ← quotedTail c (c :: ahead) ahead 0
      if length = 0 then .error ⟨.memberEmpty, c :: ahead⟩
      else .ok (Tail.after c rest)
    else .error ⟨.quoteExpected, c :: ahead⟩

/-- Reads quoted member names with commas between them. -/
def quotedMembers (g : Grammar) (ahead : List Char) : Read ahead := do
  let member ← quotedMember ahead
  match member.trans (skipSpaces member.1) with
  | ⟨[], h⟩ => .ok ⟨[], h⟩
  | ⟨c :: text, h⟩ =>
    if c = ',' then
      allow g .union (c :: text)
      let next := skipSpaces text
      let rest ← quotedMembers g next.1
      .ok (Rest.trans ⟨c :: text, h⟩ (Tail.after c (next.trans rest.toTail)).toTail)
    else .ok ⟨c :: text, h⟩
termination_by ahead.length
decreasing_by
  have := (skipSpaces text).2
  simp only [List.length_cons] at h
  omega

/-- Reads digits, any number of them. -/
def digits (ahead : List Char) : List Char × Tail ahead :=
  (ahead.takeWhile Char.isDigit, Tail.dropWhile Char.isDigit ahead)

/-- Reads an integer, if one is there, and tells whether it is negative. -/
def integer : (ahead : List Char) → Except Fault (Option Bool × Tail ahead)
  | [] => .ok (none, Tail.whole [])
  | c :: text =>
    if c = '-' then
      match digits text with
      | ([], ⟨rest, _⟩) => .error ⟨.digitsExpected, rest⟩
      | (_, rest) => .ok (some true, (Tail.after c rest).toTail)
    else
      match digits (c :: text) with
      | ([], rest) => .ok (none, rest)
      | (_, rest) => .ok (some false, rest)

/-- Reads a colon, if one is there. -/
def colon? : (ahead : List Char) → Option (Tail ahead)
  | [] => none
  | c :: text => if c = ':' then some (Tail.behind c text) else none

/-- What an array selector is. -/
inductive IndexKind where
  | index (negative : Bool)
  | slice
  deriving DecidableEq

/-- Reads the part of a slice behind its first colon. -/
def sliceTail (ahead : List Char) : Except Fault (Tail ahead) := do
  let (_, second) ← integer ahead
  match colon? second.1 with
  | none => .ok second
  | some colon =>
    let (_, third) ← integer colon.1
    .ok (second.trans (colon.trans third))

/-- Reads an index, or a slice of at most three integers with colons between them. -/
def indexSelector (ahead : List Char) : Except Fault (IndexKind × Tail ahead) := do
  let (first, rest) ← integer ahead
  match colon? rest.1, first with
  | some colon, _ =>
    let slice ← sliceTail colon.1
    .ok (.slice, rest.trans (colon.trans slice))
  | none, some negative => .ok (.index negative, rest)
  | none, none => .error ⟨.indexExpected, rest.1⟩

/-- Reads array selectors with commas between them. -/
def indexSelectors (ahead : List Char) : Except Fault (List IndexKind × Tail ahead) := do
  let start := skipSpaces ahead
  let (kind, selector) ← indexSelector start.1
  match start.trans (selector.trans (skipSpaces selector.1)) with
  | ⟨[], h⟩ => .ok ([kind], ⟨[], h⟩)
  | ⟨c :: text, h⟩ =>
    if c = ',' then
      let (kinds, rest) ← indexSelectors text
      .ok (kind :: kinds, Tail.trans ⟨c :: text, h⟩ (Tail.after c rest).toTail)
    else .ok ([kind], ⟨c :: text, h⟩)
termination_by ahead.length
decreasing_by exact h

/-- Refuses, in a reference path, all array selectors but a single index that is not negative.
Slices are refused before unions, and unions before negative indexes. -/
def allowSelectors (g : Grammar) (kinds : List IndexKind) (ahead : List Char) :
    Except Fault Unit := do
  if kinds.contains .slice then allow g .slice ahead
  if 1 < kinds.length then allow g .union ahead
  if kinds.contains (.index true) then allow g .negativeIndex ahead

/-- Reads the rest of a parenthesised expression at nesting `depth`, of which `content` characters
were read. Quoted texts in it count as one character. -/
def expressionTail (start ahead : List Char) (depth content : Nat) : Except Fault (Tail ahead) :=
  match ahead with
  | [] => .error ⟨.unbalanced, start⟩
  | c :: text =>
    if c = '(' then do
      let rest ← expressionTail start text (depth + 1) (content + 1)
      .ok (Tail.after c rest).toTail
    else if c = ')' then
      if depth = 0 then
        if content = 0 then .error ⟨.expressionEmpty, start⟩
        else .ok (Tail.behind c text)
      else do
        let rest ← expressionTail start text (depth - 1) (content + 1)
        .ok (Tail.after c rest).toTail
    else if isQuote c then do
      let (_, quoted) ← quotedTail c (c :: text) text 0
      let rest ← expressionTail start quoted.1 depth (content + 1)
      .ok (Tail.after c (quoted.trans rest)).toTail
    else do
      let rest ← expressionTail start text depth (content + 1)
      .ok (Tail.after c rest).toTail
termination_by ahead.length
decreasing_by
  all_goals first
    | exact Nat.lt_succ_self _
    | exact Nat.lt_succ_of_le quoted.2

/-- Reads a balanced expression in parentheses, in which something stands. -/
def expression : (ahead : List Char) → Read ahead
  | [] => .error ⟨.expressionExpected, []⟩
  | c :: text =>
    if c = '(' then do
      let rest ← expressionTail (c :: text) text 0 0
      .ok (Tail.after c rest)
    else .error ⟨.expressionExpected, c :: text⟩

/-- Reads what stands between brackets, from its first character on. -/
def bracketBody (g : Grammar) (c : Char) (text : List Char) :
    Except Fault (Tail (c :: text)) := do
  let ahead := c :: text
  if isQuote c then
    let rest ← quotedMembers g ahead
    .ok rest.toTail
  else if c = '*' then
    allow g .wildcard ahead
    .ok (Tail.behind c text)
  else if c = '?' then
    allow g .filter ahead
    let rest ← expression text
    .ok (Tail.after c rest.toTail).toTail
  else if c = '(' then
    allow g .script ahead
    let rest ← expression ahead
    .ok rest.toTail
  else if c.isDigit || c == '-' || c == ':' then
    let (kinds, rest) ← indexSelectors ahead
    allowSelectors g kinds ahead
    .ok rest
  else .error ⟨.unexpectedInBrackets c, ahead⟩

/-- Reads a bracket step behind its opening bracket, which stands at `start`. -/
def bracketStep (g : Grammar) (start text : List Char) : Read text :=
  match skipSpaces text with
  | ⟨[], _⟩ => .error ⟨.unterminatedBracket, start⟩
  | ⟨c :: inner, h⟩ => do
    let body ← bracketBody g c inner
    match Tail.trans ⟨c :: inner, h⟩ (body.trans (skipSpaces body.1)) with
    | ⟨[], _⟩ => .error ⟨.bracketExpected none, []⟩
    | ⟨close :: rest, h⟩ =>
      if close = ']' then .ok ⟨rest, h⟩
      else .error ⟨.bracketExpected (some close), close :: rest⟩

/-- Reads a plain member name or a wildcard behind a dot, which stands at `start`. -/
def dotMember (g : Grammar) (start : List Char) : (text : List Char) → Read text
  | [] => .error ⟨.memberExpected, start⟩
  | c :: text =>
    if c = '*' then do
      allow g .wildcard (c :: text)
      .ok (Rest.behind c text)
    else if memberChar c then
      .ok (Tail.after c (Tail.dropWhile memberChar text))
    else .error ⟨.memberExpected, start⟩

/-- Reads what a second dot asks of all descendants: a bracket, or a member or wildcard. -/
def descendants (g : Grammar) (start : List Char) : (text : List Char) → Read text
  | [] => dotMember g start []
  | c :: body =>
    if c = '[' then do
      let rest ← bracketStep g (c :: body) body
      .ok (Tail.after c rest.toTail)
    else dotMember g start (c :: body)

/-- Reads a dot step behind its dot, which stands at `start`. -/
def dotStep (g : Grammar) (start : List Char) : (text : List Char) → Read text
  | [] => dotMember g start []
  | c :: text =>
    if c = '.' then do
      allow g .recursiveDescent start
      let rest ← descendants g start text
      .ok (Tail.after c rest.toTail)
    else dotMember g start (c :: text)

/-- Reads steps to the end of the path. -/
def steps (g : Grammar) (ahead : List Char) : Except Fault Unit :=
  match ahead with
  | [] => .ok ()
  | c :: text => do
    if c = '.' then
      let rest ← dotStep g (c :: text) text
      steps g rest.1
    else if c = '[' then
      let rest ← bracketStep g (c :: text) text
      steps g rest.1
    else .error ⟨.unexpected c, c :: text⟩
termination_by ahead.length
decreasing_by all_goals exact Nat.lt_succ_of_lt rest.2

/-- Reads a whole path: `$` for the input of a state or `$$` for its context, and steps. -/
def scan (g : Grammar) : List Char → Except Fault Unit
  | [] => .error ⟨.empty, []⟩
  | '$' :: '$' :: text => steps g text
  | '$' :: text => steps g text
  | text => .error ⟨.noRoot, text⟩

/-- Checks a text against a grammar. -/
def check (g : Grammar) (text : String) : Except Refusal Unit :=
  match scan g text.toList with
  | .ok () => .ok ()
  | .error fault =>
    .error ⟨fault.reason, Text.byteLength text.toList - Text.byteLength fault.ahead⟩

/-- Whether a text is a path of a grammar. -/
def isValid (g : Grammar) (text : String) : Bool :=
  match check g text with
  | .ok () => true
  | .error _ => false

end Workflow.Path
