/-!
# What is left of a text

A scanner reads characters from the front of a text and gives what is left. That what is left is
no longer than the text, or shorter when something must have been read, is part of the result, so
that scanners can be called on it in turn.

## Main definitions

* `Tail`, `Rest`: what is left when nothing need have been read, and when something was
* `Tail.whole`, `Tail.behind`, `Rest.behind`: nothing is read, or one character
* `Tail.dropWhile`: all leading characters of a kind are read
* `Tail.trans`, `Rest.trans`: what two scanners leave, one behind the other
-/

namespace Workflow.Text

/-- What is left of a text from which nothing need have been read. -/
abbrev Tail (text : List Char) := { rest : List Char // rest.length ≤ text.length }

/-- What is left of a text after something was read from it. -/
abbrev Rest (text : List Char) := { rest : List Char // rest.length < text.length }

/-- Nothing is read. -/
def Tail.whole (text : List Char) : Tail text :=
  ⟨text, Nat.le_refl _⟩

/-- One character is read. -/
def Tail.behind (c : Char) (text : List Char) : Tail (c :: text) :=
  ⟨text, Nat.le_succ _⟩

/-- All leading characters of a kind are read. -/
def Tail.dropWhile (p : Char → Bool) (text : List Char) : Tail text :=
  ⟨text.dropWhile p, (List.dropWhile_suffix p).length_le⟩

/-- So many characters are read. -/
def Tail.drop (count : Nat) (text : List Char) : Tail text :=
  ⟨text.drop count, (List.drop_suffix count text).length_le⟩

/-- One character is read. -/
def Rest.behind (c : Char) (text : List Char) : Rest (c :: text) :=
  ⟨text, Nat.lt_succ_self _⟩

/-- One character is read, and then what leaves a tail. -/
def Tail.after {text : List Char} (c : Char) (tail : Tail text) : Rest (c :: text) :=
  ⟨tail.1, Nat.lt_succ_of_le tail.2⟩

/-- Something was read. -/
def Rest.toTail {text : List Char} (rest : Rest text) : Tail text :=
  ⟨rest.1, Nat.le_of_lt rest.2⟩

/-- Something was read from a text and the character in front of it. -/
def Rest.within {c : Char} {text : List Char} (rest : Rest (c :: text)) : Tail text :=
  ⟨rest.1, Nat.le_of_lt_succ rest.2⟩

/-- What is left of what is left. -/
def Tail.trans {text : List Char} (tail : Tail text) (more : Tail tail.1) : Tail text :=
  ⟨more.1, Nat.le_trans more.2 tail.2⟩

/-- What is left of what is left after something was read. -/
def Rest.trans {text : List Char} (rest : Rest text) (more : Tail rest.1) : Rest text :=
  ⟨more.1, Nat.lt_of_le_of_lt more.2 rest.2⟩

end Workflow.Text
