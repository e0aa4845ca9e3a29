import Workflow.Alike
import Workflow.Text.Digits

/-!
# Paths and what can be wrong with them

A path selects parts of a JSON document. The full grammar has queries that select any number of
nodes; the reference grammar is the part of it whose paths always select one node.

## Main definitions

* `Grammar`: the two grammars
* `Query`: the parts of the full grammar that a reference path does without
* `Reason`, `Reason.message`: what is wrong with a path
* `Path.Fault`: a reason and the text it was met at
* `Selector`: the value of an optional path field
-/

namespace Workflow

namespace Path

/-- The grammars a path can be checked against. -/
inductive Grammar where
  | path
  | reference
  deriving DecidableEq

/-- The name of a grammar. -/
def Grammar.name : Grammar → String
  | path => "path"
  | reference => "reference path"

/-- The parts of a path that may select any number of nodes. -/
inductive Query where
  | recursiveDescent
  | wildcard
  | filter
  | script
  | union
  | slice
  | negativeIndex
  deriving DecidableEq

/-- How a message refers to a query. -/
def Query.subject : Query → String
  | recursiveDescent => "recursive descent is"
  | wildcard => "wildcards are"
  | filter => "filter expressions are"
  | script => "script expressions are"
  | union => "unions are"
  | slice => "slices are"
  | negativeIndex => "negative indexes are"

/-- What is wrong with a path. -/
inductive Reason where
  | empty
  | noRoot
  | unexpected (c : Char)
  | unexpectedInBrackets (c : Char)
  | refused (query : Query)
  | memberExpected
  | unterminatedBracket
  | expressionExpected
  | quoteExpected
  | memberEmpty
  | unterminatedString
  | indexExpected
  | digitsExpected
  | expressionEmpty
  | unbalanced
  | bracketExpected (found : Option Char)
  deriving DecidableEq

/-- The message of a reason. -/
def Reason.message : Reason → String
  | empty => "path is empty"
  | noRoot => "path must start with '$'"
  | unexpected c => "unexpected character '" ++ c.toString ++ "'"
  | unexpectedInBrackets c => "unexpected character '" ++ c.toString ++ "' in brackets"
  | refused query => query.subject ++ " not allowed in a reference path"
  | memberExpected => "expected a member name after '.'"
  | unterminatedBracket => "unterminated '['"
  | expressionExpected => "expected '(' after '?'"
  | quoteExpected => "expected a quoted member name"
  | memberEmpty => "member name is empty"
  | unterminatedString => "unterminated string literal"
  | indexExpected => "expected an array index"
  | digitsExpected => "expected digits after '-'"
  | expressionEmpty => "expression is empty"
  | unbalanced => "unbalanced parentheses"
  | bracketExpected none => "expected ']'"
  | bracketExpected (some c) => "expected ']' but found '" ++ c.toString ++ "'"

/-- What is wrong with a path, and the part of the path that begins where it was met. -/
structure Fault where
  reason : Reason
  ahead : List Char
  deriving DecidableEq

/-- A refused path: the reason, and the offset in bytes at which it was met. -/
structure Refusal where
  reason : Reason
  offset : Nat
  deriving DecidableEq

/-- The message of a refusal. -/
def Refusal.message (r : Refusal) : String :=
  r.reason.message ++ " (at offset " ++ toString r.offset ++ ")"

end Path

/-- The value of a path field that is present: a path, or the request to discard the data. -/
inductive Selector where
  | path (text : String)
  | discard
  deriving DecidableEq

instance : Alike Selector := .ofEq Selector

namespace Selector

/-- The path, if there is one. -/
def path? : Selector → Option String
  | path text => some text
  | discard => none

/-- Whether the data is discarded. -/
def isDiscard : Selector → Bool
  | path _ => false
  | discard => true

/-- The text of a selector. -/
def text : Selector → String
  | path text => text
  | discard => "null"

end Selector

end Workflow
