import Workflow.Double.Basic
import Workflow.Path.Grammar

/-!
# Transitions and policies

Where control goes when a state completes, and what is done about its errors: a retrier lets it
try again, a catcher sends control elsewhere. Policies are chosen by the name of the error; the
first one that covers it applies.

## Main definitions

* `Transition`: where control goes
* `Retrier`, `Catcher`: the two policies
* `covers`: whether error names include an error
* `Retrier.find?`, `Catcher.find?`: the policy that applies to an error
-/

namespace Workflow

/-- Where control goes: to a state, or out of the machine or branch. -/
inductive Transition where
  | next (name : String)
  | finish
  deriving DecidableEq

instance : Alike Transition := .ofEq Transition

namespace Transition

/-- Whether control leaves the machine or branch. -/
def isFinish : Transition → Bool
  | next _ => false
  | finish => true

/-- The state control goes to. -/
def next? : Transition → Option String
  | next name => some name
  | finish => none

end Transition

/-- The error name that covers every error. -/
def everyError : String := "States.ALL"

/-- Whether error names cover every error. -/
def coversAll (names : List String) : Bool :=
  names.contains everyError

/-- Whether error names cover an error. -/
def covers (names : List String) (error : String) : Bool :=
  names.any fun name => name == everyError || name == error

/-- A policy that lets a state try again. -/
structure Retrier where
  errors : List String
  intervalSeconds : Option UInt32
  maxAttempts : Option UInt32
  backoffRate : Option Double
  deriving DecidableEq

namespace Retrier

instance : Alike Retrier :=
  ⟨fun a b => alike a.errors b.errors && alike a.intervalSeconds b.intervalSeconds &&
    alike a.maxAttempts b.maxAttempts && alike a.backoffRate b.backoffRate⟩

/-- The seconds before the first new attempt, when they are not given. -/
def defaultInterval : UInt32 := 1

/-- The number of attempts, when it is not given. -/
def defaultAttempts : UInt32 := 3

/-- The factor by which the wait grows, when it is not given. -/
def defaultBackoff : Double := .two

/-- The seconds before the first new attempt. -/
def interval (r : Retrier) : UInt32 := r.intervalSeconds.getD defaultInterval

/-- The number of attempts. -/
def attempts (r : Retrier) : UInt32 := r.maxAttempts.getD defaultAttempts

/-- The factor by which the wait grows. -/
def backoff (r : Retrier) : Double := r.backoffRate.getD defaultBackoff

/-- The first retrier that covers an error. -/
def find? (retriers : List Retrier) (error : String) : Option Retrier :=
  retriers.find? fun r => covers r.errors error

end Retrier

/-- A policy that sends control elsewhere. -/
structure Catcher where
  errors : List String
  resultPath : Option Selector
  transition : Transition
  deriving DecidableEq

namespace Catcher

instance : Alike Catcher :=
  ⟨fun a b => alike a.errors b.errors && alike a.resultPath b.resultPath &&
    alike a.transition b.transition⟩

/-- The first catcher that covers an error. -/
def find? (catchers : List Catcher) (error : String) : Option Catcher :=
  catchers.find? fun c => covers c.errors error

end Catcher

end Workflow
