import ScopedLisp.Session

/-!
# The journal

What a run notes about itself. A record is written when its level is at least the level that was
asked for.

* `Level`: the levels, their values and their names;
* `Record`: a note, and the line it is written as;
* `Session.records`: the notes on one step of a session.
-/

namespace ScopedLisp

/-- The levels of notes, from the least severe. -/
inductive Level where
  | all
  | debug
  | info
  | warning
  | error
  | critical
deriving DecidableEq, Repr

namespace Level

/-- How severe a level is. -/
def value : Level → Nat
  | all => 0
  | debug => 10
  | info => 20
  | warning => 30
  | error => 40
  | critical => 50

/-- The word for a level. -/
def word : Level → String
  | all => "NOTSET"
  | debug => "DEBUG"
  | info => "INFO"
  | warning => "WARNING"
  | error => "ERROR"
  | critical => "CRITICAL"

/-- The level of a name; two levels have a second name. -/
def ofName? (name : String) : Option Level :=
  if name == "FATAL" then some critical
  else if name == "WARN" then some warning
  else [all, debug, info, warning, error, critical].find? (·.word == name)

end Level

/-- A note, and the part of the program that made it. -/
structure Record where
  level : Level
  origin : String
  text : String

/-- The line of a record. -/
def Record.line (r : Record) : String := r.level.word ++ " " ++ r.origin ++ ": " ++ r.text

/-- The note that a script is run. -/
def Record.script (path : String) : Record :=
  ⟨.info, "toylisp.cli", "eval script file: " ++ path⟩

/-- The note that a term is evaluated. -/
def Record.evaluating (e : Term) : Record :=
  ⟨.debug, "toylisp.interpreter", "evaluating " ++ e.inspect⟩

/-- The note that the scope of a named function is gone. -/
def Record.reclaimed (name : Symbol) : Record :=
  ⟨.debug, "toylisp.evaluation.apply", "defining scope of " ++ name.name ++ " has been reclaimed"⟩

/-- The note that evaluations were nested too deeply. -/
def Record.exhausted : Record :=
  ⟨.critical, "toylisp.cli", "evaluation exhausted the call stack"⟩

/-- The notes on a step of a session: the term that was read, and the scope that was missing. -/
def Session.records (source : String) (result : Except Fault Term) : List Record :=
  match Term.parse source with
  | .error _ => []
  | .ok e =>
    Record.evaluating e :: match result with
      | .error (.error (.scopeReclaimed name)) => [Record.reclaimed name]
      | _ => []

end ScopedLisp
