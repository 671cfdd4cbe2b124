import ScopedLisp.Console.Journal
import ScopedLisp.Numeral
import ScopedLisp.Text.UpperCase

/-!
# Settings

The settings of a run come from variables of its surroundings. Blanks around a value do not count,
and a blank value is no value; only the prompt is taken as it is.

* `Settings.value`: the value of a variable;
* `Settings.level`, `Settings.prompt`, `Settings.recursionLimit`: the three settings;
* `Settings.nestingLimit`: the limit of nested evaluations that a recursion limit allows.
-/

namespace ScopedLisp

/-- The variables that are set. -/
abbrev Variables := String → Option String

/-- What can be wrong with a setting. -/
inductive SettingFault where
  | unknownLevel (name : String)
  | limitNotInteger (text : String)
  | limitNotPositive (n : Int)

/-- The report of a wrong setting. -/
def SettingFault.message : SettingFault → String
  | unknownLevel name => "Unknown log level in TOYLISP_LOG_LEVEL: " ++ Text.quote name
  | limitNotInteger text =>
    "TOYLISP_RECURSION_LIMIT must be an integer, got " ++ Text.quote text
  | limitNotPositive n => "TOYLISP_RECURSION_LIMIT must be positive, got " ++ toString n

namespace Settings

/-- The value of a variable without the blanks around it, or the default if nothing is left. -/
def value (vars : Variables) (name : String) (default : Option String) : Option String :=
  match (vars name).map Text.trim with
  | none | some "" => default
  | some text => some text

/-- The level of the journal, by a name in any case. -/
def level (vars : Variables) : Except SettingFault Level :=
  let name := Text.toUpper ((value vars "TOYLISP_LOG_LEVEL" none).getD "WARNING")
  match Level.ofName? name with
  | some l => .ok l
  | none => .error (.unknownLevel name)

/-- The prompt of the interactive loop. -/
def prompt (vars : Variables) : String :=
  match vars "TOYLISP_PROMPT" with
  | none | some "" => "> "
  | some text => text

/-- The recursion limit, if one is set: a positive integer. -/
def recursionLimit (vars : Variables) : Except SettingFault (Option Nat) :=
  match value vars "TOYLISP_RECURSION_LIMIT" none with
  | none => .ok none
  | some text =>
    match Numeral.ofSetting? text.toList with
    | none => .error (.limitNotInteger text)
    | some n =>
      if maxDigits < n.digits.length then .error (.limitNotInteger text)
      else if n.value ≤ 0 then .error (.limitNotPositive n.value)
      else .ok (some n.value.toNat)

/-- The greatest limit of nested evaluations that a run takes on. -/
def maxNesting : Nat := 10000

/-- The limit of nested evaluations. A recursion limit counts calls, and a nested evaluation makes
at least one. -/
def nestingLimit (limit : Option Nat) : Nat :=
  match limit with
  | none => defaultLimit
  | some n => min n maxNesting

end Settings

end ScopedLisp
