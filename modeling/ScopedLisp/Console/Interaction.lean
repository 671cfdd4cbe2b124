import ScopedLisp.Console.FileTree
import ScopedLisp.Console.Settings
import ScopedLisp.Text.Utf8

/-!
# Interaction

What a user sees of a session: the loop that answers line by line, and the run of a script.

* `Answer`: the line that answers a program, and whether it is a value;
* `Session.reply`: what a session does with a program;
* `Interaction`: the prompts, lines and notes of a run in order, and how it ended;
* `Interaction.loop`: the loop, `Interaction.script`: the run of a script.
-/

namespace ScopedLisp

/-- The line that answers a program. -/
structure Answer where
  isValue : Bool
  text : String

/-- The answer to the result of a step. Errors of the language are answered by their report; other
faults have no answer. -/
def Answer.ofResult : Except Fault Term → Except Fault Answer
  | .ok value => .ok ⟨true, value.render⟩
  | .error (.error e) => .ok ⟨false, e.message⟩
  | .error fault => .error fault

/-- What the surroundings of a run show. -/
inductive Event where
  /-- A question to the user, without a line end. -/
  | prompt (text : String)
  /-- A line of output. -/
  | line (text : String)
  /-- A line among the errors. -/
  | errorLine (text : String)
  /-- A note for the journal. -/
  | record (r : Record)

/-- What a session does with a program: the events, the answer, and the session after it. -/
structure Reply where
  events : List Event
  answer : Except Fault Answer
  session : Session

/-- Answers a program. The answer, if there is one, is also the last event. -/
def Session.reply (limit : Nat) (s : Session) (source : String) : Reply :=
  let (result, s) := s.eval limit source
  let notes := (Session.records source result).map Event.record
  match Answer.ofResult result with
  | .error fault => ⟨notes, .error fault, s⟩
  | .ok answer => ⟨notes ++ [.line answer.text], .ok answer, s⟩

/-- Why a run broke off. -/
inductive Failure where
  | fault (f : Fault)
  | undecodable (f : Text.Utf8.Fault)
  | setting (f : SettingFault)
  /-- A path with a null character can name no file. -/
  | nullInPath

/-- The report of a failure. -/
def Failure.message : Failure → String
  | fault (.error e) => e.message
  | fault (.word f) => f.message
  | fault .exhausted => "maximum recursion depth exceeded"
  | undecodable f => f.message
  | setting f => f.message
  | nullInPath => "embedded null byte"

/-- How a run ended: with a status, without having got to its work, or by a failure. -/
inductive Ending where
  | status (n : Nat)
  | exit (n : Nat)
  | failed (f : Failure)

/-- What happened during a run, and how it ended. -/
structure Interaction where
  events : List Event
  ending : Ending

/-- What the user does at a prompt. -/
inductive Input where
  | line (text : String)
  | interrupt

namespace Interaction

/-- The interaction with further events in front. -/
def after (events : List Event) (i : Interaction) : Interaction :=
  { i with events := events ++ i.events }

/-- The line that the loop starts with. -/
def banner : String := "toy lisp"

/-- Answers the inputs one after the other; at their end there is an empty line. -/
def answerAll (limit : Nat) (prompt : String) (s : Session) : List Input → Interaction
  | [] => ⟨[.prompt prompt, .line ""], .status 0⟩
  | .interrupt :: inputs => after [.prompt prompt, .line ""] (answerAll limit prompt s inputs)
  | .line source :: inputs =>
    let reply := s.reply limit source
    match reply.answer with
    | .error fault => ⟨.prompt prompt :: reply.events, .failed (.fault fault)⟩
    | .ok _ =>
      after (.prompt prompt :: reply.events) (answerAll limit prompt reply.session inputs)

/-- The interactive loop. -/
def loop (limit : Nat) (prompt : String) (inputs : List Input) : Interaction :=
  after [.line banner] (answerAll limit prompt Session.start inputs)

/-- The run of a program of which the text is known: the status tells whether it has a value. -/
def program (limit : Nat) (source : String) : Interaction :=
  let reply := Session.start.reply limit source
  match reply.answer with
  | .error fault => ⟨reply.events, .failed (.fault fault)⟩
  | .ok answer => ⟨reply.events, .status (if answer.isValue then 0 else 1)⟩

/-- The run of a script, of which `contents` are the bytes. -/
def script (limit : Nat) (path : Path) (contents : Except ReadFault (List UInt8)) : Interaction :=
  after [.record (.script path.toText)] <|
    if path.toText.toList.contains '\x00' then ⟨[], .failed .nullInPath⟩
    else match contents with
      | .error fault =>
        ⟨[.line ("cannot read " ++ path.toText ++ ": " ++ fault.message)], .status 1⟩
      | .ok bytes =>
        match Text.Utf8.decode bytes with
        | .error fault => ⟨[], .failed (.undecodable fault)⟩
        | .ok source => program limit source

/-! ## What is written where -/

/-- The prompts of an interaction. -/
def prompts (i : Interaction) : List String :=
  i.events.filterMap fun
    | .prompt text => some text
    | _ => none

/-- The lines of output of an interaction. -/
def lines (i : Interaction) : List String :=
  i.events.filterMap fun
    | .line text => some text
    | _ => none

/-- What an event adds to the output. -/
def output : Event → String
  | .prompt text => text
  | .line text => text ++ "\n"
  | _ => ""

/-- What an event adds to the errors, where the journal has the given level. -/
def errors (level : Level) : Event → String
  | .errorLine text => text ++ "\n"
  | .record r => if level.value ≤ r.level.value then r.line ++ "\n" else ""
  | _ => ""

end Interaction

end ScopedLisp
