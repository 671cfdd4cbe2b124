import ScopedLisp.Console.Command
import ScopedLisp.Console.Interaction

/-!
# The program

A run of the whole program: the words are read first, then the settings, and then the script or the
loop is run. Evaluations that are nested too deeply end the run with status 1.

* `Program.plan`: what a run has to do;
* `Program.settle`: the end of a run that was nested too deeply;
* `Program.run`: the run over given files and lines.
-/

namespace ScopedLisp

namespace Program

/-- The name and version. -/
def versionText : String := "toylisp 0.3.0"

/-- How the program is called. -/
def usageText : String := "usage: toylisp [-h] [--repl] [--version] [script]"

/-- The lines of the help. -/
def helpLines : List String := [
  usageText,
  "",
  "Evaluate a toylisp program, or start an interactive loop.",
  "",
  "positional arguments:",
  "  script      file holding one program",
  "",
  "options:",
  "  -h, --help  show this help message and exit",
  "  --repl      start the interactive loop",
  "  --version   show program's version number and exit"]

/-- What a run has to do. -/
inductive Plan where
  /-- Nothing is left to do. -/
  | done (i : Interaction)
  | script (level : Level) (limit : Nat) (path : Path)
  | loop (level : Level) (limit : Nat) (prompt : String)

/-- Reads the settings, first the level and then the limit. -/
def withSettings (vars : Variables) (plan : Level → Nat → Plan) : Plan :=
  match Settings.level vars with
  | .error fault => .done ⟨[], .failed (.setting fault)⟩
  | .ok level =>
    match Settings.recursionLimit vars with
    | .error fault => .done ⟨[], .failed (.setting fault)⟩
    | .ok limit => plan level (Settings.nestingLimit limit)

/-- What the words and the variables ask for. -/
def plan (vars : Variables) (words : List String) : Plan :=
  match Command.ofArguments words with
  | .help => .done ⟨helpLines.map .line, .exit 0⟩
  | .version => .done ⟨[.line versionText], .exit 0⟩
  | .wrong fault =>
    .done ⟨[.errorLine usageText, .errorLine ("toylisp: error: " ++ fault.message)], .exit 2⟩
  | .script path => withSettings vars fun level limit => .script level limit (Path.ofText path)
  | .loop => withSettings vars fun level limit => .loop level limit (Settings.prompt vars)

/-- The notes and the line at the end of a run that was nested too deeply. -/
def exhaustedEvents : List Event :=
  [.record .exhausted, .errorLine "fatal: call stack exhausted (unbounded recursion?)"]

/-- Ends a run that was nested too deeply. -/
def settle (i : Interaction) : Interaction :=
  match i.ending with
  | .failed (.fault .exhausted) => ⟨i.events ++ exhaustedEvents, .status 1⟩
  | _ => i

/-- A run over the given files and inputs, and the level of its journal. -/
def run (vars : Variables) (files : FileTree) (inputs : List Input) (words : List String) :
    Level × Interaction :=
  match plan vars words with
  | .done i => (.warning, i)
  | .script level limit path =>
    (level, settle (Interaction.script limit path (files.read path)))
  | .loop level limit prompt => (level, settle (Interaction.loop limit prompt inputs))

/-- The lines of a text, each without its line end. -/
def inputLines (text : String) : List Input :=
  let pieces := text.splitOn "\n"
  (if pieces.getLast? == some "" then pieces.dropLast else pieces).map .line

end Program

end ScopedLisp
