import ScopedLisp.Text.Digit
import ScopedLisp.Text.Quoted

/-!
# Commands

The words after the name of the program ask for a script to be run or for the interactive loop, for
help or for the version. A word with a dash in front is an option; long options may be cut short,
and after `--` there are no more options.

* `Argument.classify`: what a word is, taken by itself;
* `Command.ofArguments`: the command that the words ask for, or what is wrong with them.
-/

namespace ScopedLisp

/-- The options. -/
inductive Flag where
  | help
  | interactive
  | version
deriving DecidableEq, Repr

namespace Flag

/-- All options. -/
def all : List Flag := [help, interactive, version]

/-- The long name of an option. -/
def longName : Flag → String
  | help => "--help"
  | interactive => "--repl"
  | version => "--version"

/-- All names of an option, as reports show them. -/
def label : Flag → String
  | help => "-h/--help"
  | f => f.longName

/-- The option with exactly this name. -/
def ofName? (name : String) : Option Flag :=
  if name == "-h" then some help else all.find? (·.longName == name)

end Flag

/-- What is wrong with the words. -/
inductive UsageFault where
  | missingMode
  | unrecognized (words : List String)
  | scriptWithLoop
  | loopWithScript
  | ignoredValue (flag : Flag) (value : String)
  | ambiguous (word : String) (candidates : List Flag)

/-- The report of wrong words. -/
def UsageFault.message : UsageFault → String
  | missingMode => "one of the arguments --repl script is required"
  | unrecognized words => "unrecognized arguments: " ++ " ".intercalate words
  | scriptWithLoop => "argument script: not allowed with argument --repl"
  | loopWithScript => "argument --repl: not allowed with argument script"
  | ignoredValue flag value =>
    "argument " ++ flag.label ++ ": ignored explicit argument " ++ Text.quote value
  | ambiguous word candidates =>
    "ambiguous option: " ++ word ++ " could match " ++
      ", ".intercalate (candidates.map Flag.longName)

/-- What a word is, taken by itself. -/
inductive Argument where
  | positional (word : String)
  | flag (f : Flag)
  | flagWithValue (f : Flag) (value : String)
  | unknown (word : String)

namespace Argument

/-- The name in front of the first `=`, and the value after it. -/
def splitValue (cs : List Char) : List Char × Option (List Char) :=
  match cs.span (· != '=') with
  | (name, '=' :: value) => (name, some value)
  | (name, _) => (name, none)

/-- Whether a nonempty text has digits only. -/
def isDigits (cs : List Char) : Bool := !cs.isEmpty && cs.all (Text.digit? · |>.isSome)

/-- Whether the text after a dash makes a negative number. One line end after it does not
matter. -/
def isNumber (cs : List Char) : Bool :=
  let cs := if cs.getLast? == some '\n' then cs.dropLast else cs
  isDigits cs || match cs.span (· != '.') with
    | (whole, '.' :: fraction) => (whole.isEmpty || isDigits whole) && isDigits fraction
    | _ => false

/-- The letters after `-h`. Each `h` is the option again, and what follows the last of them is taken
for a value. -/
def ofCluster : List Char → Argument
  | [] => .flag .help
  | 'h' :: rest => ofCluster rest
  | value => .flagWithValue .help (String.ofList value)

/-- An option with a value behind `=`. A value of `-h` is read like the letters after it, unless it
is empty. -/
def ofAssignment (name : List Char) (f : Flag) (value : List Char) : Argument :=
  if name == ['-', 'h'] && !value.isEmpty then ofCluster value
  else .flagWithValue f (String.ofList value)

/-- An option of which the name is cut short, or any other word with a dash. -/
def ofDashed (word : String) (rest : List Char) : Except UsageFault Argument :=
  let (name, value) := splitValue word.toList
  let other : Argument :=
    if isNumber rest || rest.contains ' ' then .positional word else .unknown word
  match rest with
  | 'h' :: letters => .ok (ofCluster letters)
  | '-' :: _ =>
    match Flag.all.filter fun f => name.isPrefixOf f.longName.toList with
    | [] => .ok other
    | [f] =>
      match value with
      | some value => .ok (.flagWithValue f (String.ofList value))
      | none => .ok (.flag f)
    | candidates => .error (.ambiguous word candidates)
  | _ => .ok other

/-- What a word is, taken by itself. -/
def classify (word : String) : Except UsageFault Argument :=
  match word.toList with
  | '-' :: c :: rest =>
    match Flag.ofName? word with
    | some f => .ok (.flag f)
    | none =>
      match splitValue word.toList with
      | (name, some value) =>
        match Flag.ofName? (String.ofList name) with
        | some f => .ok (ofAssignment name f value)
        | none => ofDashed word (c :: rest)
      | _ => ofDashed word (c :: rest)
  | _ => .ok (.positional word)

end Argument

/-- What the program is asked to do. -/
inductive Command where
  | script (path : String)
  | loop
  | help
  | version
  | wrong (fault : UsageFault)

namespace Command

/-- The words read so far: whether the loop is asked for, the script, and the words without a
use. -/
structure Progress where
  loop : Bool := false
  script : Option String := none
  unused : List String := []

/-- Takes a word as the script, or as one without a use if there is a script. -/
def Progress.takeScript (p : Progress) (word : String) : Except Command Progress :=
  if p.script.isSome then .ok { p with unused := p.unused ++ [word] }
  else if p.loop then .error (.wrong .scriptWithLoop)
  else .ok { p with script := some word }

/-- Takes a word; some words settle the command. -/
def Progress.take (p : Progress) : Argument → Except Command Progress
  | .positional word => p.takeScript word
  | .flag .help => .error .help
  | .flag .version => .error .version
  | .flag .interactive =>
    if p.script.isSome then .error (.wrong .loopWithScript) else .ok { p with loop := true }
  | .flagWithValue f value => .error (.wrong (.ignoredValue f value))
  | .unknown word => .ok { p with unused := p.unused ++ [word] }

/-- Takes the words after `--`. The mark itself has no use if a script was named before the word
in front of it. -/
def Progress.takeRest (p : Progress) (scriptInFront : Bool) (rest : List String) :
    Except Command Progress :=
  match p.script, rest with
  | none, [] => .ok p
  | none, word :: words => do
    let p ← p.takeScript word
    pure { p with unused := p.unused ++ words }
  | some _, words =>
    .ok { p with unused := p.unused ++ if scriptInFront then words else "--" :: words }

/-- The command that the words ask for when all have been read. -/
def Progress.command (p : Progress) : Command :=
  match p.script, p.loop, p.unused with
  | none, false, _ => .wrong .missingMode
  | some path, _, [] => .script path
  | none, true, [] => .loop
  | _, _, words => .wrong (.unrecognized words)

/-- Reads the words in order. All words are classified before the first one is taken. -/
def read (words : List String) : Except Command Command := do
  let (front, rest) := words.span (· != "--")
  let arguments ← match front.mapM Argument.classify with
    | .ok arguments => pure arguments
    | .error fault => .error (.wrong fault)
  let before ← arguments.dropLast.foldlM Progress.take {}
  let p ← arguments.getLast?.elim (pure before) before.take
  match rest with
  | [] => pure p.command
  | _ :: rest =>
    let p ← p.takeRest (before.script.isNone && p.script.isSome) rest
    pure p.command

/-- The command that the words ask for. -/
def ofArguments (words : List String) : Command :=
  match read words with
  | .ok command | .error command => command

end Command

end ScopedLisp
