import ScopedLisp.Console.Program

/-!
# The command line

Reads the words, variables, files and lines of a real run, and shows its events as they happen.
-/

namespace ScopedLisp

/-- Shows an event. -/
def showEvent (level : Level) (e : Event) : IO Unit := do
  IO.print (Interaction.output e)
  (← IO.getStdout).flush
  IO.eprint (Interaction.errors level e)

/-- The exit code of an ending; a failure is reported. -/
def conclude : Ending → IO UInt32
  | .status n | .exit n => pure n.toUInt32
  | .failed f => do
    IO.eprintln f.message
    pure 1

/-- Shows an interaction. -/
def showAll (level : Level) (i : Interaction) : IO UInt32 := do
  i.events.forM (showEvent level)
  conclude i.ending

/-- Whether the system reports the error number `n`, with either sign. -/
def isErrorNumber (code n : UInt32) : Bool := code == n || code == 0 - n

/-- Why the system could not read a file. -/
def ReadFault.ofSystem : IO.Error → ReadFault
  | .noFileOrDirectory .. => .missing
  | .inappropriateType _ code _ => if isErrorNumber code 20 then .notDirectory else .isDirectory
  | .invalidArgument _ code _ =>
    if isErrorNumber code 36 then .nameTooLong else .other "Invalid argument"
  | .permissionDenied .. => .other "Permission denied"
  | e => .other (toString e)

/-- Reads a file. -/
def readScript (path : Path) : IO (Except ReadFault (List UInt8)) := do
  try
    let bytes ← IO.FS.readBinFile path.toText
    pure (.ok bytes.toList)
  catch e =>
    pure (.error (.ofSystem e))

/-- Answers the lines of the standard input as they come. -/
partial def answerLines (level : Level) (limit : Nat) (prompt : String) (s : Session) :
    IO UInt32 := do
  showEvent level (.prompt prompt)
  let line ← (← IO.getStdin).getLine
  if line.isEmpty then
    showEvent level (.line "")
    pure 0
  else
    let reply := s.reply limit (line.dropSuffix "\n").toString
    match reply.answer with
    | .ok _ =>
      reply.events.forM (showEvent level)
      answerLines level limit prompt reply.session
    | .error fault =>
      showAll level (Program.settle ⟨reply.events, .failed (.fault fault)⟩)

end ScopedLisp

open ScopedLisp in
/-- The program. -/
def main (words : List String) : IO UInt32 := do
  let names := ["TOYLISP_LOG_LEVEL", "TOYLISP_PROMPT", "TOYLISP_RECURSION_LIMIT"]
  let values ← names.mapM fun name => do pure (name, ← IO.getEnv name)
  let vars : Variables := fun name => (values.lookup name).join
  match Program.plan vars words with
  | .done i => showAll .warning i
  | .script level limit path =>
    let contents ← readScript path
    showAll level (Program.settle (Interaction.script limit path contents))
  | .loop level limit prompt =>
    showEvent level (.line Interaction.banner)
    answerLines level limit prompt Session.start
