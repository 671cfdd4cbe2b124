import ScopedLisp.Eval.Basic
import ScopedLisp.Term.Reader

/-!
# Sessions

A session evaluates one program after the other in the same outermost scope. A program that fails
leaves the definitions that it made before.

* `Session.start`: a session with the builtin functions; `Session.bare`: one without;
* `Session.evaluateWith`, `Session.evalWith`, `Session.runWith`: evaluate a term, a source text and
  several source texts by any evaluator;
* `Session.evaluate`, `Session.eval`, `Session.run`: do so within a nesting limit.
-/

namespace ScopedLisp

/-- The default limit of nested evaluations. -/
def defaultLimit : Nat := 5000

/-- The frame that binds the builtin functions. -/
def Frame.builtins : Frame where
  bindings := Builtin.all.map fun b => (b.symbol, .builtin b)

/-- The scopes made so far, and the outermost one. -/
structure Session where
  store : Store
  root : ScopeId

namespace Session

/-- A session whose outermost scope has the given frame. -/
def ofFrame (f : Frame) : Session := ⟨({} : Store).push f, 0⟩

/-- A session with the builtin functions. -/
def start : Session := ofFrame Frame.builtins

/-- A session that binds no names. -/
def bare : Session := ofFrame {}

/-- The frame of the outermost scope. -/
def frame (s : Session) : Frame := s.store.frame s.root

/-- Evaluates a term in the outermost scope by an evaluator. -/
def evaluateWith (ev : Evaluator) : Session → Term → Except Fault Term × Session
  | ⟨store, root⟩, e =>
    match ev { scopes := [root] } root e store with
    | .ok value store => (.ok value, ⟨store, root⟩)
    | .error fault store => (.error fault, ⟨store, root⟩)

/-- Evaluates a source text in the outermost scope by an evaluator. -/
def evalWith (ev : Evaluator) (s : Session) (source : String) : Except Fault Term × Session :=
  match Term.parse source with
  | .error fault => (.error fault, s)
  | .ok e => s.evaluateWith ev e

/-- Evaluates source texts one after the other by an evaluator. -/
def runWith (ev : Evaluator) (s : Session) : List String → List (Except Fault Term) × Session
  | [] => ([], s)
  | source :: sources =>
    let (result, s) := s.evalWith ev source
    let (results, s) := s.runWith ev sources
    (result :: results, s)

/-- Evaluates a term in the outermost scope. -/
def evaluate (limit : Nat) (s : Session) (e : Term) : Except Fault Term × Session :=
  s.evaluateWith (ScopedLisp.evaluate limit) e

/-- Evaluates a source text in the outermost scope. -/
def eval (limit : Nat) (s : Session) (source : String) : Except Fault Term × Session :=
  s.evalWith (ScopedLisp.evaluate limit) source

/-- Evaluates source texts one after the other. -/
def run (limit : Nat) (s : Session) (sources : List String) :
    List (Except Fault Term) × Session :=
  s.runWith (ScopedLisp.evaluate limit) sources

end Session

/-- The result of a single program in a new session. -/
def evalProgram (limit : Nat) (source : String) : Except Fault Term :=
  (Session.start.eval limit source).1

end ScopedLisp
