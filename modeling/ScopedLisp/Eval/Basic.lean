import ScopedLisp.Builtin
import ScopedLisp.Scope.Lifetime

/-!
# Evaluation

Evaluation changes a store, and what it has changed stays changed when it fails. Every evaluation
that is nested in another one takes one level of a nesting limit; with no level left the evaluation
is given up.

* `Eval`: computations on a store;
* `Eval.lookup`, `Eval.define`, `Eval.newScope`: the three things they do to it;
* `paramNames`: the names of a parameter list;
* `evaluateWith`: the evaluation of a term in a scope, under any rule for the lifetime of scopes;
* `evaluate`: the evaluation under the rule `Held.keepsAlive`.
-/

namespace ScopedLisp

/-- A computation that changes a store, and gives a value or a fault. -/
abbrev Eval := EStateM Fault Store

/-- A way to evaluate a term in a scope while something else is in use. -/
abbrev Evaluator := Held → ScopeId → Term → Eval Term

namespace Eval

/-- Fails with an error of the language. -/
def fail {α : Type} (e : Error) : Eval α := throw (.error e)

/-- A value, or an error of the language. -/
def ofExcept {α : Type} : Except Error α → Eval α
  | .ok a => pure a
  | .error e => fail e

/-- The value of a name. A name bound to nothing counts as unbound. -/
def lookup (scope : ScopeId) (name : Symbol) : Eval Term := fun s =>
  match s.lookup scope name with
  | none | some .absent => fail (.unbound name) s
  | some value => .ok value s

/-- Binds a name, and gives the value it is bound to. -/
def define (scope : ScopeId) (name : Symbol) (value : Term) : Eval Term := fun s =>
  if (s.frame scope).binds name then fail (.duplicate name) s
  else .ok value (s.bind scope name value)

/-- Makes a scope. -/
def newScope (f : Frame) : Eval ScopeId := fun s => .ok s.size (s.push f)

/-- Whether a scope still lives. -/
def isAlive (alive : Liveness) (held : Held) (scope : ScopeId) : Eval Bool := fun s =>
  .ok (alive held s scope) s

end Eval

/-- The names in a list of parameters. -/
def paramNames : Term → Except Error (List Symbol)
  | .list items =>
    match items.mapM Term.symbol? with
    | some names => .ok names
    | none => .error .paramName
  | _ => .error .paramList

/-! ## Calls -/

/-- Evaluates the arguments of a call from left to right; the values so far stay in use. -/
def evaluateArgs (ev : Evaluator) (held : Held) (scope : ScopeId) : List Term → Eval (List Term)
  | [] => pure []
  | e :: es => do
    let value ← ev held scope e
    let values ← evaluateArgs ev (held.keep value) scope es
    pure (value :: values)

/-- Checks that there are as many arguments as parameters. -/
def checkCount (params : List Symbol) (args : List Term) : Eval Unit :=
  if params.length = args.length then pure ()
  else Eval.fail (.argumentCount params.length args.length)

/-- Evaluates the body of a function in a new scope that binds its parameters. -/
def enterBody (ev : Evaluator) (held : Held) (params : List Symbol) (args : List Term)
    (body : Term) (scope : ScopeId) : Eval Term := do
  let inner ← Eval.newScope (Frame.ofRecords (params.zip args) (some scope))
  ev held inner body

/-- Calls a function. The number of arguments is checked before the scope of a named function. -/
def applyWith (alive : Liveness) (ev : Evaluator) (held : Held) (fn : Term) (args : List Term) :
    Eval Term :=
  match fn with
  | .builtin b => Eval.ofExcept (b.call args)
  | .closure params body scope => do
    checkCount params args
    enterBody ev held params args body scope
  | .named name params body scope => do
    checkCount params args
    if ← Eval.isAlive alive held scope then enterBody ev held params args body scope
    else Eval.fail (.scopeReclaimed name)
  | _ => Eval.fail .notFunction

/-- Evaluates a call. The head has to be a function before the arguments are evaluated. -/
def evaluateCall (alive : Liveness) (ev : Evaluator) (held : Held) (scope : ScopeId) (head : Term)
    (args : List Term) : Eval Term := do
  let fn ← ev held scope head
  if fn.isFunction then
    let values ← evaluateArgs ev (held.keep fn) scope args
    applyWith alive ev ((held.keep fn).keepAll values) fn values
  else Eval.fail .notFunction

/-! ## Forms -/

/-- Evaluates the parts of a block one after the other; the last value stays in use. -/
def evaluateBlock (ev : Evaluator) (held : Held) (scope : ScopeId) :
    (last : Option Term) → (first : Term) → List Term → Eval Term
  | last, e, [] => ev (last.elim held held.keep) scope e
  | last, e, e' :: es => do
    let value ← ev (last.elim held held.keep) scope e
    evaluateBlock ev held scope (some value) e' es

/-- Evaluates a form, given its parts. -/
def evaluateForm (ev : Evaluator) (held : Held) (scope : ScopeId) :
    Keyword → List Term → Eval Term
  | .block, first :: rest => do
    let inner ← Eval.newScope { outer := some scope }
    evaluateBlock ev held inner none first rest
  | .bind, [target, e] =>
    match target.symbol? with
    | some name => do
      let value ← ev held scope e
      Eval.define scope name value
    | none => Eval.fail .bindTarget
  | .choose, [test, yes, no] => do
    match ← ev held scope test with
    | .bool true => ev held scope yes
    | .bool false => ev held scope no
    | _ => Eval.fail .chooseTest
  | .define, [target, params, body] =>
    match target.symbol? with
    | some name => do
      let params ← Eval.ofExcept (paramNames params)
      Eval.define scope name (.named name params body scope)
    | none => Eval.fail .defineTarget
  | .lambda, [params, body] => do
    let params ← Eval.ofExcept (paramNames params)
    pure (.closure params body scope)
  | keyword, _ => Eval.fail (.formShape keyword)

/-! ## Terms -/

/-- Evaluates a term in a scope with at most `limit` nested evaluations, where `alive` tells which
scopes live. The scope stays in use until the term is evaluated. -/
def evaluateWith (alive : Liveness) : (limit : Nat) → Evaluator
  | 0, _, _, _ => throw .exhausted
  | limit + 1, held, scope, e =>
    match e with
    | .bool _ | .int _ => pure e
    | .symbol name => Eval.lookup scope name
    | .list [] => Eval.fail .emptyList
    | .list (head :: rest) =>
      match Keyword.ofTerm? head with
      | some keyword =>
        evaluateForm (evaluateWith alive limit) (held.enter scope) scope keyword rest
      | none => evaluateCall alive (evaluateWith alive limit) (held.enter scope) scope head rest
    | _ => Eval.fail .unsupported

/-- Evaluates a term in a scope with at most `limit` nested evaluations. -/
def evaluate (limit : Nat) : Evaluator := evaluateWith Held.keepsAlive limit

/-- Calls a function, whose body has at most `limit` nested evaluations. -/
def apply (limit : Nat) : Held → Term → List Term → Eval Term :=
  applyWith Held.keepsAlive (evaluate limit)

end ScopedLisp
