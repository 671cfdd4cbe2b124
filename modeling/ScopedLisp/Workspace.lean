import ScopedLisp.Session

/-!
# Workspaces

A workspace is a store whose scopes and values are held by name. What has no name is held only as
long as something named keeps it.

* `Workspace.held`: what the names hold;
* `Workspace.addScope`, `Workspace.keep`, `Workspace.drop`: the names;
* `Workspace.define`, `Workspace.eval`, `Workspace.apply`: what is done to the scopes;
* `Workspace.label?`, `Workspace.functionScope?`: what can be asked about them.
-/

namespace ScopedLisp

/-- Gives a name a meaning: in its place if the table has the name, and else at the end. -/
def assign {α : Type} (name : String) (a : α) : List (String × α) → List (String × α)
  | [] => [(name, a)]
  | (n, b) :: rest => if n == name then (n, a) :: rest else (n, b) :: assign name a rest

/-- The frame with the given pairs; every name has to be a symbol. -/
def Frame.ofTerms (records : List (Term × Term)) (outer : Option ScopeId) : Except Error Frame :=
  match records.find? fun record => record.1.symbol?.isNone with
  | some record => .error (.notSymbol record.1)
  | none =>
    .ok (ofRecords (records.filterMap fun (name, value) => name.symbol?.map (·, value)) outer)

/-- A store, with names for scopes and for values. -/
structure Workspace where
  store : Store
  scopes : List (String × ScopeId)
  values : List (String × Term)

namespace Workspace

/-- The scope of functions that are made outside of all others. It always lives. -/
def detached : ScopeId := 0

/-- The workspace without names. -/
def empty : Workspace := ⟨({} : Store).push {}, [], []⟩

/-- What the names hold. -/
def held (w : Workspace) : Held where
  scopes := detached :: w.scopes.map (·.2)
  values := w.values.map (·.2)

/-- The scope of a name. -/
def scope? (w : Workspace) (name : String) : Option ScopeId := w.scopes.lookup name

/-- The value of a name. -/
def value? (w : Workspace) (name : String) : Option Term := w.values.lookup name

/-- The name of a scope. -/
def label? (w : Workspace) (scope : ScopeId) : Option String :=
  (w.scopes.find? (·.2 == scope)).map (·.1)

/-- The names of the scopes that a scope retains, in order, and how many of them have none. -/
def retained (w : Workspace) (scope : ScopeId) : List String × Nat :=
  let scopes := (w.store.frame scope).retained
  let names := scopes.filterMap w.label?
  (names.mergeSort fun a b => a ≤ b, scopes.length - names.length)

/-- Makes a scope with a name. -/
def addScope (w : Workspace) (name : String) (f : Frame) : Workspace :=
  { w with store := w.store.push f, scopes := assign name w.store.size w.scopes }

/-- Holds a value by a name. -/
def keep (w : Workspace) (name : String) (value : Term) : Workspace :=
  { w with values := assign name value w.values }

/-- Forgets a name. -/
def drop (w : Workspace) (name : String) : Workspace :=
  { w with
    scopes := w.scopes.filter (·.1 != name)
    values := w.values.filter (·.1 != name) }

/-- Binds a term, which has to be a symbol, in a scope. -/
def define (w : Workspace) (scope : ScopeId) (name value : Term) : Except Error Workspace :=
  match name.symbol? with
  | none => .error (.notSymbol name)
  | some name => (w.store.define scope name value).map fun store => { w with store := store }

/-- Runs a computation on the store, and holds its value by a name if one is given. -/
def run (w : Workspace) (name? : Option String) (x : Eval Term) :
    Except Fault Term × Workspace :=
  match x w.store with
  | .error fault store => (.error fault, { w with store := store })
  | .ok value store =>
    let w := { w with store := store }
    (.ok value, match name? with
      | some name => w.keep name value
      | none => w)

/-- Evaluates a source text in a scope. -/
def eval (w : Workspace) (limit : Nat) (scope : ScopeId) (source : String)
    (name? : Option String) : Except Fault Term × Workspace :=
  match Term.parse source with
  | .error fault => (.error fault, w)
  | .ok e => w.run name? (evaluate limit w.held scope e)

/-- Calls a function. -/
def apply (w : Workspace) (limit : Nat) (fn : Term) (args : List Term)
    (name? : Option String) : Except Fault Term × Workspace :=
  w.run name? (ScopedLisp.apply limit ((w.held.keep fn).keepAll args) fn args)

/-- The scope that a function refers to, if it still lives. -/
def functionScope? (w : Workspace) : Term → Option ScopeId
  | .closure _ _ scope => some scope
  | .named _ _ _ scope => if w.held.keepsAlive w.store scope then some scope else none
  | _ => none

end Workspace

end ScopedLisp
