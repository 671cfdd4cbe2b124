import ScopedLisp.Term.Basic

/-!
# Frames

A frame holds the bindings of one scope in the order in which they were made, the scope around it,
and the scopes that it retains for as long as it lives itself, the newest first.

* `Frame.get?`, `Frame.binds`, `Frame.names`: the view of a frame as a table;
* `Frame.extend`: one more binding;
* `Frame.ofRecords`: a frame made from pairs, where a repeated name keeps its first place and takes
  its last value.
-/

namespace ScopedLisp

/-- The bindings of one scope. -/
structure Frame where
  bindings : List (Symbol × Term) := []
  outer : Option ScopeId := none
  retained : List ScopeId := []

namespace Frame

/-- The value that the frame itself binds to a name. -/
def get? (f : Frame) (name : Symbol) : Option Term := f.bindings.lookup name

/-- Whether the frame itself binds a name. -/
def binds (f : Frame) (name : Symbol) : Bool := (f.get? name).isSome

/-- The names that the frame binds, in the order of their definition. -/
def names (f : Frame) : List Symbol := f.bindings.map (·.1)

/-- The frame with a further binding at its end. -/
def extend (f : Frame) (name : Symbol) (value : Term) : Frame :=
  { f with bindings := f.bindings ++ [(name, value)] }

/-- Puts a scope into a list of scopes, in which each stands once and the newest first. -/
def insertScope (scope : ScopeId) : List ScopeId → List ScopeId
  | [] => [scope]
  | s :: rest =>
    if s < scope then scope :: s :: rest
    else if s = scope then s :: rest
    else s :: insertScope scope rest

/-- The frame that also retains the given scope. -/
def retain (f : Frame) (scope : ScopeId) : Frame :=
  { f with retained := insertScope scope f.retained }

/-- Sets the value of a name: in its place if the table has the name, and else at the end. -/
def put (name : Symbol) (value : Term) : List (Symbol × Term) → List (Symbol × Term)
  | [] => [(name, value)]
  | (n, v) :: rest => if n = name then (n, value) :: rest else (n, v) :: put name value rest

/-- The frame with the given pairs inside the scope `outer`. -/
def ofRecords (records : List (Symbol × Term)) (outer : Option ScopeId) : Frame where
  bindings := records.foldl (fun table record => put record.1 record.2 table) []
  outer := outer

/-- The scopes that the closures bound in the frame keep. -/
def closureScopes (f : Frame) : List ScopeId := f.bindings.filterMap (·.2.closureScope?)

/-- The scopes that the values bound in the frame keep. -/
def valueScopes (f : Frame) : List ScopeId := f.bindings.flatMap (·.2.scopes)

end Frame

end ScopedLisp
