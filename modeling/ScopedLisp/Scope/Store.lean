import ScopedLisp.Error
import ScopedLisp.Scope.Frame
import ScopedLisp.Scope.Search

/-!
# Stores of scopes

A store holds the frames of all scopes made so far. Scopes are never removed from it: whether one is
still in use is a question of what can be reached (`ScopedLisp.Scope.Lifetime`).

* `Store.chain`: a scope and the scopes around it, the innermost first;
* `Store.find?`, `Store.lookup`: the nearest binding of a name;
* `Store.owns`: whether a closure leads back to a scope;
* `Store.define`: one more binding. When a closure is bound that leads back to the scope, the
  outermost scope retains it, because the scope then depends on itself.
-/

namespace ScopedLisp

/-- The frames of the scopes, by number. -/
structure Store where
  frames : Array Frame := #[]

namespace Store

/-- The number of scopes. -/
def size (s : Store) : Nat := s.frames.size

/-- The frame of a scope. -/
def frame (s : Store) (scope : ScopeId) : Frame := s.frames.getD scope {}

/-- The store with a further scope, which has the number `s.size`. -/
def push (s : Store) (f : Frame) : Store := ⟨s.frames.push f⟩

/-- The store with the frame of one scope changed. -/
def modify (s : Store) (scope : ScopeId) (change : Frame → Frame) : Store :=
  ⟨s.frames.modify scope change⟩

/-- The first `steps` scopes of a chain. -/
def chainFrom (s : Store) : (steps : Nat) → ScopeId → List ScopeId
  | 0, _ => []
  | steps + 1, scope =>
    scope :: match (s.frame scope).outer with
      | none => []
      | some outer => s.chainFrom steps outer

/-- A scope and the scopes around it, the innermost first. -/
def chain (s : Store) (scope : ScopeId) : List ScopeId := s.chainFrom s.size scope

/-- The outermost scope around a scope. -/
def root (s : Store) (scope : ScopeId) : ScopeId := (s.chain scope).getLast?.getD scope

/-- The nearest scope that binds a name. -/
def find? (s : Store) (scope : ScopeId) (name : Symbol) : Option ScopeId :=
  (s.chain scope).find? fun i => (s.frame i).binds name

/-- The value of the nearest binding of a name. -/
def lookup (s : Store) (scope : ScopeId) (name : Symbol) : Option Term :=
  (s.find? scope name).bind fun i => (s.frame i).get? name

/-! ## Ownership -/

/-- The scopes that an ownership search goes to from a scope: the one around it and those of the
closures bound in it. -/
def ownershipLinks (s : Store) (scope : ScopeId) : List ScopeId :=
  (s.frame scope).outer.toList ++ (s.frame scope).closureScopes

/-- Whether the value is a closure that leads back to the scope. -/
def owns (s : Store) (scope : ScopeId) (value : Term) : Bool :=
  match value.closureScope? with
  | none => false
  | some start => reaches s.size s.ownershipLinks [start] scope

/-! ## Definitions -/

/-- Has the outermost scope retain a scope, unless it is that scope itself. -/
def retain (s : Store) (scope : ScopeId) : Store :=
  let root := s.root scope
  if root = scope then s else s.modify root (·.retain scope)

/-- Adds a binding to a scope that does not bind the name yet. -/
def bind (s : Store) (scope : ScopeId) (name : Symbol) (value : Term) : Store :=
  let s := s.modify scope (·.extend name value)
  if s.owns scope value then s.retain scope else s

/-- Binds a name in a scope, once. -/
def define (s : Store) (scope : ScopeId) (name : Symbol) (value : Term) : Except Error Store :=
  if (s.frame scope).binds name then .error (.duplicate name)
  else .ok (s.bind scope name value)

/-! ## Printing -/

/-- The bindings of a frame. -/
def frameText (f : Frame) : String :=
  "\x7b" ++ ", ".intercalate (f.bindings.map fun (n, v) => n.name ++ ": " ++ v.inspect) ++ "\x7d"

/-- The bindings of a scope, and whether there is a scope around it. -/
def scopeText (s : Store) (scope : ScopeId) : String :=
  let f := s.frame scope
  frameText f ++ if f.outer.isSome then " -> ..." else ""

/-- The bindings of a scope and of the scopes around it. -/
def chainText (s : Store) (scope : ScopeId) : String :=
  "<Environment chain: " ++
    " -> ".intercalate ((s.chain scope).map fun i => frameText (s.frame i)) ++ ">"

/-! ## Small laws -/

@[simp]
theorem size_push (s : Store) (f : Frame) : (s.push f).size = s.size + 1 := by
  simp [size, push]

@[simp]
theorem size_modify (s : Store) (scope : ScopeId) (change : Frame → Frame) :
    (s.modify scope change).size = s.size := by
  simp [size, modify]

theorem frame_push (s : Store) (f : Frame) (i : ScopeId) :
    (s.push f).frame i = if i = s.size then f else s.frame i := by
  simp only [frame, push, size, Array.getD_eq_getD_getElem?, Array.getElem?_push]
  split <;> simp_all

theorem frame_of_size_le {s : Store} {i : ScopeId} (h : s.size ≤ i) : s.frame i = {} := by
  simp only [frame, size, Array.getD_eq_getD_getElem?] at *
  simp [Array.getElem?_eq_none h]

theorem frame_modify_self {s : Store} {i : ScopeId} (h : i < s.size) (change : Frame → Frame) :
    (s.modify i change).frame i = change (s.frame i) := by
  simp only [frame, modify, size, Array.getD_eq_getD_getElem?] at *
  simp [Array.getElem_modify, h]

theorem frame_modify_of_ne {s : Store} {i j : ScopeId} (h : i ≠ j) (change : Frame → Frame) :
    (s.modify j change).frame i = s.frame i := by
  simp only [frame, modify, Array.getD_eq_getD_getElem?]
  simp [Array.getElem?_modify, Ne.symm h]

end Store

end ScopedLisp
