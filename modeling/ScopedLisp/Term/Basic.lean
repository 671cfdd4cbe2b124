import ScopedLisp.Symbol

/-!
# Terms

Programs and the values they compute are terms of one kind: booleans, integers, symbols and lists
are read from a source text, and evaluation adds the functions.

* `Builtin`: the functions that every session starts with;
* `ScopeId`: the scopes that functions of a program refer to;
* `Term`: the terms. A closure keeps its scope; a named function only refers to its scope, and may
  outlive it. `Term.absent` and `Term.text` are values that a host program can bind; the language
  itself makes neither.
-/

namespace ScopedLisp

/-- The functions that every session starts with. -/
inductive Builtin where
  | add | sub | mul | div
  | gt | gte | lt | lte
  | eq | neq
  | and | or | not
deriving DecidableEq, Repr

namespace Builtin

/-- All builtin functions, in the order in which a session binds them. -/
def all : List Builtin := [add, sub, mul, div, gt, gte, lt, lte, eq, neq, and, or, not]

/-- The name of a builtin function. -/
def name : Builtin → String
  | add => "add" | sub => "sub" | mul => "mul" | div => "div"
  | gt => "gt" | gte => "gte" | lt => "lt" | lte => "lte"
  | eq => "eq" | neq => "neq"
  | and => "and" | or => "or" | not => "not"

theorem isWord_name (b : Builtin) : isWord b.name.toList = true := by
  cases b <;> decide

/-- The symbol that a builtin function is bound to. -/
def symbol (b : Builtin) : Symbol := ⟨b.name, b.isWord_name⟩

/-- The builtin function of a name. -/
def ofName? (name : String) : Option Builtin := all.find? (·.name == name)

end Builtin

/-- The number of a scope: scopes are numbered in the order in which they are made. -/
abbrev ScopeId := Nat

/-- The terms. -/
inductive Term where
  | bool (b : Bool)
  | int (n : Int)
  | symbol (s : Symbol)
  | list (items : List Term)
  | builtin (b : Builtin)
  /-- A function that keeps the scope it was made in. -/
  | closure (params : List Symbol) (body : Term) (scope : ScopeId)
  /-- A function with a name, which refers to the scope it was defined in without keeping it. -/
  | named (name : Symbol) (params : List Symbol) (body : Term) (scope : ScopeId)
  | absent
  | text (s : String)

namespace Term

instance : Inhabited Term := ⟨.absent⟩

/-- The least integer that the language computes with. -/
def minInt : Int := -9223372036854775808

/-- The greatest integer that the language computes with. -/
def maxInt : Int := 9223372036854775807

/-- Whether an integer has 64 bits with sign. -/
def inRange (n : Int) : Bool := minInt ≤ n && n ≤ maxInt

theorem inRange_iff {n : Int} : inRange n = true ↔ minInt ≤ n ∧ n ≤ maxInt := by
  simp [inRange]

/-- Whether the term can be called. -/
def isFunction : Term → Bool
  | builtin _ | closure .. | named .. => true
  | _ => false

/-- Whether the term is an integer. -/
def isInt : Term → Bool
  | int _ => true
  | _ => false

/-- Whether the term is a boolean. -/
def isBool : Term → Bool
  | bool _ => true
  | _ => false

/-- The symbol that the term is. -/
def symbol? : Term → Option Symbol
  | symbol s => some s
  | _ => none

/-- The scope of a closure. -/
def closureScope? : Term → Option ScopeId
  | closure _ _ scope => some scope
  | _ => none

mutual

/-- The scopes that a term keeps: those of its closures, wherever they stand in it. A named
function does not keep its own scope. -/
def scopes : Term → List ScopeId
  | list items => scopesOfAll items
  | closure _ body scope => scope :: body.scopes
  | named _ _ body _ => body.scopes
  | _ => []

/-- The scopes that a list of terms keeps. -/
def scopesOfAll : List Term → List ScopeId
  | [] => []
  | t :: ts => t.scopes ++ scopesOfAll ts

end

end Term

end ScopedLisp
