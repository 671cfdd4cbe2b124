import ScopedLisp.Scope.Store

/-!
# Lifetime of scopes

A scope lives for as long as it can be reached from what is in use. A named function does not keep
the scope it was defined in, so a call has to ask whether that scope still lives.

* `Held`: what the evaluations in progress use: the scopes they evaluate in, and the values they
  have computed and still need;
* `Store.links`: the scopes that a scope keeps: the one around it, those of the values bound in it
  and those it retains;
* `Held.scopesNear`: whether a scope is seen to live without a search;
* `Held.keepsAlive`: whether a scope lives.
-/

namespace ScopedLisp

/-- What is in use, the latest first. -/
structure Held where
  scopes : List ScopeId := []
  values : List Term := []

namespace Held

/-- A scope is used as well. -/
def enter (h : Held) (scope : ScopeId) : Held := { h with scopes := scope :: h.scopes }

/-- A value is used as well. -/
def keep (h : Held) (value : Term) : Held := { h with values := value :: h.values }

/-- Several values are used as well. -/
def keepAll (h : Held) (values : List Term) : Held := { h with values := values ++ h.values }

end Held

/-- The scopes that a scope keeps. -/
def Store.links (s : Store) (scope : ScopeId) : List ScopeId :=
  let f := s.frame scope
  f.outer.toList ++ f.valueScopes ++ f.retained

/-- A rule that tells from what is in use which scopes of a store live. -/
abbrev Liveness := Held → Store → ScopeId → Bool

/-- Whether a scope is around one of the scopes in use, or is kept by one around the latest of them.
Most scopes that are asked for are as near as that. -/
def Held.scopesNear : Liveness := fun h s scope =>
  h.scopes.any (fun i => (s.chain i).contains scope) ||
    (h.scopes.head?.elim [] s.chain).any fun i => (s.links i).contains scope

/-- Whether a scope can be reached from the scopes in use. -/
def Held.scopesReach : Liveness := fun h s scope =>
  scope < s.size && h.scopesNear s scope || reaches s.size s.links h.scopes scope

/-- Whether a scope can be reached from the values in use. -/
def Held.valuesReach : Liveness := fun h s scope =>
  reaches s.size s.links (h.values.flatMap Term.scopes) scope

/-- A scope lives when the scopes or the values in use reach it. -/
def Held.keepsAlive : Liveness := fun h s scope => h.scopesReach s scope || h.valuesReach s scope

end ScopedLisp
