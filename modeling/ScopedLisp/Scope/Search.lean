import ScopedLisp.Term.Basic

/-!
# Searching a graph of scopes

The scopes below `size` are the nodes of a graph, and `links` gives the neighbours of each. A search
pops one scope after the other from a stack of pending ones. It ends when that is the scope it looks
for; else it marks the scope and pushes its links in their order, unless the scope has a mark
already. Scopes outside of the graph count as marked. At most `size` scopes are marked, so as many
steps and one more are enough.

* `search`: whether the search finds its target, and the scopes whose links it followed;
* `reaches`: whether a target can be reached.
-/

namespace ScopedLisp

/-- Searches on with the given stack, its top first, after having followed the links of the visited
scopes, which are the ones with a mark. -/
def search (links : ScopeId → List ScopeId) (target : ScopeId) :
    (steps : Nat) → (visited : List ScopeId) → (marks : Array Bool) → (stack : List ScopeId) →
      Bool × List ScopeId
  | 0, visited, _, _ => (false, visited)
  | steps + 1, visited, marks, stack =>
    match stack.dropWhile (marks.getD · true) with
    | [] => (false, visited)
    | s :: rest =>
      if s = target then (true, visited)
      else
        search links target steps (s :: visited) (marks.setIfInBounds s true)
          ((links s).reverse ++ rest)

/-- Whether a scope of the graph is one of the roots or can be reached from one. -/
def reaches (size : Nat) (links : ScopeId → List ScopeId) (roots : List ScopeId)
    (target : ScopeId) : Bool :=
  target < size && (search links target (size + 1) [] (Array.replicate size false) roots).1

end ScopedLisp
