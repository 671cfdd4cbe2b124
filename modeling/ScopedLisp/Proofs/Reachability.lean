import Mathlib.Data.List.Perm.Subperm
import Mathlib.Data.List.TakeWhile
import Mathlib.Logic.Relation
import ScopedLisp.Scope.Lifetime

/-!
# Reachability

The searches in a graph of scopes find exactly what can be reached.

* `Reachable`: there is a path from one of the roots;
* `search_fst_eq_true`: what a search finds can be reached;
* `Explored`: what a search without success leaves behind is closed under the links;
* `search_explored`: and a search has enough steps for that;
* **`reaches_iff`**: a search succeeds exactly for the scopes that can be reached;
* `Held.keepsAlive_iff`: a scope lives exactly when what is in use reaches it.
-/

namespace ScopedLisp

open Relation

/-- A scope is one of the roots, or a path of links leads to it from one. -/
def Reachable (links : ScopeId → List ScopeId) (roots : List ScopeId) (i : ScopeId) : Prop :=
  ∃ r ∈ roots, ReflTransGen (fun i j => j ∈ links i) r i

namespace Reachable

variable {links : ScopeId → List ScopeId} {roots more : List ScopeId} {i j : ScopeId}

theorem of_mem (h : i ∈ roots) : Reachable links roots i := ⟨i, h, .refl⟩

theorem tail (h : Reachable links roots i) (hj : j ∈ links i) : Reachable links roots j := by
  obtain ⟨r, hr, hpath⟩ := h
  exact ⟨r, hr, hpath.tail hj⟩

theorem mono (hsub : roots ⊆ more) (h : Reachable links roots i) : Reachable links more i := by
  obtain ⟨r, hr, hpath⟩ := h
  exact ⟨r, hsub hr, hpath⟩

theorem of_links_subset {links' : ScopeId → List ScopeId} (hsub : ∀ i, links i ⊆ links' i)
    (h : Reachable links roots i) : Reachable links' roots i := by
  obtain ⟨r, hr, hpath⟩ := h
  exact ⟨r, hr, hpath.lift id fun j _ hlink => hsub j hlink⟩

theorem append_iff :
    Reachable links (roots ++ more) i ↔ Reachable links roots i ∨ Reachable links more i := by
  simp only [Reachable, List.mem_append, or_and_right, exists_or]

end Reachable

/-! ## What a search finds -/

variable {size target : Nat} {links : ScopeId → List ScopeId}

theorem search_fst_eq_true {steps : Nat} {visited : List ScopeId} {marks : Array Bool}
    {stack : List ScopeId} (h : (search links target steps visited marks stack).1 = true) :
    Reachable links stack target := by
  induction steps generalizing visited marks stack with
  | zero => cases h
  | succ steps ih =>
    unfold search at h
    split at h
    · cases h
    · next s rest hdrop =>
      have hsuffix : s :: rest ⊆ stack := by
        rw [← hdrop]
        exact (List.dropWhile_suffix _).subset
      have hs : Reachable links stack s := .of_mem (hsuffix List.mem_cons_self)
      split_ifs at h with htarget
      · exact htarget ▸ hs
      · rcases Reachable.append_iff.1 (ih h) with ⟨r, hr, hpath⟩ | hrest
        · obtain ⟨p, hp, hps⟩ := hs.tail (List.mem_reverse.1 hr)
          exact ⟨p, hp, hps.trans hpath⟩
        · exact hrest.mono fun i hi => hsuffix (List.mem_cons_of_mem _ hi)

/-! ## What a search leaves behind -/

/-- The visited scopes are different scopes of the graph, and exactly they have a mark. -/
structure Visited (size : Nat) (visited : List ScopeId) (marks : Array Bool) : Prop where
  nodup : visited.Nodup
  lt : ∀ i ∈ visited, i < size
  marked_iff : ∀ i : Nat, marks.getD i true = true ↔ size ≤ i ∨ i ∈ visited

theorem mark_of_dropWhile {marks : Array Bool} {stack rest : List ScopeId} {i : ScopeId}
    (h : stack.dropWhile (marks.getD · true) = i :: rest) : marks.getD i true = false := by
  have hhead := List.head?_dropWhile_not (marks.getD · true) stack
  rwa [h] at hhead

namespace Visited

variable {visited : List ScopeId} {marks : Array Bool}

theorem nil (size : Nat) : Visited size [] (Array.replicate size false) := by
  refine ⟨List.nodup_nil, fun _ hi => (nomatch hi), fun i => ?_⟩
  by_cases hi : i < size
  · simp [hi]
  · simp [hi, Nat.le_of_not_lt hi]

theorem length_le (h : Visited size visited marks) : visited.length ≤ size := by
  have hsub : visited ⊆ List.range size := fun i hi => List.mem_range.2 (h.lt i hi)
  simpa using (List.subperm_of_subset h.nodup hsub).length_le

theorem cons (h : Visited size visited marks) {i : Nat} (hi : marks.getD i true = false) :
    i < size ∧ Visited size (i :: visited) (marks.setIfInBounds i true) := by
  have hnew : ¬ (size ≤ i ∨ i ∈ visited) := by
    rw [← h.marked_iff, hi]
    exact Bool.false_ne_true
  have hlt : i < size := by omega
  refine ⟨hlt, List.nodup_cons.2 ⟨fun hmem => hnew (.inr hmem), h.nodup⟩, fun j hj => ?_,
    fun j => ?_⟩
  · rcases List.mem_cons.1 hj with rfl | hj
    · exact hlt
    · exact h.lt j hj
  · have hget : (marks.setIfInBounds i true).getD j true =
        if i = j then true else marks.getD j true := by
      simp only [Array.getD_eq_getD_getElem?, Array.getElem?_setIfInBounds]
      split_ifs <;> rfl
    rw [hget, List.mem_cons]
    split_ifs with hij
    · simp [hij]
    · rw [h.marked_iff]
      simp [Ne.symm hij]

end Visited

/-- What a search without success leaves behind: the scopes it has visited, among them its roots and
all that those it has come to lead to, but not the target. -/
structure Explored (size target : Nat) (links : ScopeId → List ScopeId)
    (visited stack result : List ScopeId) : Prop where
  visited_subset : visited ⊆ result
  target_not_mem : target ∉ result
  stack_mem : ∀ i ∈ stack, i < size → i ∈ result
  links_mem : ∀ i ∈ result, i ∉ visited → ∀ j ∈ links i, j < size → j ∈ result

/-- **A search without success has explored all that it can reach**: each step visits another scope,
so `size` steps and one more are enough. -/
theorem search_explored {steps : Nat} {visited : List ScopeId} {marks : Array Bool}
    {stack : List ScopeId} (hv : Visited size visited marks) (htarget : target ∉ visited)
    (hsteps : size < visited.length + steps)
    (h : (search links target steps visited marks stack).1 = false) :
    Explored size target links visited stack
      (search links target steps visited marks stack).2 := by
  -- on the steps left: each of them visits another scope, so they do not run out
  induction steps generalizing visited marks stack with
  | zero =>
    have := hv.length_le
    omega
  | succ steps ih =>
    have hsplit := List.takeWhile_append_dropWhile (p := (marks.getD · true)) (l := stack)
    have hskip : ∀ i ∈ stack.takeWhile (marks.getD · true), i < size → i ∈ visited := by
      intro i hi hlt
      have hmark : marks.getD i true = true := List.mem_takeWhile_imp (p := (marks.getD · true)) hi
      exact ((hv.marked_iff i).1 hmark).resolve_left (Nat.not_le_of_lt hlt)
    unfold search at h ⊢
    cases hdrop : stack.dropWhile (marks.getD · true) with
    | nil =>
      rw [hdrop, List.append_nil] at hsplit
      rw [hsplit] at hskip
      exact ⟨List.Subset.refl _, htarget, hskip, fun i hi hni => absurd hi hni⟩
    | cons s rest =>
      rw [hdrop] at h hsplit
      dsimp only at h ⊢
      split_ifs at h ⊢ with hne
      obtain ⟨hlt, hv'⟩ := hv.cons (mark_of_dropWhile hdrop)
      have htarget' : target ∉ s :: visited := by simp [Ne.symm hne, htarget]
      have hexp := ih hv' htarget' (by rw [List.length_cons]; omega) h
      refine ⟨fun i hi => hexp.visited_subset (List.mem_cons_of_mem _ hi), hexp.target_not_mem,
        fun i hi hi' => ?_, fun i hi hni j hj hj' => ?_⟩
      · rw [← hsplit, List.mem_append, List.mem_cons] at hi
        rcases hi with hi | rfl | hi
        · exact hexp.visited_subset (List.mem_cons_of_mem _ (hskip i hi hi'))
        · exact hexp.visited_subset List.mem_cons_self
        · exact hexp.stack_mem i (List.mem_append_right _ hi) hi'
      · by_cases his : i = s
        · subst his
          exact hexp.stack_mem j (List.mem_append_left _ (List.mem_reverse.2 hj)) hj'
        · exact hexp.links_mem i hi (by simp [his, hni]) j hj hj'

/-! ## Exactness -/

/-- **A search succeeds exactly for the scopes of the graph that can be reached.** -/
theorem reaches_iff (hlinks : ∀ i : Nat, size ≤ i → links i = []) {roots : List ScopeId} :
    reaches size links roots target = true ↔ target < size ∧ Reachable links roots target := by
  unfold reaches
  rw [Bool.and_eq_true, decide_eq_true_iff]
  refine and_congr_right fun hlt => ⟨search_fst_eq_true, fun ⟨r, hr, hpath⟩ => ?_⟩
  by_contra hcon
  rw [Bool.not_eq_true] at hcon
  have hexp := search_explored (Visited.nil size) List.not_mem_nil (by simp) hcon
  -- a scope outside of the graph leads nowhere, so there is none on the way
  have hinside : ∀ i, ReflTransGen (fun i j => j ∈ links i) i target → i < size := by
    intro i hpath
    rcases hpath.cases_head with rfl | ⟨j, hij, -⟩
    · exact hlt
    · by_contra hout
      rw [hlinks i (Nat.le_of_not_lt hout)] at hij
      cases hij
  -- and a path that starts among the visited scopes stays there
  have hstay : ∀ i, ReflTransGen (fun i j => j ∈ links i) i target →
      i ∈ (search links target (size + 1) [] (Array.replicate size false) roots).2 → False := by
    intro i hpath
    induction hpath using ReflTransGen.head_induction_on with
    | refl => exact hexp.target_not_mem
    | @head i j hij hjt ih =>
      exact fun hi => ih (hexp.links_mem i hi List.not_mem_nil j hij (hinside j hjt))
  exact hstay r hpath (hexp.stack_mem r hr (hinside r hpath))

/-! ## Scopes that live -/

namespace Store

variable {s : Store} {i r : ScopeId}

theorem links_eq_nil (h : s.size ≤ i) : s.links i = [] := by
  unfold links
  rw [frame_of_size_le h]
  rfl

theorem ownershipLinks_eq_nil (h : s.size ≤ i) : s.ownershipLinks i = [] := by
  unfold ownershipLinks
  rw [frame_of_size_le h]
  rfl

theorem reaches_of_mem_chainFrom {steps : Nat} (h : i ∈ s.chainFrom steps r) :
    ReflTransGen (fun i j => j ∈ s.links i) r i := by
  induction steps generalizing r with
  | zero => cases h
  | succ steps ih =>
    rw [chainFrom] at h
    rcases List.mem_cons.1 h with rfl | h
    · exact .refl
    · cases ho : (s.frame r).outer with
      | none => rw [ho] at h; cases h
      | some o =>
        rw [ho] at h
        exact .head (by simp [links, ho]) (ih h)

end Store

namespace Held

variable {h : Held} {s : Store} {i : ScopeId}

/-- The scopes that what is in use refers to. -/
def references (h : Held) : List ScopeId := h.scopes ++ h.values.flatMap Term.scopes

theorem mem_references_enter {scope : ScopeId} :
    i ∈ (h.enter scope).references ↔ i = scope ∨ i ∈ h.references := by
  simp [references, enter]

theorem mem_references_keepAll {values : List Term} :
    i ∈ (h.keepAll values).references ↔ (∃ v ∈ values, i ∈ v.scopes) ∨ i ∈ h.references := by
  simp only [references, keepAll, List.flatMap_append, List.mem_append, List.mem_flatMap]
  exact or_left_comm

/-- The scopes that are seen to live without a search are among those that can be reached. -/
theorem reachable_of_scopesNear (hnear : h.scopesNear s i = true) :
    Reachable s.links h.scopes i := by
  unfold scopesNear at hnear
  rw [Bool.or_eq_true, List.any_eq_true, List.any_eq_true] at hnear
  rcases hnear with ⟨r, hr, hchain⟩ | ⟨j, hj, hlink⟩
  · exact ⟨r, hr, Store.reaches_of_mem_chainFrom (List.contains_iff_mem.1 hchain)⟩
  · cases hhead : h.scopes.head? with
    | none => rw [hhead] at hj; cases hj
    | some r =>
      rw [hhead] at hj
      have hreach : Reachable s.links h.scopes j :=
        ⟨r, List.mem_of_mem_head? hhead, Store.reaches_of_mem_chainFrom hj⟩
      exact hreach.tail (List.contains_iff_mem.1 hlink)

theorem scopesReach_iff :
    h.scopesReach s i = true ↔ i < s.size ∧ Reachable s.links h.scopes i := by
  unfold scopesReach
  rw [Bool.or_eq_true, Bool.and_eq_true, decide_eq_true_iff,
    reaches_iff fun _ => Store.links_eq_nil]
  exact ⟨fun hor => hor.elim (fun hnear => ⟨hnear.1, reachable_of_scopesNear hnear.2⟩) id, .inr⟩

theorem valuesReach_iff :
    h.valuesReach s i = true ↔
      i < s.size ∧ Reachable s.links (h.values.flatMap Term.scopes) i :=
  reaches_iff fun _ => Store.links_eq_nil

/-- **A scope lives exactly when what is in use reaches it.** -/
theorem keepsAlive_iff :
    h.keepsAlive s i = true ↔ i < s.size ∧ Reachable s.links h.references i := by
  unfold keepsAlive references
  rw [Bool.or_eq_true, scopesReach_iff, valuesReach_iff, Reachable.append_iff, and_or_left]

end Held

end ScopedLisp
