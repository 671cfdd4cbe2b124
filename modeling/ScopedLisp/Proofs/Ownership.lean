import ScopedLisp.Proofs.Retention

/-!
# Ownership

Whether a closure leads back to a scope is decided by a search, which pops scopes from the end of a
list of pending ones. A scope can stand in that list more than once, and the graph can have cycles.

* `SearchStep`, `SearchAnswer`: the steps of a search, with no bound on their number, and the
  answers it can end with;
* `SearchStep.wellFounded`, `SearchAnswer.unique`: no search goes on forever, and each has one
  answer;
* `search_answer`: the bounded search gives the answer that the steps lead to;
* **`Store.owns_exact`**: the search for a scope that a closure leads back to ends, reads the links
  of each scope at most once, and is exact.
-/

namespace ScopedLisp

open Relation

/-! ## The steps of a search -/

/-- The scopes to go to, and those whose links were read. -/
structure SearchState where
  pending : List ScopeId
  visited : List ScopeId

/-- A step of a search: the last pending scope is popped, and it is not the target. It is skipped if
it was visited or is none of the graph; else its links become pending. -/
inductive SearchStep (size target : Nat) (links : ScopeId → List ScopeId) :
    SearchState → SearchState → Prop
  | skip {st : SearchState} {i : Nat} (hpop : st.pending.getLast? = some i) (hne : i ≠ target)
      (hi : size ≤ i ∨ i ∈ st.visited) :
      SearchStep size target links st ⟨st.pending.dropLast, st.visited⟩
  | visit {st : SearchState} {i : Nat} (hpop : st.pending.getLast? = some i) (hne : i ≠ target)
      (hi : i < size) (hnew : i ∉ st.visited) :
      SearchStep size target links st ⟨st.pending.dropLast ++ links i, i :: st.visited⟩

/-- The end of a search: its answer, and all scopes whose links were read. -/
inductive SearchAnswer (target : Nat) : SearchState → Bool × List ScopeId → Prop
  | found {st : SearchState} (hpop : st.pending.getLast? = some target) :
      SearchAnswer target st (true, st.visited)
  | exhausted {st : SearchState} (hempty : st.pending = []) :
      SearchAnswer target st (false, st.visited)

variable {size target : Nat} {links : ScopeId → List ScopeId}

/-- The scopes of the graph that are not among the visited ones. -/
def unvisited (size : Nat) (visited : List ScopeId) : Finset Nat :=
  {i ∈ Finset.range size | i ∉ visited}

theorem card_unvisited_cons_lt {i : Nat} {visited : List ScopeId} (hi : i < size)
    (hnew : i ∉ visited) :
    (unvisited size (i :: visited)).card < (unvisited size visited).card := by
  refine Finset.card_lt_card ((Finset.ssubset_iff_of_subset fun j hj => ?_).2 ⟨i, ?_, ?_⟩)
  · simp only [unvisited, Finset.mem_filter, List.mem_cons, not_or] at hj ⊢
    exact ⟨hj.1, hj.2.2⟩
  · simpa [unvisited, hi] using hnew
  · simp [unvisited]

/-- What is left to do in a search: the scopes to visit, and then the pending ones. -/
def SearchState.rank (size : Nat) (st : SearchState) : Nat × Nat :=
  ((unvisited size st.visited).card, st.pending.length)

namespace SearchStep

/-- **No search goes on forever**: a step visits a scope, or else makes the pending list shorter. -/
theorem wellFounded : WellFounded fun t s => SearchStep size target links s t := by
  have hlex := (inferInstance : WellFoundedRelation (Nat × Nat)).wf
  refine Subrelation.wf (fun {t s} hstep => ?_) (InvImage.wf (SearchState.rank size) hlex)
  cases hstep with
  | skip hpop =>
    refine Prod.Lex.right _ ?_
    have hpos : 0 < s.pending.length := List.length_pos_iff.2 fun hnil => by simp [hnil] at hpop
    show s.pending.dropLast.length < s.pending.length
    rw [List.length_dropLast]
    omega
  | visit hpop hne hi hnew => exact Prod.Lex.left _ _ (card_unvisited_cons_lt hi hnew)

theorem rightUnique : Relator.RightUnique (SearchStep size target links) := by
  intro st t t' h h'
  cases h with
  | skip hpop _ hi =>
    cases h' with
    | skip => rfl
    | visit hpop' _ hlt hnew =>
      cases hpop.symm.trans hpop'
      exact absurd hi (by simp [hlt, hnew])
  | visit hpop _ hlt hnew =>
    cases h' with
    | skip hpop' _ hi =>
      cases hpop.symm.trans hpop'
      exact absurd hi (by simp [hlt, hnew])
    | visit hpop' =>
      cases hpop.symm.trans hpop'
      rfl

theorem visited_nodup {st st' : SearchState}
    (h : ReflTransGen (SearchStep size target links) st st')
    (hst : st.visited.Nodup ∧ ∀ i ∈ st.visited, i < size) :
    st'.visited.Nodup ∧ ∀ i ∈ st'.visited, i < size := by
  induction h with
  | refl => exact hst
  | tail _ hstep ih =>
    cases hstep with
    | skip => exact ih
    | visit _ _ hi hnew =>
      exact ⟨List.nodup_cons.2 ⟨hnew, ih.1⟩, List.forall_mem_cons.2 ⟨hi, ih.2⟩⟩

theorem skips {visited : List ScopeId} {marks : Array Bool} (hv : Visited size visited marks)
    (hlt : target < size) (htarget : target ∉ visited) (stack : List ScopeId) :
    ReflTransGen (SearchStep size target links) ⟨stack.reverse, visited⟩
      ⟨(stack.dropWhile (marks.getD · true)).reverse, visited⟩ := by
  induction stack with
  | nil => exact .refl
  | cons i stack ih =>
    rw [List.dropWhile_cons]
    split_ifs with hi
    · have hmark := (hv.marked_iff i).1 hi
      have hne : i ≠ target := by
        rintro rfl
        exact hmark.elim (Nat.not_le_of_lt hlt) htarget
      have hskip : SearchStep size target links ⟨(i :: stack).reverse, visited⟩
          ⟨(i :: stack).reverse.dropLast, visited⟩ := .skip (by simp) hne hmark
      rw [List.dropLast_reverse] at hskip
      exact .head hskip ih
    · exact .refl

end SearchStep

namespace SearchAnswer

variable {st st' : SearchState} {answer answer' : Bool × List ScopeId}

theorem not_step (h : SearchAnswer target st answer) : ¬ SearchStep size target links st st' := by
  intro hstep
  obtain ⟨i, hpop, hne⟩ : ∃ i, st.pending.getLast? = some i ∧ i ≠ target := by
    cases hstep with
    | skip hpop hne => exact ⟨_, hpop, hne⟩
    | visit hpop hne => exact ⟨_, hpop, hne⟩
  cases h with
  | found hfound => exact hne (Option.some.inj (hpop.symm.trans hfound))
  | exhausted hempty => simp [hempty] at hpop

theorem of_reflTransGen (h : SearchAnswer target st answer) (h' : SearchAnswer target st' answer')
    (hrun : ReflTransGen (SearchStep size target links) st st') : answer = answer' := by
  rcases hrun.cases_head with rfl | ⟨next, hstep, -⟩
  · cases h with
    | found hpop =>
      cases h' with
      | found => rfl
      | exhausted hempty => simp [hempty] at hpop
    | exhausted hempty =>
      cases h' with
      | found hpop => simp [hempty] at hpop
      | exhausted => rfl
  · exact absurd hstep h.not_step

/-- **A search has one answer.** -/
theorem unique {start : SearchState} (h : SearchAnswer target st answer)
    (h' : SearchAnswer target st' answer')
    (hrun : ReflTransGen (SearchStep size target links) start st)
    (hrun' : ReflTransGen (SearchStep size target links) start st') : answer = answer' := by
  rcases ReflTransGen.total_of_right_unique SearchStep.rightUnique hrun hrun' with hon | hon
  · exact h.of_reflTransGen h' hon
  · exact (h'.of_reflTransGen h hon).symm

theorem snd_eq (h : SearchAnswer target st answer) : answer.2 = st.visited := by
  cases h <;> rfl

end SearchAnswer

/-- **The bounded search gives the answer that the steps lead to**, if it may take one step more
than there are scopes. -/
theorem search_answer {steps : Nat} {visited : List ScopeId} {marks : Array Bool}
    (hv : Visited size visited marks) (hlt : target < size) (htarget : target ∉ visited)
    (hsteps : size < visited.length + steps) (stack : List ScopeId) :
    ∃ st, ReflTransGen (SearchStep size target links) ⟨stack.reverse, visited⟩ st ∧
      SearchAnswer target st (search links target steps visited marks stack) := by
  induction steps generalizing visited marks stack with
  | zero =>
    have := hv.length_le
    omega
  | succ steps ih =>
    have hskips : ReflTransGen (SearchStep size target links) ⟨stack.reverse, visited⟩
        ⟨(stack.dropWhile (marks.getD · true)).reverse, visited⟩ :=
      SearchStep.skips hv hlt htarget stack
    unfold search
    cases hdrop : stack.dropWhile (marks.getD · true) with
    | nil =>
      rw [hdrop] at hskips
      exact ⟨_, hskips, .exhausted rfl⟩
    | cons i rest =>
      rw [hdrop] at hskips
      obtain ⟨hi, hv'⟩ := hv.cons (mark_of_dropWhile hdrop)
      have hnew : i ∉ visited := (List.nodup_cons.1 hv'.nodup).1
      have hpop : (i :: rest).reverse.getLast? = some i := by simp
      dsimp only
      split_ifs with hfound
      · subst hfound
        exact ⟨_, hskips, .found hpop⟩
      · have hvisit : SearchStep size target links ⟨(i :: rest).reverse, visited⟩
            ⟨(i :: rest).reverse.dropLast ++ links i, i :: visited⟩ := .visit hpop hfound hi hnew
        have hpushed : (i :: rest).reverse.dropLast ++ links i =
            ((links i).reverse ++ rest).reverse := by
          rw [List.dropLast_reverse, List.reverse_append, List.reverse_reverse]
          rfl
        rw [hpushed] at hvisit
        have hleft : size < (i :: visited).length + steps := by
          rw [List.length_cons]
          omega
        obtain ⟨st, hrun, hanswer⟩ := ih hv' (by simp [Ne.symm hfound, htarget]) hleft _
        exact ⟨st, hskips.trans (.head hvisit hrun), hanswer⟩

/-! ## Ownership -/

namespace Store

variable {s : Store} {scope start : Nat} {params : List Symbol} {body : Term}

theorem owns_closure_iff (hscope : scope < s.size) :
    s.owns scope (.closure params body start) = true ↔ ReflTransGen s.Keeps start scope := by
  have hlinks : (fun i j => j ∈ s.ownershipLinks i) = s.Keeps := by
    funext i j
    exact propext mem_ownershipLinks_iff
  change reaches s.size s.ownershipLinks [start] scope = true ↔ _
  rw [reaches_iff fun _ => ownershipLinks_eq_nil, Reachable, hlinks]
  simp [hscope]

theorem owns_iff (hscope : scope < s.size) (value : Term) :
    s.owns scope value = true ↔
      ∃ params body start, value = .closure params body start ∧
        ReflTransGen s.Keeps start scope := by
  cases value with
  | closure params body start =>
    rw [owns_closure_iff hscope]
    constructor
    · exact fun h => ⟨params, body, start, rfl, h⟩
    · rintro ⟨_, _, _, ⟨⟩, h⟩
      exact h
  | _ => exact iff_of_false Bool.false_ne_true (by rintro ⟨_, _, _, ⟨⟩, -⟩)

theorem owns_closure_eq (hscope : scope < s.size) :
    s.owns scope (.closure params body start) =
      (search s.ownershipLinks scope (s.size + 1) [] (Array.replicate s.size false) [start]).1 := by
  change reaches s.size s.ownershipLinks [start] scope = _
  rw [reaches, decide_eq_true hscope, Bool.true_and]

/-- **The ownership search is exact and always ends.** It succeeds for the closures from whose scope
the given one is reached, and for no other value, and it reads the links of each scope at most once.
-/
theorem owns_exact (hscope : scope < s.size) (value : Term) :
    (s.owns scope value = true ↔
      ∃ params body start, value = .closure params body start ∧
        ReflTransGen s.Keeps start scope) ∧
    (WellFounded fun t st => SearchStep s.size scope s.ownershipLinks st t) ∧
    ∀ params body start, value = .closure params body start →
      (∃ st answer, ReflTransGen (SearchStep s.size scope s.ownershipLinks) ⟨[start], []⟩ st ∧
        SearchAnswer scope st answer) ∧
      ∀ st answer, ReflTransGen (SearchStep s.size scope s.ownershipLinks) ⟨[start], []⟩ st →
        SearchAnswer scope st answer →
        answer.1 = s.owns scope value ∧ answer.2.Nodup ∧ ∀ i ∈ answer.2, i < s.size := by
  refine ⟨owns_iff hscope value, SearchStep.wellFounded, ?_⟩
  rintro params body start rfl
  have hsteps : s.size < ([] : List ScopeId).length + (s.size + 1) :=
    Nat.lt_add_left _ (Nat.lt_succ_self _)
  obtain ⟨st, hrun, hanswer⟩ :
      ∃ st, ReflTransGen (SearchStep s.size scope s.ownershipLinks) ⟨[start], []⟩ st ∧
        SearchAnswer scope st
          (search s.ownershipLinks scope (s.size + 1) [] (Array.replicate s.size false) [start]) :=
    search_answer (Visited.nil s.size) hscope List.not_mem_nil hsteps [start]
  refine ⟨⟨st, _, hrun, hanswer⟩, fun st' answer' hrun' hanswer' => ⟨?_, ?_⟩⟩
  · rw [owns_closure_eq hscope, hanswer.unique hanswer' hrun hrun']
  · rw [hanswer'.snd_eq]
    exact SearchStep.visited_nodup hrun' ⟨List.nodup_nil, by simp⟩

/-- Two scopes that keep each other lead to the outermost one, but neither to a scope that this one
retains nor to one that a named function refers to. -/
theorem owns_exact_cycle :
    ∃ s : Store, s.Keeps 1 2 ∧ s.Keeps 2 1 ∧ 3 ∈ (s.frame 0).retained ∧
      s.owns 0 (.closure [] (.bool true) 2) = true ∧ ¬ ReflTransGen s.Keeps 2 3 ∧
      ∃ st visited, ReflTransGen (SearchStep s.size 3 s.ownershipLinks) ⟨[2], []⟩ st ∧
        SearchAnswer 3 st (false, visited) ∧ visited.Nodup := by
  let loop : Term := .closure [] (.bool true) 2
  let away : Term := .named Builtin.sub.symbol [] (.bool true) 3
  let s : Store := ⟨#[{ retained := [3] },
    { bindings := [(Builtin.add.symbol, loop)], outer := some 0 },
    { bindings := [(Builtin.sub.symbol, away)], outer := some 1 }, { outer := some 0 }]⟩
  have hforth : s.Keeps 1 2 := .closure (List.mem_singleton.2 rfl)
  have hback : s.Keeps 2 1 := .outer rfl
  have hfalse : s.owns 3 loop = false := by decide +kernel
  have hthree : 3 < s.size := by decide
  obtain ⟨hiff, -, hsearch⟩ := owns_exact hthree loop
  obtain ⟨⟨st, answer, hrun, hanswer⟩, hall⟩ := hsearch [] (.bool true) 2 rfl
  obtain ⟨heq, hnodup, -⟩ := hall st answer hrun hanswer
  refine ⟨s, hforth, hback, List.mem_singleton.2 rfl, ?_, fun hpath => ?_, st, answer.2, hrun, ?_,
    hnodup⟩
  · have hroot : s.Keeps 1 0 := .outer rfl
    exact (owns_exact (by decide) loop).1.2 ⟨_, _, _, rfl, .head hback (.single hroot)⟩
  · rw [hiff.2 ⟨_, _, _, rfl, hpath⟩] at hfalse
    cases hfalse
  · rwa [← hfalse, ← heq]

end Store

end ScopedLisp
