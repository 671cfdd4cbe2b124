import ScopedLisp.Proofs.Moments

/-!
# The frame rule of evaluation

What the evaluation of a term leaves alone, in every store that a session comes to.

* `Store.Framed`: what evaluation in a scope may do to a store;
* `Store.Evolves.framed`: an evolution does no more than that;
* **`evaluate_framed`**: neither does evaluation, whether it gives a value, fails or is given up.
-/

namespace ScopedLisp

namespace Store

/-- The second store differs from the first one only by new scopes, by new bindings in one scope,
whose names are among `names` in their order, and by what the outermost scope around it retains:
further on also that scope itself and new ones. -/
structure Framed (scope : ScopeId) (names : List Symbol) (s t : Store) : Prop where
  outer : ∀ i < s.size, (t.frame i).outer = (s.frame i).outer
  bindings_of_ne : ∀ i < s.size, i ≠ scope → (t.frame i).bindings = (s.frame i).bindings
  bindings_scope : ∃ added, (t.frame scope).bindings = (s.frame scope).bindings ++ added ∧
    (added.map (·.1)).Sublist names
  retained_of_ne : ∀ i, i ≠ s.root scope → (t.frame i).retained = (s.frame i).retained
  retained_subset : (s.frame (s.root scope)).retained ⊆ (t.frame (s.root scope)).retained
  retained_cases : ∀ i ∈ (t.frame (s.root scope)).retained,
    i ∈ (s.frame (s.root scope)).retained ∨ i = scope ∨ s.size ≤ i ∧ i < t.size

/-- **An evolution does no more than the frame rule allows.** -/
theorem Evolves.framed {scope : Nat} {names : List Symbol} {s t : Store}
    (h : Evolves scope names s t) (hs : s.Sound) (hscope : scope < s.size) :
    Framed scope names s t := by
  have hothers : ∀ i < s.size, i ≠ scope → (t.frame i).bindings = (s.frame i).bindings :=
    fun i hi hne => h.bindings_of_ne hi hne
  obtain ⟨cs, hist, hwithin⟩ := h
  have hroot : s.root scope = 0 := hs.root_eq hscope
  refine ⟨fun i hi => hist.outer_eq hi, hothers, ⟨_, hist.bindings_eq hscope, hwithin.names⟩,
    ?_, ?_, ?_⟩
  · rw [hroot]
    intro i hi
    rw [hs.retained_ne i hi, (hist.sound hs).retained_ne i hi]
  · rw [hroot]
    exact fun i hi => hist.mem_retained_of_mem hs hi
  · rw [hroot]
    intro i hi
    rcases hist.mem_retained hs hi with hold | ⟨name, value, hmem⟩
    · exact .inl hold
    · have hlt := (hist.sound hs).retained_lt i hi
      exact .inr ((hwithin.scopes i name value hmem).imp_right fun hle => ⟨hle, hlt⟩)

end Store

/-- **The frame rule.** Evaluating a term that was read leaves alone all scopes but the one it is
evaluated in, which only gains bindings of names that the term sets; the outermost scope comes to
retain at most that scope and new ones. -/
theorem evaluate_framed {session : Session} (hsession : session.Fresh) {limit : Nat}
    {sources : List String} {m : Moment} (hm : session.Passes limit sources m) {scope : ScopeId}
    (hscope : scope < m.store.size) {source : String} {e : Term}
    (hparse : Term.parse source = .ok e) (levels : Nat) (held : Held) :
    m.store.Framed scope e.targets
      (Eval.storeAfter (evaluate levels held scope e) m.store) := by
  have hs := (hm.follows hsession.toSound).sound hsession.store
  have hyields := evaluateWith_yields Held.keepsAlive levels held hs hscope
    (Term.readable_of_parse hparse)
  exact hyields.storeAfter.framed hs hscope

/-- A closure is bound in the scope that an earlier call has left, which is then retained. -/
theorem evaluate_framed_left_scope :
    ∃ m e, Session.start.Passes 9 ["((fn (x) x) 1)"] m ∧ 1 < m.store.size ∧
      Term.parse "(let f (fn () x))" = .ok e ∧
      m.store.Framed 1 e.targets (Eval.storeAfter (evaluate 9 {} 1 e) m.store) ∧
      ((Eval.storeAfter (evaluate 9 {} 1 e) m.store).frame 0).retained = [1] := by
  have hm : Session.start.Passes 9 ["((fn (x) x) 1)"] _ := .later (.rests _ _)
  have hscope : 1 < (Session.start.eval 9 "((fn (x) x) 1)").2.store.size := by decide +kernel
  obtain ⟨e, he, hretained⟩ : ∃ e, Term.parse "(let f (fn () x))" = .ok e ∧
      ((Eval.storeAfter (evaluate 9 {} 1 e)
        (Session.start.eval 9 "((fn (x) x) 1)").2.store).frame 0).retained = [1] :=
    ⟨_, rfl, by decide +kernel⟩
  -- from here on nothing is evaluated again
  generalize (Session.start.eval 9 "((fn (x) x) 1)").2 = session at hm hscope hretained
  exact ⟨_, e, hm, hscope, he, evaluate_framed Session.start_fresh hm hscope he 9 {}, hretained⟩

end ScopedLisp
