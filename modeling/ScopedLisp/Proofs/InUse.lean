import ScopedLisp.Proofs.Access

/-!
# What is in use

An evaluation asks of what is in use only which scopes it reaches. Stores lose no links, so two
descriptions of what is in use that reach the same scopes, now and after all that is still to come,
lead to the same evaluation.

* `Store.Grows`: no scope loses a link;
* `Held.Alike`: the same scopes are reached, whatever becomes of the store;
* `Activation.growing`: no evaluation takes a link away;
* **`evaluate_impartial`**: evaluation asks for nothing else, in every store and for every term.
-/

namespace ScopedLisp

/-! ## Links -/

namespace Store

variable {s t u : Store} {scope : ScopeId}

/-- Every link of the one store is a link of the other. -/
def Grows (s t : Store) : Prop := ∀ i, s.links i ⊆ t.links i

theorem Grows.refl (s : Store) : s.Grows s := fun _ => List.Subset.refl _

theorem Grows.trans (h : s.Grows t) (h' : t.Grows u) : s.Grows u :=
  fun i => List.Subset.trans (h i) (h' i)

theorem grows_push (s : Store) (f : Frame) : s.Grows (s.push f) := by
  intro i j hj
  by_cases hi : i = s.size
  · rw [links_eq_nil (Nat.le_of_eq hi.symm)] at hj
    cases hj
  · rwa [links, frame_push_of_ne f hi]

theorem grows_modify {change : Frame → Frame}
    (h : ∀ f : Frame, (change f).outer = f.outer ∧ f.bindings ⊆ (change f).bindings ∧
      f.retained ⊆ (change f).retained) (s : Store) (scope : ScopeId) :
    s.Grows (s.modify scope change) := by
  intro i j hj
  by_cases hi : i = scope
  · subst hi
    by_cases hlt : i < s.size
    · obtain ⟨houter, hbindings, hretained⟩ := h (s.frame i)
      rw [mem_links_iff, frame_modify_self hlt, houter]
      rcases mem_links_iff.1 hj with ho | ⟨b, hb, hbj⟩ | hr
      · exact .inl ho
      · exact .inr (.inl ⟨b, hbindings hb, hbj⟩)
      · exact .inr (.inr (hretained hr))
    · rw [links_eq_nil (Nat.le_of_not_lt hlt)] at hj
      cases hj
  · rwa [links, frame_modify_of_ne hi]

theorem grows_bind (s : Store) (scope : ScopeId) (name : Symbol) (value : Term) :
    s.Grows (s.bind scope name value) := by
  have hextend : s.Grows (s.modify scope (·.extend name value)) := by
    refine grows_modify (fun f => ?_) s scope
    exact ⟨rfl, List.subset_append_left _ _, List.Subset.refl _⟩
  have hretain : ∀ t : Store, t.Grows (t.retain scope) := by
    intro t
    unfold retain
    dsimp only
    split_ifs
    · exact .refl t
    · refine grows_modify (fun f => ?_) t _
      exact ⟨rfl, List.Subset.refl _, fun j hj => Frame.mem_insertScope.2 (.inr hj)⟩
  unfold bind
  dsimp only
  split_ifs
  · exact hextend.trans (hretain _)
  · exact hextend

end Store

/-! ## The same scopes in use -/

theorem Reachable.of_roots {links : ScopeId → List ScopeId} {roots more : List ScopeId}
    {i : ScopeId} (hroots : ∀ r ∈ roots, Reachable links more r) (h : Reachable links roots i) :
    Reachable links more i := by
  obtain ⟨r, hr, hpath⟩ := h
  obtain ⟨r', hr', hpath'⟩ := hroots r hr
  exact ⟨r', hr', hpath'.trans hpath⟩

namespace Held

variable {h h' : Held} {s t : Store} {links : ScopeId → List ScopeId} {i : ScopeId}

/-- Whatever becomes of the store, the same scopes are reached. -/
def Alike (s : Store) (h h' : Held) : Prop :=
  ∀ t, s.Grows t → ∀ i, Reachable t.links h.references i ↔ Reachable t.links h'.references i

theorem mem_references_keep {value : Term} :
    i ∈ (h.keep value).references ↔ i ∈ value.scopes ∨ i ∈ h.references := by
  show i ∈ (h.keepAll [value]).references ↔ _
  simp [mem_references_keepAll]

theorem mem_references_last {last : Option Term} :
    i ∈ (last.elim h h.keep).references ↔ (∃ v ∈ last, i ∈ v.scopes) ∨ i ∈ h.references := by
  cases last with
  | none => simp
  | some v => simp [mem_references_keep]

theorem reachable_enter {scope : ScopeId} :
    Reachable links (h.enter scope).references i ↔
      Reachable links [scope] i ∨ Reachable links h.references i := by
  show Reachable links ([scope] ++ h.references) i ↔ _
  exact Reachable.append_iff

theorem reachable_keepAll {values : List Term} :
    Reachable links (h.keepAll values).references i ↔
      Reachable links (values.flatMap Term.scopes) i ∨ Reachable links h.references i := by
  rw [← Reachable.append_iff]
  have hmem : ∀ j, j ∈ (h.keepAll values).references ↔
      j ∈ values.flatMap Term.scopes ++ h.references := by
    intro j
    rw [mem_references_keepAll, List.mem_append, List.mem_flatMap]
  exact ⟨.mono fun j => (hmem j).1, .mono fun j => (hmem j).2⟩

theorem Alike.mono (hh : Alike s h h') (hst : s.Grows t) : Alike t h h' :=
  fun u htu => hh u (hst.trans htu)

theorem Alike.enter (hh : Alike s h h') (scope : ScopeId) :
    Alike s (h.enter scope) (h'.enter scope) := by
  intro t hst i
  rw [reachable_enter, reachable_enter, hh t hst i]

theorem Alike.keepAll (hh : Alike s h h') (values : List Term) :
    Alike s (h.keepAll values) (h'.keepAll values) := by
  intro t hst i
  rw [reachable_keepAll, reachable_keepAll, hh t hst i]

theorem Alike.keepsAlive (hh : Alike s h h') (i : ScopeId) :
    h.keepsAlive s i = h'.keepsAlive s i := by
  rw [Bool.eq_iff_iff, keepsAlive_iff, keepsAlive_iff, hh s (.refl s) i]

end Held

/-! ## Evaluation -/

namespace Activation

/-- **The steps of an evaluation lose no links.** -/
theorem growing (alive : Liveness) (s : Store) : Invariant alive (s.Grows ·.store)
    (fun _ p => s.Grows p.store) fun _ => Leaves s.Grows fun _ _ => True where
  begins ha := opened_of_push ha (ha.trans (Store.grows_push _ _))
  part _ _ hp hstart := hstart.store ▸ hp
  gives _ _ _ _ hb := hb.1
  faults _ _ _ _ hb := hb
  body := by
    rintro a b p fn - - hp ⟨-, -, -, -⟩
    exact hp.trans (p.store.grows_push _)
  ends _ _ _ _ hb := hb
  raises _ _ _ hp := hp
  returns := by
    intro a p v t _ _ hp hreturns _
    refine ⟨?_, trivial⟩
    cases hreturns with
    | atom | found | builtin | last | made => exact hp
    | bound | defined => exact hp.trans (p.store.grows_bind _ _ _)

end Activation

/-- **Evaluation asks only which scopes are reached**: two descriptions of what is in use that reach
the same ones, now and later, give the same value or the same fault, and the same store. -/
theorem evaluate_impartial (limit : Nat) {held held' : Held} {scope : ScopeId} (e : Term)
    {s : Store} (hh : Held.Alike s (held.enter scope) (held'.enter scope)) :
    evaluate limit held scope e s = evaluate limit held' scope e s := by
  induction limit generalizing held held' scope e s with
  | zero => rfl
  | succ n ih =>
    have hgrowing := Activation.growing Held.keepsAlive s
    have hbegin : s.Grows (Activation.mk (n + 1) held scope e s).store := .refl s
    refine (Activation.run_congr_of_starts (a := ⟨n + 1, held, scope, e, s⟩) rfl ?_ ?_).symm
    · intro b values hb hheld
      obtain rfl : n = b.limit := Nat.succ.inj hb.limit_eq
      have hgrows := hgrowing.starts hbegin hb
      rw [Activation.run, hheld]
      exact (ih b.term (((hh.mono hgrows).keepAll values).enter b.scope)).symm
    · intro m values o hasks hheld
      obtain ⟨name, params, body, args, hreaches, -⟩ := hasks.reaches
      have hgrows := hgrowing.reaches hbegin hreaches
      rw [hheld]
      exact (((hh.mono hgrows).keepAll values).keepsAlive o).symm

end ScopedLisp
