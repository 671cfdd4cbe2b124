import Mathlib.Data.Finset.Card
import Mathlib.Order.WellFoundedSet
import ScopedLisp.Proofs.Moments
import ScopedLisp.Proofs.Reachability

/-!
# Counting references

Scopes that nothing refers to can be discarded one by one. What this leaves could be more than what
can be reached, because scopes on a cycle refer to one another. In a session it never is: every
cycle goes through a scope that the outermost one retains, or that is in use.

* `Discards`, `Remains`: the discarding of scopes without references, and its results;
* `AcyclicOff`: every cycle goes through one of the given scopes;
* `exists_remains`, `Remains.mem_iff`: if those can be reached, then discarding leaves what can be
  reached;
* `Store.Anchored`: every cycle of a store goes through the outermost scope or one it retains;
* `Store.Anchored.apply`: every change keeps that;
* **`keepsAlive_iff_remains`**: at every moment of a session, counting references leaves exactly
  what can be reached, which is what lives; and by counting a session comes to the same results.
-/

namespace ScopedLisp

open Relation

/-! ## Discarding -/

variable {size : Nat} {links : ScopeId → List ScopeId} {roots : List ScopeId}

/-- A scope is discarded to which neither a root nor a remaining scope refers. -/
inductive Discards (links : ScopeId → List ScopeId) (roots : List ScopeId) :
    Finset ScopeId → Finset ScopeId → Prop
  | erase {live : Finset ScopeId} {i : ScopeId} (hi : i ∈ live) (hroots : i ∉ roots)
      (hlinks : ∀ j ∈ live, i ∉ links j) : Discards links roots live (live.erase i)

/-- The scopes that remain of the first `size` ones when no more can be discarded. -/
structure Remains (size : Nat) (links : ScopeId → List ScopeId) (roots : List ScopeId)
    (live : Finset ScopeId) : Prop where
  discarded : ReflTransGen (Discards links roots) (Finset.range size) live
  final : ∀ rest, ¬ Discards links roots live rest

/-- Every cycle goes through one of the given scopes. -/
def AcyclicOff (links : ScopeId → List ScopeId) (anchors : ScopeId → Prop) : Prop :=
  ∀ i, ¬ TransGen (fun i j => ¬ anchors i ∧ j ∈ links i) i i

theorem AcyclicOff.mono {links' : ScopeId → List ScopeId} {anchors anchors' : ScopeId → Prop}
    (h : AcyclicOff links anchors)
    (hsub : ∀ i, ¬ anchors' i → ¬ anchors i ∧ links' i ⊆ links i) : AcyclicOff links' anchors' :=
  fun i hcycle => h i (TransGen.mono (fun j _ ⟨hj, hk⟩ => ⟨(hsub j hj).1, (hsub j hj).2 hk⟩)
    i i hcycle)

theorem AcyclicOff.of_source {links' : ScopeId → List ScopeId} {anchors : ScopeId → Prop}
    (h : AcyclicOff links anchors) {n : ScopeId} (hn : ∀ i, n ∉ links' i)
    (hsame : ∀ i, i ≠ n → links' i = links i) : AcyclicOff links' anchors := by
  intro i hcycle
  have hpath : ∀ j k, TransGen (fun i j => ¬ anchors i ∧ j ∈ links' i) j k → j ≠ n →
      k ≠ n ∧ TransGen (fun i j => ¬ anchors i ∧ j ∈ links i) j k := by
    intro j k hjk hj
    induction hjk with
    | single hedge =>
      rw [hsame j hj] at hedge
      exact ⟨fun heq => hn j (heq ▸ hsame j hj ▸ hedge.2), .single hedge⟩
    | @tail k l _ hedge ih =>
      have hl : l ≠ n := fun heq => hn k (heq ▸ hedge.2)
      rw [hsame k ih.1] at hedge
      exact ⟨hl, ih.2.tail hedge⟩
  obtain ⟨j, -, hedge⟩ := TransGen.tail'_iff.1 hcycle
  exact h i (hpath i i hcycle fun heq => hn j (heq ▸ hedge.2)).2

theorem AcyclicOff.of_link {links' : ScopeId → List ScopeId} {anchors : ScopeId → Prop}
    (h : AcyclicOff links anchors) {a c : ScopeId}
    (hlinks : ∀ i j, j ∈ links' i ↔ j ∈ links i ∨ i = a ∧ j = c)
    (hback : ¬ ReflTransGen (fun i j => j ∈ links' i) c a) : AcyclicOff links' anchors := by
  -- a path either does without the new link, or comes to `a` and goes on from `c`
  have hpath : ∀ i j, TransGen (fun i j => ¬ anchors i ∧ j ∈ links' i) i j →
      TransGen (fun i j => ¬ anchors i ∧ j ∈ links i) i j ∨
        ReflTransGen (fun i j => j ∈ links' i) i a ∧
          ReflTransGen (fun i j => j ∈ links' i) c j := by
    intro i j hij
    induction hij with
    | single hedge =>
      rcases (hlinks _ _).1 hedge.2 with hold | ⟨rfl, rfl⟩
      · exact .inl (.single ⟨hedge.1, hold⟩)
      · exact .inr ⟨.refl, .refl⟩
    | @tail j k hij hedge ih =>
      rcases ih with hold | ⟨hia, hcj⟩
      · rcases (hlinks _ _).1 hedge.2 with hjk | ⟨rfl, rfl⟩
        · exact .inl (hold.tail ⟨hedge.1, hjk⟩)
        · exact .inr ⟨ReflTransGen.mono (fun _ _ h => h.2) _ _ hij.to_reflTransGen, .refl⟩
      · exact .inr ⟨hia, hcj.tail hedge.2⟩
  intro i hcycle
  rcases hpath i i hcycle with hold | ⟨hia, hci⟩
  · exact h i hold
  · exact hback (hci.trans hia)

theorem Discards.card_lt {live rest : Finset ScopeId} (h : Discards links roots live rest) :
    rest.card < live.card := by
  cases h with
  | erase hi _ _ => exact Finset.card_erase_lt_of_mem hi

theorem exists_remains (size : Nat) (links : ScopeId → List ScopeId) (roots : List ScopeId) :
    ∃ live, Remains size links roots live := by
  have hend : ∀ (n : Nat) (live : Finset ScopeId), live.card = n →
      ReflTransGen (Discards links roots) (Finset.range size) live →
      ∃ live, Remains size links roots live := by
    -- each discarded scope leaves one less
    intro n
    induction n using Nat.strong_induction_on with
    | _ n ih =>
    intro live hcard hpath
    by_cases hfinal : ∃ rest, Discards links roots live rest
    · obtain ⟨rest, hrest⟩ := hfinal
      exact ih rest.card (hcard ▸ hrest.card_lt) rest rfl (hpath.tail hrest)
    · exact ⟨live, hpath, fun rest hrest => hfinal ⟨rest, hrest⟩⟩
  exact hend _ (Finset.range size) rfl .refl

theorem mem_of_reachable {live : Finset ScopeId}
    (h : ReflTransGen (Discards links roots) (Finset.range size) live)
    (hlinks : ∀ i : Nat, size ≤ i → links i = []) {i : Nat} (hi : i < size)
    (hreach : Reachable links roots i) : i ∈ live := by
  induction h generalizing i with
  | refl => exact Finset.mem_range.2 hi
  | @tail live rest _ hstep ih =>
    cases hstep with
    | @erase j hj hroots hnone =>
      -- a scope that can be reached is a root, or one that can be reached refers to it
      refine Finset.mem_erase.2 ⟨?_, ih hi hreach⟩
      rintro rfl
      obtain ⟨r, hr, hpath⟩ := hreach
      rcases hpath.cases_tail with heq | ⟨k, hk, hki⟩
      · exact hroots (heq ▸ hr)
      · have hlt : k < size := by
          by_contra hge
          rw [hlinks k (Nat.le_of_not_lt hge)] at hki
          cases hki
        exact hnone k (ih hlt ⟨r, hr, hk⟩) hki

theorem subset_range_of_discards {live : Finset ScopeId}
    (h : ReflTransGen (Discards links roots) (Finset.range size) live) :
    live ⊆ Finset.range size := by
  induction h with
  | refl => exact Finset.Subset.refl _
  | tail _ hstep ih =>
    cases hstep with
    | erase _ _ _ => exact (Finset.erase_subset _ _).trans ih

/-- **If every cycle goes through a scope that can be reached, then what remains can be reached.** A
scope that remains out of reach has another one referring to it, and so on without end. -/
theorem Remains.reachable {anchors : ScopeId → Prop} {live : Finset ScopeId}
    (h : Remains size links roots live) (hacyclic : AcyclicOff links anchors)
    (hanchors : ∀ i, anchors i → Reachable links roots i) {i : ScopeId} (hi : i ∈ live) :
    Reachable links roots i := by
  by_contra hout
  let loose : ScopeId → ScopeId → Prop := TransGen fun i j => ¬ anchors i ∧ j ∈ links i
  have : IsStrictOrder ScopeId loose :=
    { irrefl := hacyclic, trans := fun _ _ _ => TransGen.trans }
  have hwf : {i | i ∈ live ∧ ¬ Reachable links roots i}.WellFoundedOn loose :=
    (live.finite_toSet.subset fun i hi => hi.1).wellFoundedOn
  refine hwf.induction ⟨hi, hout⟩ (P := fun _ => False) fun j ⟨hj, hjout⟩ ih => ?_
  have hroots : j ∉ roots := fun hmem => hjout (.of_mem hmem)
  obtain ⟨k, hk, hkj⟩ : ∃ k ∈ live, j ∈ links k := by
    by_contra hnone
    push Not at hnone
    exact h.final _ (.erase hj hroots hnone)
  have hkout : ¬ Reachable links roots k := fun hreach => hjout (hreach.tail hkj)
  exact ih k ⟨hk, hkout⟩ (.single ⟨fun hanchor => hkout (hanchors k hanchor), hkj⟩)

/-- **Discarding leaves exactly what can be reached**, in whatever order it is done, if every cycle
goes through a scope that can be reached. -/
theorem Remains.mem_iff {anchors : ScopeId → Prop} {live : Finset ScopeId}
    (h : Remains size links roots live) (hlinks : ∀ i : Nat, size ≤ i → links i = [])
    (hacyclic : AcyclicOff links anchors)
    (hanchors : ∀ i, anchors i → Reachable links roots i) (i : ScopeId) :
    i ∈ live ↔ i < size ∧ Reachable links roots i := by
  refine ⟨fun hi => ⟨?_, h.reachable hacyclic hanchors hi⟩, fun ⟨hlt, hreach⟩ =>
    mem_of_reachable h.discarded hlinks hlt hreach⟩
  exact Finset.mem_range.1 (subset_range_of_discards h.discarded hi)

/-! ## Cycles in stores -/

namespace Store

/-- The outermost scope, and the scopes that it retains. -/
def IsAnchor (s : Store) (i : ScopeId) : Prop := i = 0 ∨ i ∈ (s.frame 0).retained

/-- Every cycle of scopes that lie in one another or are kept by closures goes through the outermost
scope or one that it retains. -/
def Anchored (s : Store) : Prop := AcyclicOff s.ownershipLinks s.IsAnchor

variable {s : Store} {scope i j : Nat} {name : Symbol} {value : Term}

theorem mem_ownershipLinks_lt (hs : s.Sound) (hj : j ∈ s.ownershipLinks i) : j < s.size := by
  unfold ownershipLinks Frame.closureScopes at hj
  rw [List.mem_append, Option.mem_toList, List.mem_filterMap] at hj
  rcases hj with ho | ⟨b, hb, hscope⟩
  · have := hs.outer_some ho
    omega
  · exact (hs.values i b hb).closureScope_lt hscope

theorem ownershipLinks_push_of_ne (f : Frame) (hi : i ≠ s.size) :
    (s.push f).ownershipLinks i = s.ownershipLinks i := by
  unfold ownershipLinks
  rw [frame_push_of_ne f hi]

theorem ownershipLinks_extend (hscope : scope < s.size) :
    (s.modify scope (·.extend name value)).ownershipLinks i =
      s.ownershipLinks i ++ if i = scope then value.closureScope?.toList else [] := by
  unfold ownershipLinks Frame.closureScopes
  rw [outer_extend, bindings_extend hscope, List.filterMap_append, List.append_assoc]
  split_ifs
  · rw [List.filterMap_cons]
    cases value.closureScope? <;> rfl
  · rfl

theorem ownershipLinks_bind :
    (s.bind scope name value).ownershipLinks i =
      (s.modify scope (·.extend name value)).ownershipLinks i :=
  apply_frame_bind (fun f => f.outer.toList ++ f.closureScopes) fun _ _ => rfl

theorem Anchored.push (h : s.Anchored) (hs : s.Sound) {f : Frame}
    (hf : (Change.made f).Allowed s) : (s.push f).Anchored := by
  obtain ⟨⟨o, ho, hlt⟩, -, hval⟩ := hf
  have hzero : (s.push f).frame 0 = s.frame 0 := frame_push_of_ne f (by have := hs.nonempty; omega)
  have hanchor : (s.push f).IsAnchor = s.IsAnchor := by
    unfold IsAnchor
    rw [hzero]
  unfold Anchored
  rw [hanchor]
  refine h.of_source (n := s.size) (fun i hi => ?_) fun i => ownershipLinks_push_of_ne f
  by_cases heq : i = s.size
  · subst heq
    unfold ownershipLinks Frame.closureScopes at hi
    rw [frame_push_self, ho, List.mem_append, List.mem_filterMap] at hi
    rcases hi with hi | ⟨b, hb, hscope⟩
    · exact Nat.ne_of_gt hlt (List.mem_singleton.1 hi)
    · exact Nat.lt_irrefl _ ((hval b hb).closureScope_lt hscope)
  · rw [ownershipLinks_push_of_ne f heq] at hi
    exact Nat.lt_irrefl _ (mem_ownershipLinks_lt hs hi)

theorem IsAnchor.bind (hs : s.Sound) (hscope : scope < s.size) (hval : value.IsValue s.size)
    (h : s.IsAnchor i) : (s.bind scope name value).IsAnchor i :=
  h.imp_right fun hmem => hs.mem_retained_bind hscope hval hmem

theorem isAnchor_bind_of_owns (hs : s.Sound) (hscope : scope < s.size)
    (hval : value.IsValue s.size)
    (howns : (s.modify scope (·.extend name value)).owns scope value = true) :
    (s.bind scope name value).IsAnchor scope := by
  by_cases h0 : scope = 0
  · exact .inl h0
  · refine .inr ?_
    rw [hs.retained_bind hscope hval, if_pos ⟨rfl, h0, howns⟩]
    exact Frame.mem_insertScope.2 (.inl rfl)

theorem Anchored.extend (h : s.Anchored) (hscope : scope < s.size) {anchors : ScopeId → Prop}
    (hanchors : ∀ i, s.IsAnchor i → anchors i) (hself : anchors scope) :
    AcyclicOff (s.modify scope (·.extend name value)).ownershipLinks anchors := by
  refine AcyclicOff.mono h fun i hi => ⟨fun hanchor => hi (hanchors i hanchor), ?_⟩
  have hne : i ≠ scope := by
    rintro rfl
    exact hi hself
  rw [ownershipLinks_extend hscope, if_neg hne, List.append_nil]
  exact List.Subset.refl _

theorem Anchored.extend_of_not_owns (h : s.Anchored) (hscope : scope < s.size)
    (howns : (s.modify scope (·.extend name value)).owns scope value ≠ true) :
    AcyclicOff (s.modify scope (·.extend name value)).ownershipLinks s.IsAnchor := by
  unfold owns at howns
  cases hc : value.closureScope? with
  | none =>
    refine AcyclicOff.mono h fun i hi => ⟨hi, ?_⟩
    rw [ownershipLinks_extend hscope, hc]
    simp
  | some c =>
    simp only [hc] at howns
    refine AcyclicOff.of_link h (a := scope) (c := c) (fun i j => ?_) fun hback => howns ?_
    · rw [ownershipLinks_extend hscope, hc, List.mem_append]
      split_ifs with hi <;> simp [hi]
    · -- the search is exact, so it would have found the way back
      rw [reaches_iff fun _ => ownershipLinks_eq_nil]
      exact ⟨by simpa using hscope, c, List.mem_singleton.2 rfl, hback⟩

/-- **A definition adds no cycle without an anchor**: a closure that leads back to the scope makes
the scope one, and any other value closes no cycle. -/
theorem Anchored.bind (h : s.Anchored) (hs : s.Sound) (hscope : scope < s.size)
    (hval : value.IsValue s.size) : (s.bind scope name value).Anchored := by
  have hanchors : ∀ i, s.IsAnchor i → (s.bind scope name value).IsAnchor i :=
    fun i => IsAnchor.bind hs hscope hval
  have hlinks : (s.bind scope name value).ownershipLinks =
      (s.modify scope (·.extend name value)).ownershipLinks := by
    funext i
    exact ownershipLinks_bind
  unfold Anchored
  rw [hlinks]
  by_cases howns : (s.modify scope (·.extend name value)).owns scope value = true
  · exact h.extend hscope hanchors (isAnchor_bind_of_owns hs hscope hval howns)
  · exact (h.extend_of_not_owns hscope howns).mono fun i hi =>
      ⟨fun hanchor => hi (hanchors i hanchor), List.Subset.refl _⟩

/-- **What one change keeps.** -/
theorem Anchored.apply (h : s.Anchored) (hs : s.Sound) {c : Change} (hc : c.Allowed s) :
    (c.apply s).Anchored := by
  cases c with
  | made f => exact h.push hs hc
  | bound scope name value => exact h.bind hs hc.1 hc.2.2

/-- **What a history keeps.** -/
theorem Anchored.history {t : Store} {cs : List Change} (h : s.Anchored) (hs : s.Sound)
    (hist : s.History cs t) : t.Anchored :=
  hist.preserves (fun _ _ hs h hc => h.apply hs hc) hs h

/-! ## Counting in a session -/

/-- The scopes to which a scope holds a reference: the one around it, those of the closures bound in
it and, for the outermost one, those that it retains. -/
def strongLinks (s : Store) (root i : ScopeId) : List ScopeId :=
  (s.frame i).outer.toList ++ (s.frame i).closureScopes ++
    if i = root then (s.frame i).retained else []

theorem strongLinks_of_ne {root : ScopeId} (hi : i ≠ root) :
    s.strongLinks root i = s.ownershipLinks i := by
  rw [strongLinks, if_neg hi, List.append_nil, ownershipLinks]

theorem Sound.links_eq (hs : s.Sound) : s.links = s.strongLinks 0 := by
  funext i
  have hvalues : (s.frame i).valueScopes = (s.frame i).closureScopes := by
    rw [Frame.valueScopes, Frame.closureScopes, List.filterMap_eq_flatMap_toList]
    exact List.flatMap_congr fun b hb => (hs.values i b hb).scopes_eq
  unfold links strongLinks
  dsimp only
  rw [hvalues]
  split_ifs with hi
  · rfl
  · rw [hs.retained_ne i hi]

theorem Sound.mem_links_iff_owned (hs : s.Sound) :
    j ∈ s.links i ↔ j ∈ s.ownershipLinks i ∨ i = 0 ∧ j ∈ (s.frame 0).retained := by
  rw [hs.links_eq, strongLinks, List.mem_append]
  refine or_congr Iff.rfl ?_
  split_ifs with hi
  · simp [hi]
  · simp [hi]

end Store

theorem Session.Fresh.anchored {s : Session} (hs : s.Fresh) : s.store.Anchored := by
  intro i hcycle
  obtain ⟨j, ⟨hi, hij⟩, -⟩ := TransGen.head'_iff.1 hcycle
  have hpos : i ≠ 0 := fun h0 => hi (.inl h0)
  rw [Store.ownershipLinks_eq_nil (by rw [hs.size_eq]; exact Nat.pos_of_ne_zero hpos)] at hij
  cases hij

theorem Moment.Follows.acyclicOff {s : Store} {m : Moment} (h : m.Follows s) (hs : s.Sound)
    (hanchored : s.Anchored) :
    AcyclicOff m.store.ownershipLinks fun i => m.store.IsAnchor i ∨ i ∈ m.held.scopes := by
  obtain ⟨cs, t, hist, heq | ⟨scope, name, value, hmem, hallowed, heq⟩⟩ := h.store
  · rw [heq]
    exact (hanchored.history hs hist).mono fun i hi =>
      ⟨fun hanchor => hi (.inl hanchor), List.Subset.refl _⟩
  · rw [heq]
    refine (hanchored.history hs hist).extend hallowed.1 (fun i hi => .inl ?_) (.inr hmem)
    unfold Store.IsAnchor
    rwa [Store.retained_extend]

theorem Moment.Follows.remains_iff {session : Session} (hsession : session.Fresh) {m : Moment}
    (h : m.Follows session.store) {held : Held} (hheld : m.held.scopes ⊆ held.scopes)
    {live : Finset ScopeId}
    (hlive : Remains m.store.size (m.store.strongLinks session.root) held.references live)
    (i : ScopeId) :
    (i ∈ live ↔
      i < m.store.size ∧ Reachable (m.store.strongLinks session.root) held.references i) ∧
    (held.keepsAlive m.store i = true ↔ i ∈ live) := by
  have hs := h.sound hsession.store
  rw [hsession.root_eq] at hlive ⊢
  have hscopes : ∀ j ∈ m.held.scopes, Reachable (m.store.strongLinks 0) held.references j :=
    fun j hj => .of_mem (List.mem_append_left _ (hheld hj))
  have hacyclic : AcyclicOff (m.store.strongLinks 0) fun i =>
      m.store.IsAnchor i ∨ i ∈ m.held.scopes := by
    refine (h.acyclicOff hsession.store hsession.anchored).mono fun j hj => ⟨hj, ?_⟩
    rw [Store.strongLinks_of_ne fun h0 => hj (.inl (.inl h0))]
    exact List.Subset.refl _
  have hmem : i ∈ live ↔ i < m.store.size ∧
      Reachable (m.store.strongLinks 0) held.references i := by
    refine hlive.mem_iff (fun j hj => ?_) hacyclic (fun j hj => ?_) i
    · rw [← hs.links_eq]
      exact Store.links_eq_nil hj
    · rcases hj with (rfl | hretained) | hheld
      · exact hscopes 0 h.root_mem
      · refine (hscopes 0 h.root_mem).tail ?_
        rw [Store.strongLinks, if_pos rfl]
        exact List.mem_append_right _ hretained
      · exact hscopes j hheld
  refine ⟨hmem, ?_⟩
  rw [hmem, Held.keepsAlive_iff, hs.links_eq]

open Classical in
/-- The rule by which a scope lives when it remains after all discarding. -/
noncomputable def Held.remainsAlive (root : ScopeId) : Liveness := fun held s i =>
  decide (∃ live, Remains s.size (s.strongLinks root) held.references live ∧ i ∈ live)

open Classical in
theorem Held.remainsAlive_iff {root : ScopeId} {held : Held} {s : Store} {i : ScopeId} :
    remainsAlive root held s i = true ↔
      ∃ live, Remains s.size (s.strongLinks root) held.references live ∧ i ∈ live :=
  decide_eq_true_iff

theorem Moment.Follows.remainsAlive_eq {session : Session} (hsession : session.Fresh) {m : Moment}
    (h : m.Follows session.store) (i : ScopeId) :
    Held.remainsAlive session.root m.held m.store i = m.held.keepsAlive m.store i := by
  rw [Bool.eq_iff_iff, Held.remainsAlive_iff]
  refine ⟨fun ⟨live, hlive, hi⟩ => ?_, fun hi => ?_⟩
  · exact (h.remains_iff hsession (List.Subset.refl _) hlive i).2.2 hi
  · obtain ⟨live, hlive⟩ := exists_remains m.store.size (m.store.strongLinks session.root)
      m.held.references
    exact ⟨live, hlive, (h.remains_iff hsession (List.Subset.refl _) hlive i).2.1 hi⟩

/-- **Lifetime is a matter of counting references**: at every moment of a session, discarding scopes
without references comes to an end, and the scopes that can then remain are those that live. So a
session that counts references evaluates every term like one that looks for what can be reached. -/
theorem keepsAlive_iff_remains {session : Session} (hsession : session.Fresh) (limit : Nat)
    (sources : List String) :
    (∀ m, session.Passes limit sources m → ∀ held : Held, m.held.scopes ⊆ held.scopes →
      (∃ live, Remains m.store.size (m.store.strongLinks session.root) held.references live) ∧
        ∀ live, Remains m.store.size (m.store.strongLinks session.root) held.references live →
          ∀ i, (i ∈ live ↔ i < m.store.size ∧
              Reachable (m.store.strongLinks session.root) held.references i) ∧
            (held.keepsAlive m.store i = true ↔ i ∈ live)) ∧
    ∀ source e, Term.parse source = .ok e →
      (session.run limit sources).2.evaluateWith
          (evaluateWith (Held.remainsAlive session.root) limit) e =
        (session.run limit sources).2.evaluate limit e := by
  refine ⟨fun m hm held hheld => ⟨exists_remains _ _ _, fun live hlive i =>
    (hm.follows hsession.toSound).remains_iff hsession hheld hlive i⟩, fun source e hparse => ?_⟩
  obtain ⟨hroot, cs, hcs⟩ := hsession.toSound.history_run limit sources
  have hsound : (session.run limit sources).2.Sound :=
    ⟨hroot.trans hsession.root_eq, hcs.sound hsession.store⟩
  have hrun : ((session.run limit sources).2.activation limit e).run
      (Held.remainsAlive session.root) =
        ((session.run limit sources).2.activation limit e).run Held.keepsAlive := by
    refine Activation.run_congr fun b m i hb hm => ?_
    obtain ⟨hproper, ds, hds⟩ := hb.proper (hsound.activation_proper hparse limit)
    have hfollows : m.Follows session.store :=
      ((hm.passes.follows hproper).of_history hds).of_history hcs
    exact hfollows.remainsAlive_eq hsession i
  exact Session.evaluateWith_congr hrun

/-- Of two scopes that no name leads to any more, the one on a cycle is kept, since it is retained,
and the other one is not. -/
theorem keepsAlive_iff_remains_cycle :
    ∃ m, Session.start.Passes 9 ["(do (do (let x 1)) (let f (fn () f)))"] m ∧
      (∃ live, Remains m.store.size (m.store.strongLinks Session.start.root) m.held.references
        live ∧ 1 ∈ live ∧ 2 ∉ live) := by
  let source := "(do (do (let x 1)) (let f (fn () f)))"
  have hm : Session.start.Passes 9 [source] _ := .later (.rests _ _)
  have hcycle : Held.keepsAlive { scopes := [(Session.start.eval 9 source).2.root] }
      (Session.start.eval 9 source).2.store 1 = true := by decide +kernel
  have hplain : Held.keepsAlive { scopes := [(Session.start.eval 9 source).2.root] }
      (Session.start.eval 9 source).2.store 2 = false := by decide +kernel
  generalize (Session.start.eval 9 source).2 = session at hm hcycle hplain
  obtain ⟨⟨live, hlive⟩, hall⟩ :=
    (keepsAlive_iff_remains Session.start_fresh 9 _).1 _ hm _ (List.Subset.refl _)
  refine ⟨_, hm, live, hlive, (hall live hlive 1).2.1 hcycle, fun hmem => ?_⟩
  rw [(hall live hlive 2).2.2 hmem] at hplain
  cases hplain

end ScopedLisp
