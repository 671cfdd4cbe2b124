import ScopedLisp.Proofs.Access

/-!
# Separation of temporaries

While a call is evaluated, its head and its arguments are held, and while a block is, its last
value. These temporaries keep scopes for longer than any name does. But what only they keep is
separated from the rest: no scope in use leads there.

* `Held.Lives`: what is in use reaches a scope;
* `Held.Ready`: the scopes in use reach all that they lead to;
* `Held.After`: what computations keep of that, together with the values that they give;
* `Held.After.trans`, `Held.After.single`: one computation after the other, and a single one;
* **`Held.After.bind`**, **`Held.After.enter`**, **`Held.After.leave`**: definitions and new scopes.
-/

namespace ScopedLisp

open Relation

namespace Held

/-! ## What is in use -/

/-- A scope can be reached from what is in use. -/
def Lives (h : Held) (s : Store) (i : ScopeId) : Prop := Reachable s.links h.references i

/-- The same scopes are in use, and the same ones are kept. -/
structure Same (h h' : Held) : Prop where
  scopes : ∀ i, i ∈ h.scopes ↔ i ∈ h'.scopes
  references : ∀ i, i ∈ h.references ↔ i ∈ h'.references

variable {h h' : Held} {s t u : Store} {scope i : Nat} {values more : List Term} {v : Term}

theorem Same.symm (hsame : h.Same h') : h'.Same h :=
  ⟨fun i => (hsame.scopes i).symm, fun i => (hsame.references i).symm⟩

theorem same_enter (hmem : scope ∈ h.scopes) : (h.enter scope).Same h := by
  refine ⟨fun i => ?_, fun i => ?_⟩
  · simp only [enter, List.mem_cons, or_iff_right_iff_imp]
    rintro rfl
    exact hmem
  · rw [mem_references_enter, or_iff_right_iff_imp]
    rintro rfl
    exact List.mem_append_left _ hmem

theorem Same.keepAll (hsame : h.Same h') (values : List Term) :
    (h.keepAll values).Same (h'.keepAll values) := by
  refine ⟨hsame.scopes, fun i => ?_⟩
  rw [mem_references_keepAll, mem_references_keepAll, hsame.references]

theorem Same.enter (hsame : h.Same h') (scope : ScopeId) :
    (h.enter scope).Same (h'.enter scope) := by
  refine ⟨fun i => ?_, fun i => ?_⟩
  · simp only [Held.enter, List.mem_cons, hsame.scopes]
  · rw [mem_references_enter, mem_references_enter, hsame.references]

theorem same_keepAll_append :
    ((h.keepAll values).keepAll more).Same (h.keepAll (values ++ more)) := by
  refine ⟨fun _ => .rfl, fun i => ?_⟩
  simp only [mem_references_keepAll, List.mem_append, or_and_right, exists_or]
  exact or_left_comm.trans or_assoc.symm

theorem Lives.mono (hi : h.Lives s i) (hsub : h.references ⊆ h'.references) : h'.Lives s i :=
  Reachable.mono hsub hi

theorem Lives.of_mem (hi : i ∈ h.references) : h.Lives s i := Reachable.of_mem hi

theorem Lives.tail {j : ScopeId} (hi : h.Lives s i) (hj : j ∈ s.links i) : h.Lives s j :=
  Reachable.tail hi hj

theorem lives_of_accessible {roots : ScopeId → Prop} (hi : s.Accessible (h.Lives s) roots i)
    (hroots : ∀ r, roots r → h.Lives s r) : h.Lives s i :=
  hi.induction hroots fun _ _ hlives hlead =>
    (Store.mem_links_or_of_leads hlead).elim hlives.tail id

theorem subset_references : h.scopes ⊆ h.references := List.subset_append_left _ _

/-! ## Separation -/

/-- What holds at every point of an evaluation in a scope: **the scopes in use reach all that they
lead to**, so nothing that only temporaries keep has a name. -/
structure Ready (h : Held) (scope : Nat) (s : Store) : Prop where
  sound : s.Sound
  root_mem : 0 ∈ h.scopes
  scope_mem : scope ∈ h.scopes
  lt : ∀ i ∈ h.references, i < s.size
  separated : ∀ i, s.Accessible (h.Lives s) (· ∈ h.scopes) i → Reachable s.links h.scopes i

namespace Ready

theorem weaken (hr : h.Ready scope s) (hscopes : ∀ i, i ∈ h'.scopes ↔ i ∈ h.scopes)
    (hrefs : h'.references ⊆ h.references) : h'.Ready scope s := by
  refine ⟨hr.sound, (hscopes 0).2 hr.root_mem, (hscopes scope).2 hr.scope_mem,
    fun i hi => hr.lt i (hrefs hi), fun i hi => ?_⟩
  refine Reachable.mono (fun j => (hscopes j).2) (hr.separated i ?_)
  exact hi.mono (fun j hj => hj.mono hrefs) fun j => (hscopes j).1

theorem congr (hr : h.Ready scope s) (hsame : h'.Same h) : h'.Ready scope s :=
  hr.weaken hsame.scopes fun i => (hsame.references i).1

theorem scope_lt (hr : h.Ready scope s) : scope < s.size :=
  hr.lt scope (subset_references hr.scope_mem)

theorem lives_lt (hr : h.Ready scope s) (hi : h.Lives s i) : i < s.size :=
  hr.sound.reachable_lt hr.lt hi

/-- Without temporaries there is nothing to separate. -/
theorem of_values_nil (hs : s.Sound) (hroot : 0 ∈ h.scopes) (hmem : scope ∈ h.scopes)
    (hlt : ∀ i ∈ h.scopes, i < s.size) (hvalues : h.values = []) : h.Ready scope s := by
  have hrefs : h.references = h.scopes := by rw [references, hvalues]; simp
  refine ⟨hs, hroot, hmem, by rwa [hrefs], fun i hi => ?_⟩
  have hlives := lives_of_accessible hi fun r hr => .of_mem (subset_references hr)
  rwa [Lives, hrefs] at hlives

end Ready

/-- What holds after computations in a scope, with the values that they have given and that are held
from then on: no scope comes back to life, nothing old becomes accessible, and a value leads to
nothing but what it keeps itself or the scopes in use reach. -/
structure After (h : Held) (scope : Nat) (s : Store) (values : List Term) (t : Store) : Prop where
  ready : (h.keepAll values).Ready scope t
  evolves : ∃ names, s.Evolves scope names t
  isValue : ∀ v ∈ values, v.IsValue t.size
  lives : ∀ i < s.size, (h.keepAll values).Lives t i → h.Lives s i
  accessible : ∀ i < s.size, t.Accessible ((h.keepAll values).Lives t)
      (fun r => r ∈ h.scopes ∨ ∃ v ∈ values, v.LeadsTo ((h.keepAll values).Lives t) r) i →
    s.Accessible (h.Lives s) (· ∈ h.scopes) i
  confined : ∀ v ∈ values, ∀ i, t.Accessible ((h.keepAll values).Lives t)
      (v.LeadsTo ((h.keepAll values).Lives t)) i →
    Reachable t.links (h.scopes ++ v.scopes) i

namespace After

theorem size_le (ha : h.After scope s values t) : s.size ≤ t.size := by
  obtain ⟨names, hev⟩ := ha.evolves
  exact hev.size_le

theorem refl (hr : h.Ready scope s) : h.After scope s [] s where
  ready := hr
  evolves := ⟨[], .refl scope [] s⟩
  isValue _ hv := nomatch hv
  lives _ _ hi := hi
  accessible _ _ hi :=
    hi.mono (fun _ => id) fun _ hr => hr.resolve_right fun ⟨_, hv, _⟩ => nomatch hv
  confined _ hv := nomatch hv

theorem keepAll_references_subset (hsub : more ⊆ values) :
    (h.keepAll more).references ⊆ (h.keepAll values).references := by
  intro i hi
  rw [mem_references_keepAll] at hi ⊢
  exact hi.imp_left fun ⟨v, hv, hi⟩ => ⟨v, hsub hv, hi⟩

theorem mono (ha : h.After scope s values t) (hsub : more ⊆ values) : h.After scope s more t := by
  have hrefs : (h.keepAll more).references ⊆ (h.keepAll values).references :=
    keepAll_references_subset hsub
  have hlives : ∀ i, (h.keepAll more).Lives t i → (h.keepAll values).Lives t i := fun i hi =>
    hi.mono hrefs
  refine ⟨ha.ready.weaken (fun _ => .rfl) hrefs, ha.evolves, fun v hv => ha.isValue v (hsub hv),
    fun i hi hl => ha.lives i hi (hlives i hl), fun i hi hacc => ha.accessible i hi ?_,
    fun v hv i hacc => ha.confined v (hsub hv) i ?_⟩
  · refine hacc.mono hlives fun r hr => hr.imp_right ?_
    exact fun ⟨v, hv, hlead⟩ => ⟨v, hsub hv, hlead.mono (hlives r)⟩
  · exact hacc.mono hlives fun r hr => hr.mono (hlives r)

theorem congr (ha : h.After scope s values t) (hsame : h'.Same h) : h'.After scope s values t := by
  have hkeep := hsame.keepAll values
  have hlives : ∀ i, (h'.keepAll values).Lives t i → (h.keepAll values).Lives t i := fun i hi =>
    hi.mono fun j => (hkeep.references j).1
  have hback : ∀ i, h.Lives s i → h'.Lives s i := fun i hi =>
    hi.mono fun j => (hsame.references j).2
  refine ⟨ha.ready.congr hkeep, ha.evolves, ha.isValue,
    fun i hi hl => hback i (ha.lives i hi (hlives i hl)), fun i hi hacc => ?_,
    fun v hv i hacc => ?_⟩
  · refine (ha.accessible i hi (hacc.mono hlives fun r hr => ?_)).mono hback fun r =>
      (hsame.scopes r).2
    exact hr.imp (hsame.scopes r).1 fun ⟨v, hv, hlead⟩ => ⟨v, hv, hlead.mono (hlives r)⟩
  · refine Reachable.mono ?_ (ha.confined v hv i (hacc.mono hlives fun r hr => hr.mono (hlives r)))
    exact List.append_subset.2 ⟨fun j hj => List.mem_append_left _ ((hsame.scopes j).2 hj),
      List.subset_append_right _ _⟩

/-- What is accessible later from the scopes in use and from values given before was accessible from
them before, or is accessible from the scope of the evaluation. -/
theorem trace (ha : h.After scope s values t) {live : ScopeId → Prop} {names : List Symbol}
    (hev : t.Evolves scope names u)
    (hlive : ∀ i < t.size, live i → (h.keepAll values).Lives t i)
    (hv : v ∈ values) (hacc : u.Accessible live (v.LeadsTo live) i) :
    i < t.size ∧ t.Accessible ((h.keepAll values).Lives t)
        (v.LeadsTo ((h.keepAll values).Lives t)) i ∨
      u.Accessible live (· ∈ h.scopes) i := by
  have hlt : ∀ r, v.LeadsTo live r → r < t.size := fun r hr => hr.lt (ha.isValue v hv)
  rcases hacc.trace hev ha.ready.sound hlive hlt with ⟨hi, hold⟩ | ⟨-, hscope⟩
  · exact .inl ⟨hi, hold.mono (fun _ => id) fun r hr => hr.mono (hlive r (hlt r hr))⟩
  · refine .inr (hscope.mono (fun _ => id) ?_)
    rintro r rfl
    exact ha.ready.scope_mem

/-- **One computation after the other.** -/
theorem trans (ha : h.After scope s values t) (hb : (h.keepAll values).After scope t more u) :
    h.After scope s (values ++ more) u := by
  obtain ⟨names, hst⟩ := ha.evolves
  obtain ⟨names', htu⟩ := hb.evolves
  have hsame : (h.keepAll (values ++ more)).Same ((h.keepAll values).keepAll more) :=
    same_keepAll_append.symm
  have hlives : ∀ i, (h.keepAll (values ++ more)).Lives u i →
      ((h.keepAll values).keepAll more).Lives u i := fun i hi =>
    hi.mono fun j => (hsame.references j).1
  have hold : ∀ i < t.size, (h.keepAll (values ++ more)).Lives u i →
      (h.keepAll values).Lives t i := fun i hi hl => hb.lives i hi (hlives i hl)
  refine ⟨hb.ready.congr hsame, ⟨_, hst.trans htu⟩, fun v hv => ?_, fun i hi hl => ?_,
    fun i hi hacc => ?_, fun v hv i hacc => ?_⟩
  · rcases List.mem_append.1 hv with hv | hv
    · exact (ha.isValue v hv).mono hb.size_le
    · exact hb.isValue v hv
  · exact ha.lives i hi (hold i (Nat.lt_of_lt_of_le hi ha.size_le) hl)
  · -- the roots are scopes in use, earlier values or later ones
    have hit := Nat.lt_of_lt_of_le hi ha.size_le
    have hback : u.Accessible ((h.keepAll (values ++ more)).Lives u) (fun r => r ∈ h.scopes ∨
        ∃ v ∈ more, v.LeadsTo ((h.keepAll (values ++ more)).Lives u) r) i →
        s.Accessible (h.Lives s) (· ∈ h.scopes) i := by
      intro hacc
      have hat := hb.accessible i hit (hacc.mono hlives fun r hr =>
        hr.imp_right fun ⟨v, hv, hlead⟩ => ⟨v, hv, hlead.mono (hlives r)⟩)
      exact ha.accessible i hi (hat.mono (fun _ => id) fun r => .inl)
    obtain ⟨r, hr | ⟨v, hv, hlead⟩, hpath⟩ := hacc
    · exact hback ⟨r, .inl hr, hpath⟩
    · rcases List.mem_append.1 hv with hv | hv
      · rcases ha.trace htu hold hv ⟨r, hlead, hpath⟩ with ⟨-, hat⟩ | hscopes
        · exact ha.accessible i hi (hat.mono (fun _ => id) fun r hr => .inr ⟨v, hv, hr⟩)
        · exact hback (hscopes.mono (fun _ => id) fun r => .inl)
      · exact hback ⟨r, .inr ⟨v, hv, hlead⟩, hpath⟩
  · rcases List.mem_append.1 hv with hv | hv
    · rcases ha.trace htu hold hv hacc with ⟨-, hat⟩ | hscopes
      · exact htu.reachable ha.ready.sound (ha.confined v hv i hat)
      · have := hb.ready.separated i (hscopes.mono hlives fun r => id)
        exact this.mono (List.subset_append_left _ _)
    · exact hb.confined v hv i (hacc.mono hlives fun r hr => hr.mono (hlives r))

/-- **A single value is confined if nothing old has become accessible**: what is old in its reach
was accessible to the scopes in use, and what is new is kept by the value itself or by what has
changed. -/
theorem single (hr : h.Ready scope s) {names : List Symbol} (hev : s.Evolves scope names t)
    (hval : v.IsValue t.size) (ready : (h.keepAll [v]).Ready scope t)
    (lives : ∀ i < s.size, (h.keepAll [v]).Lives t i → h.Lives s i)
    (accessible : ∀ i < s.size, t.Accessible ((h.keepAll [v]).Lives t)
        (fun r => r ∈ h.scopes ∨ v.LeadsTo ((h.keepAll [v]).Lives t) r) i →
      s.Accessible (h.Lives s) (· ∈ h.scopes) i) : h.After scope s [v] t := by
  refine ⟨ready, ⟨names, hev⟩, by simpa using hval, lives, fun i hi hacc => accessible i hi ?_, ?_⟩
  · exact hacc.mono (fun _ => id) fun r hr => by simpa using hr
  rintro w hw i hacc
  rw [List.mem_singleton] at hw
  subst hw
  by_cases hi : i < s.size
  · have hold := hr.separated i (accessible i hi (hacc.mono (fun _ => id) fun r => .inr))
    exact (hev.reachable hr.sound hold).mono (List.subset_append_left _ _)
  · have hlives : (h.keepAll [w]).Lives t i := lives_of_accessible hacc fun r hr =>
      hr.mem_scopes_or.elim
        (fun hmem => .of_mem (mem_references_keepAll.2 (.inl ⟨w, by simp, hmem⟩))) id
    obtain ⟨r, hrmem, hpath⟩ := hlives
    rcases mem_references_keepAll.1 hrmem with ⟨w', hw', hscope⟩ | hrmem
    · rw [List.mem_singleton] at hw'
      subst hw'
      exact ⟨r, List.mem_append_right _ hscope, hpath⟩
    · have hnew := hev.reachable_of_new hr.sound (Nat.le_of_not_lt hi) (hr.lt r hrmem) hpath
      refine hnew.mono fun j hj => List.mem_append_left _ ?_
      simp only [List.mem_cons, List.not_mem_nil, or_false] at hj
      rcases hj with rfl | rfl
      · exact hr.root_mem
      · exact hr.scope_mem

theorem of_accessible (hr : h.Ready scope s) (hval : v.IsValue s.size)
    (hlead : ∀ i, v.LeadsTo (h.Lives s) i → s.Accessible (h.Lives s) (· ∈ h.scopes) i) :
    h.After scope s [v] s := by
  have hscopes : ∀ i ∈ v.scopes, h.Lives s i := fun i hi =>
    Reachable.mono subset_references
      (hr.separated i (hlead i (Term.leadsTo_of_mem_scopes hval hi)))
  -- the value keeps nothing else, so it makes no difference that it is held
  have hlives : ∀ i, (h.keepAll [v]).Lives s i → h.Lives s i := by
    rintro i ⟨r, hrmem, hpath⟩
    rcases mem_references_keepAll.1 hrmem with ⟨w, hw, hscope⟩ | hrmem
    · rw [List.mem_singleton] at hw
      subst hw
      obtain ⟨r', hr', hpath'⟩ := hscopes r hscope
      exact ⟨r', hr', hpath'.trans hpath⟩
    · exact ⟨r, hrmem, hpath⟩
  refine single hr (.refl scope [] s) hval ⟨hr.sound, hr.root_mem, hr.scope_mem, fun i hi => ?_,
    fun i hi => hr.separated i (hi.mono hlives fun _ => id)⟩ (fun i _ => hlives i)
    fun i _ hacc => ?_
  · exact hr.lives_lt (hlives i (.of_mem hi))
  · obtain ⟨r, hr' | hr', hpath⟩ := hacc.mono hlives fun r hr => hr
    · exact ⟨r, hr', hpath⟩
    · obtain ⟨r', hr'', hpath'⟩ := hlead r (hr'.mono (hlives r))
      exact ⟨r', hr'', hpath'.trans hpath⟩

/-! ### Definitions -/

section Bind

variable {name : Symbol} (ha : h.After scope s [v] t)
include ha

theorem mem_links_bind {j : Nat} (hj : j ∈ (t.bind scope name v).links i) :
    j ∈ t.links i ∨ j ∈ (h.keepAll [v]).references := by
  have hlt := ha.ready.scope_lt
  have hval := ha.isValue v List.mem_cons_self
  rcases Store.mem_links_iff.1 hj with houter | ⟨b, hb, hscope⟩ | hret
  · rw [Store.outer_bind] at houter
    exact .inl (Store.mem_links_iff.2 (.inl houter))
  · rw [Store.bindings_bind hlt, List.mem_append] at hb
    rcases hb with hb | hb
    · exact .inl (Store.mem_links_iff.2 (.inr (.inl ⟨b, hb, hscope⟩)))
    · split_ifs at hb
      · rw [List.mem_singleton] at hb
        subst hb
        exact .inr (mem_references_keepAll.2 (.inl ⟨v, List.mem_cons_self, hscope⟩))
      · cases hb
  · rw [ha.ready.sound.retained_bind hlt hval] at hret
    split_ifs at hret with hown
    · rcases Frame.mem_insertScope.1 hret with rfl | hret
      · exact .inr (subset_references ha.ready.scope_mem)
      · rw [hown.1]
        exact .inl (Store.mem_links_iff.2 (.inr (.inr hret)))
    · exact .inl (Store.mem_links_iff.2 (.inr (.inr hret)))

theorem leads_bind {live : ScopeId → Prop} {j : Nat}
    (hj : ((t.bind scope name v).frame i).Leads live j) :
    (t.frame i).Leads live j ∨ v.LeadsTo live j := by
  rcases hj with houter | ⟨b, hb, hlead⟩
  · rw [Store.outer_bind] at houter
    exact .inl (.inl houter)
  · rw [Store.bindings_bind ha.ready.scope_lt, List.mem_append] at hb
    rcases hb with hb | hb
    · exact .inl (.inr ⟨b, hb, hlead⟩)
    · split_ifs at hb
      · rw [List.mem_singleton] at hb
        subst hb
        exact .inr hlead
      · cases hb

theorem lives_bind (hi : (h.keepAll [v]).Lives (t.bind scope name v) i) :
    (h.keepAll [v]).Lives t i := by
  obtain ⟨r, hr, hpath⟩ := hi
  induction hpath with
  | refl => exact .of_mem hr
  | tail _ hj ih => exact (ha.mem_links_bind hj).elim ih.tail .of_mem

theorem accessible_bind {roots : ScopeId → Prop}
    (hi : (t.bind scope name v).Accessible ((h.keepAll [v]).Lives (t.bind scope name v)) roots i)
    (hroots : ∀ r, roots r → r ∈ h.scopes ∨ v.LeadsTo ((h.keepAll [v]).Lives t) r) :
    t.Accessible ((h.keepAll [v]).Lives t)
      (fun r => r ∈ h.scopes ∨ v.LeadsTo ((h.keepAll [v]).Lives t) r) i := by
  refine hi.induction (P := fun i => t.Accessible ((h.keepAll [v]).Lives t)
    (fun r => r ∈ h.scopes ∨ v.LeadsTo ((h.keepAll [v]).Lives t) r) i)
    (fun r hr => .of_root (hroots r hr)) fun j k hj hlead => ?_
  have hlead' := hlead.mono (ha.lives_bind (i := k))
  exact (ha.leads_bind hlead').elim hj.tail fun hv => .of_root (.inr hv)

/-- **A definition in the scope of the evaluation**: from then on the scope itself keeps what the
value keeps. -/
theorem bind (hnew : (t.frame scope).binds name = false) :
    h.After scope s [v] (t.bind scope name v) := by
  have hval := ha.isValue v List.mem_cons_self
  have hlt := ha.ready.scope_lt
  obtain ⟨names, hst⟩ := ha.evolves
  have htu : t.Evolves scope [name] (t.bind scope name v) := .bind hlt hnew hval
  have hscope : ∀ i ∈ v.scopes, i ∈ (t.bind scope name v).links scope := fun i hi => by
    refine Store.mem_links_iff.2 (.inr (.inl ⟨(name, v), ?_, hi⟩))
    rw [Store.bindings_bind hlt, if_pos rfl]
    exact List.mem_append_right _ List.mem_cons_self
  -- what the value was confined to is reached from the scope, which keeps the value now
  have hreach : ∀ i, t.Accessible ((h.keepAll [v]).Lives t)
      (fun r => r ∈ h.scopes ∨ v.LeadsTo ((h.keepAll [v]).Lives t) r) i →
      Reachable (t.bind scope name v).links h.scopes i := by
    rintro i ⟨r, hr | hr, hpath⟩
    · exact htu.reachable ha.ready.sound (ha.ready.separated i ⟨r, hr, hpath⟩)
    · obtain ⟨r', hr', hpath'⟩ := htu.reachable ha.ready.sound
        (ha.confined v List.mem_cons_self i ⟨r, hr, hpath⟩)
      rcases List.mem_append.1 hr' with hr' | hr'
      · exact ⟨r', hr', hpath'⟩
      · exact ⟨scope, ha.ready.scope_mem, .head (hscope r' hr') hpath'⟩
  refine ⟨⟨htu.sound ha.ready.sound, ha.ready.root_mem, ha.ready.scope_mem, fun i hi => ?_,
    fun i hi => hreach i (ha.accessible_bind hi fun r => .inl)⟩, ⟨_, hst.trans htu⟩, ?_,
    fun i hi hl => ha.lives i hi (ha.lives_bind hl), fun i hi hacc => ?_, fun w hw i hacc => ?_⟩
  · rw [Store.size_bind]
    exact ha.ready.lt i hi
  · rw [Store.size_bind]
    exact ha.isValue
  · refine ha.accessible i hi ((ha.accessible_bind hacc fun r hr => ?_).mono (fun _ => id)
      fun r hr => by simpa using hr)
    rcases hr with hr | ⟨w, hw, hlead⟩
    · exact .inl hr
    · rw [List.mem_singleton] at hw
      subst hw
      exact .inr (hlead.mono ha.lives_bind)
  · rw [List.mem_singleton] at hw
    subst hw
    have hacc' := ha.accessible_bind hacc fun r hr => .inr (hr.mono ha.lives_bind)
    exact (hreach i hacc').mono (List.subset_append_left _ _)

end Bind

/-! ### New scopes -/

/-- A new frame leads to scopes in use, or where a held value leads that keeps no more than the
frame keeps. -/
def Provides (h : Held) (values : List Term) (t : Store) (f : Frame) : Prop :=
  ∀ i, f.Leads ((h.keepAll values).Lives t) i → i ∈ h.scopes ∨
    ∃ v ∈ values, v.LeadsTo ((h.keepAll values).Lives t) i ∧
      ∀ j ∈ v.scopes, f.outer = some j ∨ ∃ b ∈ f.bindings, j ∈ b.2.scopes

section NewScope

variable {f : Frame} (ha : h.After scope s values t) (hf : (Change.made f).Allowed t)
  (hmade : Provides h values t f)
include ha hf hmade

theorem lives_enter (hi : ((h.keepAll values).enter t.size).Lives (t.push f) i) :
    i = t.size ∨ (h.keepAll values).Lives t i := by
  obtain ⟨⟨o, ho, hlt⟩, hret, hval⟩ := hf
  obtain ⟨r, hr, hpath⟩ := hi
  induction hpath with
  | refl => exact (mem_references_enter.1 hr).imp_right .of_mem
  | @tail j k _ hjk ih =>
    refine .inr ?_
    rcases ih with rfl | hj
    · have hlead : f.Leads ((h.keepAll values).Lives t) k := by
        rcases Store.mem_links_iff.1 hjk with houter | ⟨b, hb, hk⟩ | hk
        · rw [Store.frame_push_self] at houter
          exact .inl houter
        · rw [Store.frame_push_self] at hb
          exact .inr ⟨b, hb, Term.leadsTo_of_mem_scopes (hval b hb) hk⟩
        · rw [Store.frame_push_self, hret] at hk
          cases hk
      rcases hmade k hlead with hk | ⟨v, hv, hk, -⟩
      · exact .of_mem (subset_references hk)
      · refine hk.mem_scopes_or.elim (fun hmem => .of_mem ?_) id
        exact mem_references_keepAll.2 (.inl ⟨v, hv, hmem⟩)
    · have hne : j ≠ t.size := Nat.ne_of_lt (ha.ready.lives_lt hj)
      unfold Store.links at hjk
      rw [Store.frame_push_of_ne f hne] at hjk
      exact hj.tail hjk

theorem accessible_enter
    (hi : (t.push f).Accessible (((h.keepAll values).enter t.size).Lives (t.push f))
      (· ∈ ((h.keepAll values).enter t.size).scopes) i) :
    i = t.size ∨ i < t.size ∧ t.Accessible ((h.keepAll values).Lives t)
      (fun r => r ∈ h.scopes ∨ ∃ v ∈ values, v.LeadsTo ((h.keepAll values).Lives t) r ∧
        ∀ j ∈ v.scopes, f.outer = some j ∨ ∃ b ∈ f.bindings, j ∈ b.2.scopes) i := by
  have hsound := ha.ready.sound
  have hlives : ∀ i < t.size, ((h.keepAll values).enter t.size).Lives (t.push f) i →
      (h.keepAll values).Lives t i := fun i hi hl =>
    (lives_enter ha hf hmade hl).resolve_left (Nat.ne_of_lt hi)
  obtain ⟨⟨o, ho, hlt⟩, hret, hval⟩ := hf
  refine hi.induction (P := fun i => i = t.size ∨ i < t.size ∧ t.Accessible _ _ i)
    (fun r hr => ?_) ?_
  · rcases List.mem_cons.1 hr with rfl | hr
    · exact .inl rfl
    · exact .inr ⟨ha.ready.lt r (subset_references hr), .of_root (.inl hr)⟩
  rintro j k (rfl | ⟨hj, hacc⟩) hlead
  · -- the new scope leads to what it was made from
    rw [Store.frame_push_self] at hlead
    have hk : k < t.size := by
      rcases hlead with houter | ⟨b, hb, hk⟩
      · rw [ho] at houter
        cases houter
        exact hlt
      · exact hk.lt (hval b hb)
    exact .inr ⟨hk, .of_root (hmade k (hlead.mono (hlives k hk)))⟩
  · rw [Store.frame_push_of_ne f (Nat.ne_of_lt hj)] at hlead
    have hk := hsound.leads_lt hlead
    exact .inr ⟨hk, hacc.tail (hlead.mono (hlives k hk))⟩

/-- **Separation when a scope is entered.** -/
theorem enter : ((h.keepAll values).enter t.size).Ready t.size (t.push f) := by
  have htu : t.Evolves t.size [] (t.push f) := .made hf (.refl _ _ _)
  refine ⟨htu.sound ha.ready.sound, List.mem_cons_of_mem _ ha.ready.root_mem, List.mem_cons_self,
    fun i hi => ?_, fun i hi => ?_⟩
  · rw [Store.size_push]
    rcases mem_references_enter.1 hi with rfl | hi
    · exact Nat.lt_succ_self _
    · exact Nat.lt_succ_of_lt (ha.ready.lt i hi)
  · have hself : t.size ∈ ((h.keepAll values).enter t.size).scopes := List.mem_cons_self
    rcases accessible_enter ha hf hmade hi with rfl | ⟨-, r, hr | ⟨v, hv, hr, hkept⟩, hpath⟩
    · exact .of_mem hself
    · have hold := htu.reachable ha.ready.sound (ha.ready.separated i ⟨r, hr, hpath⟩)
      exact hold.mono (List.subset_cons_self _ _)
    · obtain ⟨r', hr', hpath'⟩ := htu.reachable ha.ready.sound (ha.confined v hv i ⟨r, hr, hpath⟩)
      rcases List.mem_append.1 hr' with hr' | hr'
      · exact ⟨r', List.mem_cons_of_mem _ hr', hpath'⟩
      · refine ⟨t.size, hself, .head (Store.mem_links_iff.2 ?_) hpath'⟩
        rw [Store.frame_push_self]
        exact (hkept r' hr').imp_right .inl

/-- **Separation when a scope is left**: nothing older than the scope leads into it, so only its
value does. -/
theorem leave (hr : h.Ready scope s)
    (hb : ((h.keepAll values).enter t.size).After t.size (t.push f) [v] u) :
    h.After scope s [v] u := by
  obtain ⟨names, hst⟩ := ha.evolves
  obtain ⟨names', hin⟩ := hb.evolves
  have htu : t.Evolves t.size names' u := .made hf hin
  have hscope : t.Evolves scope [] u := by
    obtain ⟨⟨o, ho, hlt⟩, hret, hval⟩ := hf
    exact .inside ho hlt hret hval ha.ready.scope_lt hin
  have hval := hb.isValue v List.mem_cons_self
  have hsub : (h.keepAll [v]).references ⊆
      (((h.keepAll values).enter t.size).keepAll [v]).references := by
    intro i hi
    rw [mem_references_keepAll] at hi ⊢
    exact hi.imp_right fun hi => mem_references_enter.2 (.inr (mem_references_keepAll.2 (.inr hi)))
  have hlives : ∀ i < t.size, (h.keepAll [v]).Lives u i → (h.keepAll values).Lives t i := by
    intro i hi hl
    have hl' := hb.lives i (by rw [Store.size_push]; omega) (hl.mono hsub)
    exact (lives_enter ha hf hmade hl').resolve_left (Nat.ne_of_lt hi)
  refine single hr (hst.trans hscope) hval ⟨hb.ready.sound, hr.root_mem, hr.scope_mem,
    fun i hi => hb.ready.lt i (hsub hi), fun i hi => ?_⟩
    (fun i hi hl => ha.lives i hi (hlives i (Nat.lt_of_lt_of_le hi ha.size_le) hl))
    fun i hi hacc => ?_
  · -- what old scopes lead to they have led to before the scope was made
    have hroots : ∀ r, r ∈ h.scopes → r < t.size := fun r hr =>
      ha.ready.lt r (subset_references hr)
    rcases hi.trace htu ha.ready.sound hlives hroots with ⟨-, hold⟩ | ⟨hlt, -⟩
    · exact htu.reachable ha.ready.sound (ha.ready.separated i hold)
    · exact absurd hlt (Nat.lt_irrefl _)
  · have hit := Nat.lt_of_lt_of_le hi ha.size_le
    have hin' := hb.accessible i (by rw [Store.size_push]; omega) (hacc.mono
      (fun j hj => hj.mono hsub) fun r hr => hr.imp (List.mem_cons_of_mem _) fun hlead =>
        ⟨v, List.mem_cons_self, hlead.mono fun hj => hj.mono hsub⟩)
    rcases accessible_enter ha hf hmade hin' with rfl | ⟨-, hold⟩
    · exact absurd hit (Nat.lt_irrefl _)
    · exact ha.accessible i hi (hold.mono (fun _ => id) fun r hr =>
        hr.imp_right fun ⟨w, hw, hlead, _⟩ => ⟨w, hw, hlead⟩)

theorem leave_nil (hr : h.Ready scope s)
    (hb : ((h.keepAll values).enter t.size).After t.size (t.push f) [] u) :
    h.After scope s [] u := by
  -- as with any value that keeps no scope
  have hvalue : ((h.keepAll values).enter t.size).After t.size (t.push f) [.bool true] u :=
    hb.trans (.of_accessible hb.ready trivial fun i hi => hi.elim)
  exact (ha.leave hf hmade hr hvalue).mono (List.nil_subset _)

end NewScope

end After

end Held

end ScopedLisp
