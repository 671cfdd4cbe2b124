import ScopedLisp.Proofs.Counting

/-!
# Access to scopes

An evaluation comes to the scopes around its own, and from there to those of the functions that are
bound in them. A closure leads to its scope, and a named function to its own if that one lives. What
is retained is kept, but gives no access.

* `Term.LeadsTo`, `Frame.Leads`: the scopes that a value and a frame lead to;
* `Store.Accessible`: the scopes that some scopes lead to, one after the other;
* `Store.Evolves.reachable_of_new`: a new scope that old ones reach is reached from the scope of the
  evaluation or from the outermost one;
* **`Store.Accessible.trace`**: what an old scope leads to after an evaluation it has led to before,
  or the scope of the evaluation leads to it.
-/

namespace ScopedLisp

open Relation

namespace Term

/-- A function of a program leads to its scope; a named one does if the scope lives. -/
def LeadsTo (live : ScopeId → Prop) : Term → ScopeId → Prop
  | closure _ _ o, i => i = o
  | named _ _ _ o, i => i = o ∧ live o
  | _, _ => False

variable {live live' : ScopeId → Prop} {v : Term} {i : ScopeId} {n : Nat}

theorem LeadsTo.mono (h : v.LeadsTo live i) (hlive : live i → live' i) : v.LeadsTo live' i := by
  cases v with
  | closure params body o => exact h
  | named name params body o =>
    obtain ⟨rfl, hl⟩ := h
    exact ⟨rfl, hlive hl⟩
  | _ => exact h.elim

theorem LeadsTo.lt (h : v.LeadsTo live i) (hv : v.IsValue n) : i < n := by
  cases v with
  | closure params body o => rw [show i = o from h]; exact hv.2
  | named name params body o => rw [h.1]; exact hv.2
  | _ => exact h.elim

theorem LeadsTo.mem_scopes_or (h : v.LeadsTo live i) : i ∈ v.scopes ∨ live i := by
  cases v with
  | closure params body o =>
    rw [show i = o from h, scopes]
    exact .inl List.mem_cons_self
  | named name params body o => rw [h.1]; exact .inr h.2
  | _ => exact h.elim

theorem leadsTo_of_mem_scopes (hv : v.IsValue n) (hi : i ∈ v.scopes) : v.LeadsTo live i := by
  rw [hv.scopes_eq, Option.mem_toList] at hi
  cases v with
  | closure params body o => exact (Option.some.inj hi).symm
  | _ => cases hi

end Term

/-- A frame leads to the scope around it and to those that its values lead to. -/
def Frame.Leads (f : Frame) (live : ScopeId → Prop) (i : ScopeId) : Prop :=
  f.outer = some i ∨ ∃ b ∈ f.bindings, b.2.LeadsTo live i

theorem Frame.Leads.mono {f : Frame} {live live' : ScopeId → Prop} {i : ScopeId}
    (h : f.Leads live i) (hlive : live i → live' i) : f.Leads live' i :=
  h.imp_right fun ⟨b, hb, hlead⟩ => ⟨b, hb, hlead.mono hlive⟩

namespace Store

/-- One of the roots, or a scope that they lead to. -/
def Accessible (s : Store) (live roots : ScopeId → Prop) (i : ScopeId) : Prop :=
  ∃ r, roots r ∧ ReflTransGen (fun i j => (s.frame i).Leads live j) r i

variable {s t : Store} {live live' roots roots' : ScopeId → Prop} {i j scope : Nat}
  {names : List Symbol}

theorem Accessible.of_root (h : roots i) : s.Accessible live roots i := ⟨i, h, .refl⟩

theorem Accessible.tail (h : s.Accessible live roots i) (hj : (s.frame i).Leads live j) :
    s.Accessible live roots j := by
  obtain ⟨r, hr, hpath⟩ := h
  exact ⟨r, hr, hpath.tail hj⟩

theorem Accessible.mono (h : s.Accessible live roots i) (hlive : ∀ i, live i → live' i)
    (hroots : ∀ i, roots i → roots' i) : s.Accessible live' roots' i := by
  obtain ⟨r, hr, hpath⟩ := h
  exact ⟨r, hroots r hr, hpath.lift id fun _ _ hlead => hlead.mono (hlive _)⟩

theorem Accessible.induction {P : ScopeId → Prop} (h : s.Accessible live roots i)
    (hroots : ∀ r, roots r → P r) (hstep : ∀ i j, P i → (s.frame i).Leads live j → P j) : P i := by
  obtain ⟨r, hr, hpath⟩ := h
  induction hpath with
  | refl => exact hroots r hr
  | tail _ hlead ih => exact hstep _ _ ih hlead

/-! ## Access and links -/

theorem mem_links_iff : j ∈ s.links i ↔
    (s.frame i).outer = some j ∨ (∃ b ∈ (s.frame i).bindings, j ∈ b.2.scopes) ∨
      j ∈ (s.frame i).retained := by
  simp [links, Frame.valueScopes]

/-- A scope keeps what it leads to, apart from the scopes of named functions. -/
theorem mem_links_or_of_leads (h : (s.frame i).Leads live j) : j ∈ s.links i ∨ live j := by
  rcases h with houter | ⟨b, hb, hlead⟩
  · exact .inl (mem_links_iff.2 (.inl houter))
  · exact hlead.mem_scopes_or.imp_left fun hj => mem_links_iff.2 (.inr (.inl ⟨b, hb, hj⟩))

theorem Sound.leads_lt (hs : s.Sound) (h : (s.frame i).Leads live j) : j < s.size := by
  rcases h with houter | ⟨b, hb, hlead⟩
  · have := hs.outer_some houter
    omega
  · exact hlead.lt (hs.values i b hb)

theorem reachable_of_retained (h : i ∈ (s.frame 0).retained) : Reachable s.links [0] i := by
  have hzero : Reachable s.links [0] 0 := .of_mem List.mem_cons_self
  exact hzero.tail (mem_links_iff.2 (.inr (.inr h)))

theorem Sound.links_lt (hs : s.Sound) (h : j ∈ s.links i) : j < s.size := by
  rcases mem_links_iff.1 h with houter | ⟨b, hb, hj⟩ | hj
  · have := hs.outer_some houter
    omega
  · have hval := hs.values i b hb
    have hlead : b.2.LeadsTo (fun _ => True) j := Term.leadsTo_of_mem_scopes hval hj
    exact hlead.lt hval
  · by_cases hi : i = 0
    · subst hi
      exact hs.retained_lt j hj
    · rw [hs.retained_ne i hi] at hj
      cases hj

theorem Sound.reachable_lt (hs : s.Sound) {refs : List ScopeId} (hrefs : ∀ r ∈ refs, r < s.size)
    (h : Reachable s.links refs i) : i < s.size := by
  obtain ⟨r, hr, hpath⟩ := h
  rcases hpath.cases_tail with heq | ⟨k, -, hk⟩
  · rw [heq]
    exact hrefs r hr
  · exact hs.links_lt hk

theorem reachable_extend {name : Symbol} {v : Term} (hscope : scope < s.size)
    {refs : List ScopeId} (h : Reachable s.links refs i) :
    Reachable (s.modify scope (·.extend name v)).links refs i := by
  refine h.of_links_subset fun j k hk => ?_
  rw [mem_links_iff] at hk ⊢
  rw [outer_extend, retained_extend, bindings_extend hscope]
  exact hk.imp_right (Or.imp_left fun ⟨b, hb, hkb⟩ => ⟨b, List.mem_append_left _ hb, hkb⟩)

theorem Sound.reachable_bind {name : Symbol} {v : Term} (hs : s.Sound) (hscope : scope < s.size)
    (hval : v.IsValue s.size) {refs : List ScopeId}
    (h : Reachable (s.modify scope (·.extend name v)).links refs i) :
    Reachable (s.bind scope name v).links refs i := by
  refine h.of_links_subset fun j k hk => ?_
  have hext : (s.modify scope (·.extend name v)).Sound := hs.extend hscope hval
  rw [hext.mem_links_iff_owned, retained_extend] at hk
  rw [(hs.bind hscope hval).mem_links_iff_owned, ownershipLinks_bind]
  exact hk.imp_right fun ⟨hj, hret⟩ => ⟨hj, hs.mem_retained_bind hscope hval hret⟩

theorem leads_of_mem_chainFrom {steps : Nat} (h : j ∈ s.chainFrom steps i) :
    ReflTransGen (fun i j => (s.frame i).Leads live j) i j := by
  induction steps generalizing i with
  | zero => cases h
  | succ steps ih =>
    rw [chainFrom] at h
    rcases List.mem_cons.1 h with rfl | h
    · exact .refl
    · cases ho : (s.frame i).outer with
      | none => rw [ho] at h; cases h
      | some o =>
        rw [ho] at h
        exact .head (.inl ho) (ih h)

theorem exists_of_lookup {name : Symbol} {v : Term} (h : s.lookup i name = some v)
    (live : ScopeId → Prop) :
    ∃ j, ReflTransGen (fun i j => (s.frame i).Leads live j) i j ∧
      (name, v) ∈ (s.frame j).bindings := by
  obtain ⟨j, hj, hmem⟩ := exists_mem_of_lookup h
  exact ⟨j, leads_of_mem_chainFrom hj, hmem⟩

/-! ## Evolution -/

namespace Evolves

/-- **Links are never lost.** -/
theorem links_subset (h : Evolves scope names s t) (hs : s.Sound) : s.links i ⊆ t.links i := by
  intro j hj
  by_cases hi : i < s.size
  · obtain ⟨cs, hist, -⟩ := h
    rcases mem_links_iff.1 hj with houter | ⟨b, hb, hscope⟩ | hret
    · exact mem_links_iff.2 (.inl ((hist.outer_eq hi).trans houter))
    · refine mem_links_iff.2 (.inr (.inl ⟨b, ?_, hscope⟩))
      rw [hist.bindings_eq hi]
      exact List.mem_append_left _ hb
    · by_cases h0 : i = 0
      · subst h0
        exact mem_links_iff.2 (.inr (.inr (hist.mem_retained_of_mem hs hret)))
      · rw [hs.retained_ne i h0] at hret
        cases hret
  · rw [links_eq_nil (Nat.le_of_not_lt hi)] at hj
    cases hj

theorem reachable (h : Evolves scope names s t) (hs : s.Sound) {refs : List ScopeId}
    (hi : Reachable s.links refs i) : Reachable t.links refs i :=
  hi.of_links_subset fun _ => h.links_subset hs

theorem leads (h : Evolves scope names s t) (hi : i < s.size) (hne : i ≠ scope)
    (hlead : (t.frame i).Leads live j) : (s.frame i).Leads live j := by
  unfold Frame.Leads at *
  rwa [h.outer_eq hi, h.bindings_of_ne hi hne] at hlead

/-- Of the old scopes, only that of the evaluation and the outermost one come to keep new ones. -/
theorem eq_of_mem_links (h : Evolves scope names s t) (hs : s.Sound) (hi : i < s.size)
    (hj : j ∈ t.links i) (hnew : s.size ≤ j) : i = 0 ∨ i = scope := by
  by_contra hne
  rw [not_or] at hne
  have hlinks : t.links i = s.links i := by
    have hret := ((h.sound hs).retained_ne i hne.1).trans (hs.retained_ne i hne.1).symm
    unfold links Frame.valueScopes
    dsimp only
    rw [h.outer_eq hi, h.bindings_of_ne hi hne.2, hret]
  rw [hlinks] at hj
  have := hs.links_lt hj
  omega

/-- **A new scope that old ones reach is reached from the scope of the evaluation or from the
outermost one.** -/
theorem reachable_of_new (h : Evolves scope names s t) (hs : s.Sound) (hnew : s.size ≤ i)
    {r : Nat} (hr : r < s.size) (hpath : ReflTransGen (fun i j => j ∈ t.links i) r i) :
    Reachable t.links [0, scope] i := by
  -- the path leaves the old scopes by a link that is new
  induction hpath using ReflTransGen.head_induction_on with
  | refl => omega
  | @head j k hjk hki ih =>
    by_cases hk : k < s.size
    · exact ih hk
    · refine ⟨j, ?_, .head hjk hki⟩
      rcases h.eq_of_mem_links hs hr hjk (Nat.le_of_not_lt hk) with rfl | rfl
      · exact List.mem_cons_self
      · exact List.mem_cons_of_mem _ List.mem_cons_self

theorem made {f : Frame} (hf : (Change.made f).Allowed s) (h : Evolves s.size names (s.push f) t) :
    Evolves s.size names s t := by
  obtain ⟨cs, hist, hwithin⟩ := h
  refine ⟨.made f :: cs, .cons hf hist, fun i name value hmem => ?_, hwithin.names⟩
  have := hwithin.scopes i name value (List.mem_of_ne_of_mem Change.noConfusion hmem)
  rw [size_push] at this
  omega

end Evolves

/-- **What an old scope leads to after an evaluation it has led to before, or the scope of the
evaluation leads to it.** -/
theorem Accessible.trace (h : t.Accessible live' roots i) (hev : Evolves scope names s t)
    (hs : s.Sound) (hlive : ∀ i < s.size, live' i → live i) (hroots : ∀ r, roots r → r < s.size) :
    i < s.size ∧ s.Accessible live roots i ∨
      scope < s.size ∧ t.Accessible live' (· = scope) i := by
  refine h.induction (P := fun i => i < s.size ∧ s.Accessible live roots i ∨
    scope < s.size ∧ t.Accessible live' (· = scope) i)
    (fun r hr => .inl ⟨hroots r hr, .of_root hr⟩) ?_
  rintro i j (⟨hi, hacc⟩ | ⟨hlt, hacc⟩) hlead
  · by_cases hne : i = scope
    · have hroot : t.Accessible live' (· = scope) i := .of_root hne
      exact .inr ⟨hne ▸ hi, hroot.tail hlead⟩
    · have hlead' := hev.leads hi hne hlead
      have hj := hs.leads_lt hlead'
      exact .inl ⟨hj, hacc.tail (hlead'.mono (hlive j hj))⟩
  · exact .inr ⟨hlt, hacc.tail hlead⟩

end Store

end ScopedLisp
