import Mathlib.Data.List.Find
import Mathlib.Data.List.Perm.Subperm
import Mathlib.Order.WellFounded
import ScopedLisp.Proofs.History
import ScopedLisp.Proofs.Reachability

/-!
# Graphs of scopes

A store need not come from a session: a host program can make any scopes inside of others and bind
any values in them. All that is asked of such a graph is that the way out of every scope ends.

* `Store.Grounded`: the way out of every scope ends, and the scopes that are referred to are there;
* `Store.lookup_push_of_outer`: look-ups from the newest scope;
* `Store.Grounded.chain_nodup`, `Store.Grounded.chainFrom_eq_chain`: a chain does not come back to a
  scope, and is whole;
* `Change.Possible`, `Store.Run`: the changes that can be made to a graph, one after the other;
* `Store.Run.grounded`, `Store.Run.get?_of_some`, `Store.Run.chain_eq`: what they keep;
* **`evaluate_run`**, **`apply_run`**: evaluations make no other changes, whatever the term.
-/

namespace ScopedLisp

open Relation

/-- The scope of a closure is among the first `n`. -/
def Term.Placed (n : Nat) (v : Term) : Prop := ∀ j : Nat, v.closureScope? = some j → j < n

theorem Term.Placed.mono {n m : Nat} {v : Term} (h : v.Placed n) (hnm : n ≤ m) : v.Placed m :=
  fun j hj => Nat.lt_of_lt_of_le (h j hj) hnm

namespace Store

variable {s t : Store} {i j o scope : Nat} {name m : Symbol} {value v : Term}

/-- The scope `o` is the one around the scope `i`. -/
def IsOuter (s : Store) (o i : ScopeId) : Prop := (s.frame i).outer = some o

/-- The way out of every scope ends, and the scopes that are referred to are there. -/
structure Grounded (s : Store) : Prop where
  outer_lt : ∀ i o : Nat, (s.frame i).outer = some o → o < s.size
  wellFounded : WellFounded s.IsOuter
  placed : ∀ i, ∀ b ∈ (s.frame i).bindings, b.2.Placed s.size

/-! ## Chains -/

theorem chainFrom_succ_of_none (ho : (s.frame i).outer = none) (n : Nat) :
    s.chainFrom (n + 1) i = [i] := by
  rw [chainFrom, ho]

theorem chainFrom_succ_of_some (ho : (s.frame i).outer = some o) (n : Nat) :
    s.chainFrom (n + 1) i = i :: s.chainFrom n o := by
  rw [chainFrom, ho]

theorem chainFrom_eq_take {n k : Nat} (h : n ≤ k) (i : ScopeId) :
    s.chainFrom n i = (s.chainFrom k i).take n := by
  induction n generalizing k i with
  | zero => rfl
  | succ n ih =>
    obtain ⟨k, rfl⟩ : ∃ l, k = l + 1 := ⟨k - 1, by omega⟩
    cases ho : (s.frame i).outer with
    | none => simp [chainFrom_succ_of_none ho]
    | some o =>
      rw [chainFrom_succ_of_some ho, chainFrom_succ_of_some ho, List.take_succ_cons,
        ← ih (by omega) o]

theorem isOuter_of_mem_chainFrom {n : Nat} (h : j ∈ s.chainFrom n i) :
    ReflTransGen s.IsOuter j i := by
  induction n generalizing i with
  | zero => cases h
  | succ n ih =>
    cases ho : (s.frame i).outer with
    | none =>
      rw [chainFrom_succ_of_none ho, List.mem_singleton] at h
      rw [h]
    | some o =>
      rw [chainFrom_succ_of_some ho, List.mem_cons] at h
      rcases h with rfl | h
      · exact .refl
      · exact (ih h).tail ho

theorem chainFrom_congr {bound : Nat}
    (hclosed : ∀ i o : Nat, (s.frame i).outer = some o → o < bound)
    (houter : ∀ i : Nat, i < bound → (t.frame i).outer = (s.frame i).outer) (hi : i < bound)
    (n : Nat) : t.chainFrom n i = s.chainFrom n i := by
  induction n generalizing i with
  | zero => rfl
  | succ n ih =>
    cases ho : (s.frame i).outer with
    | none => rw [chainFrom_succ_of_none ho, chainFrom_succ_of_none ((houter i hi).trans ho)]
    | some o =>
      rw [chainFrom_succ_of_some ho, chainFrom_succ_of_some ((houter i hi).trans ho),
        ih (hclosed i o ho)]

theorem lt_of_mem_chainFrom {bound : Nat}
    (hclosed : ∀ i o : Nat, (s.frame i).outer = some o → o < bound) (hi : i < bound) {n : Nat}
    (h : j ∈ s.chainFrom n i) : j < bound := by
  induction n generalizing i with
  | zero => cases h
  | succ n ih =>
    cases ho : (s.frame i).outer with
    | none =>
      rw [chainFrom_succ_of_none ho, List.mem_singleton] at h
      rwa [h]
    | some o =>
      rw [chainFrom_succ_of_some ho, List.mem_cons] at h
      rcases h with rfl | h
      · exact hi
      · exact ih (hclosed i o ho) h

theorem lookup_push_of_outer (hclosed : ∀ i o : Nat, (s.frame i).outer = some o → o < s.size)
    {f : Frame} (ho : f.outer = some o) (hlt : o < s.size) (hname : f.binds name = false) :
    (s.push f).lookup s.size name = s.lookup o name := by
  have hframe : ∀ i : Nat, i < s.size → (s.push f).frame i = s.frame i := fun i hi =>
    frame_push_of_ne f (Nat.ne_of_lt hi)
  have hchain : (s.push f).chain s.size = s.size :: s.chain o := by
    rw [chain, size_push, chainFrom, frame_push_self, ho]
    exact congrArg (s.size :: ·)
      (chainFrom_congr hclosed (fun i hi => by rw [hframe i hi]) hlt s.size)
  have hold : ∀ i ∈ s.chain o, (s.push f).frame i = s.frame i := fun i hi =>
    hframe i (lt_of_mem_chainFrom hclosed hlt hi)
  have hfind : (s.push f).find? s.size name = s.find? o name := by
    rw [find?, hchain, List.find?_cons, frame_push_self, hname]
    exact List.find?_congr fun i hi => by rw [hold i hi]
  rw [lookup, lookup, hfind]
  cases hi : s.find? o name with
  | none => rfl
  | some i => rw [Option.bind_some, Option.bind_some, hold i (List.mem_of_find?_eq_some hi)]

namespace Grounded

theorem chainFrom_nodup (hs : s.Grounded) (n : Nat) (i : ScopeId) : (s.chainFrom n i).Nodup := by
  induction n generalizing i with
  | zero => exact List.nodup_nil
  | succ n ih =>
    cases ho : (s.frame i).outer with
    | none => rw [chainFrom_succ_of_none ho]; exact List.nodup_singleton i
    | some o =>
      rw [chainFrom_succ_of_some ho, List.nodup_cons]
      refine ⟨fun hmem => ?_, ih o⟩
      have hcycle : TransGen s.IsOuter i i := .tail' (isOuter_of_mem_chainFrom hmem) ho
      exact hs.wellFounded.transGen.irrefl.irrefl i hcycle

theorem chain_nodup (hs : s.Grounded) (i : ScopeId) : (s.chain i).Nodup := hs.chainFrom_nodup _ i

/-- **A chain is whole**: more steps than there are scopes add nothing to it. -/
theorem chainFrom_eq_chain (hs : s.Grounded) (hi : i < s.size) {n : Nat} (hn : s.size ≤ n) :
    s.chainFrom n i = s.chain i := by
  have hsub : s.chainFrom n i ⊆ List.range s.size := fun j hj =>
    List.mem_range.2 (lt_of_mem_chainFrom hs.outer_lt hi hj)
  have hlen : (s.chainFrom n i).length ≤ s.size := by
    simpa using (List.subperm_of_subset (hs.chainFrom_nodup n i) hsub).length_le
  rw [chain, chainFrom_eq_take hn, List.take_of_length_le hlen]

theorem push (hs : s.Grounded) {f : Frame} (ho : ∀ o : Nat, f.outer = some o → o < s.size)
    (hf : ∀ b ∈ f.bindings, b.2.Placed s.size) : (s.push f).Grounded := by
  have houter : ∀ i o : Nat, ((s.push f).frame i).outer = some o → o < s.size := by
    intro i o hio
    by_cases hi : i = s.size
    · subst hi
      rw [frame_push_self] at hio
      exact ho o hio
    · rw [frame_push_of_ne f hi] at hio
      exact hs.outer_lt i o hio
  -- the scopes that were there are as far from the end as before, and the new one is one step away
  have hold : ∀ i : Nat, i ≠ s.size → Acc (s.push f).IsOuter i := by
    intro i
    induction i using hs.wellFounded.induction with
    | _ i ih =>
    intro hi
    refine .intro i fun o hio => ?_
    have hne : o ≠ s.size := Nat.ne_of_lt (houter i o hio)
    rw [IsOuter, frame_push_of_ne f hi] at hio
    exact ih o hio hne
  refine ⟨fun i o hio => ?_, ⟨fun i => ?_⟩, fun i b hb => ?_⟩
  · rw [size_push]
    exact Nat.lt_succ_of_lt (houter i o hio)
  · by_cases hi : i = s.size
    · exact .intro i fun o hio => hold o (Nat.ne_of_lt (houter i o hio))
    · exact hold i hi
  · rw [size_push]
    by_cases hi : i = s.size
    · subst hi
      rw [frame_push_self] at hb
      exact (hf b hb).mono (Nat.le_succ _)
    · rw [frame_push_of_ne f hi] at hb
      exact (hs.placed i b hb).mono (Nat.le_succ _)

theorem bind (hs : s.Grounded) (hscope : scope < s.size) (hv : value.Placed s.size) :
    (s.bind scope name value).Grounded := by
  have hsame : (s.bind scope name value).IsOuter = s.IsOuter := by
    funext o i
    rw [IsOuter, IsOuter, outer_bind]
  refine ⟨fun i o hio => ?_, by rw [hsame]; exact hs.wellFounded, fun i b hb => ?_⟩
  · rw [outer_bind] at hio
    rw [size_bind]
    exact hs.outer_lt i o hio
  · rw [bindings_bind hscope, List.mem_append] at hb
    rw [size_bind]
    rcases hb with hb | hb
    · exact hs.placed i b hb
    · split_ifs at hb
      · rw [List.mem_singleton] at hb
        subst hb
        exact hv
      · cases hb

theorem placed_of_lookup (hs : s.Grounded) (h : s.lookup i name = some v) : v.Placed s.size := by
  obtain ⟨j, -, hmem⟩ := exists_mem_of_lookup h
  exact hs.placed j _ hmem

end Grounded

/-- The stores of sessions are such graphs: their scopes lie in older ones. -/
theorem Sound.grounded (hs : s.Sound) : s.Grounded where
  outer_lt _ _ ho := Nat.lt_trans (hs.outer_some ho).1 (hs.outer_some ho).2
  wellFounded := Subrelation.wf (fun ho => (hs.outer_some ho).1) Nat.lt_wfRel.wf
  placed i b hb _ hj := (hs.values i b hb).closureScope_lt hj

end Store

/-! ## Runs -/

/-- The changes that can be made to a graph: a new scope lies inside one that is there, or inside
none; a name is bound once in a scope; and what is bound refers to scopes that are there. -/
def Change.Possible (s : Store) : Change → Prop
  | made f => (∀ o : Nat, f.outer = some o → o < s.size) ∧ ∀ b ∈ f.bindings, b.2.Placed s.size
  | bound scope name value =>
    scope < s.size ∧ (s.frame scope).binds name = false ∧ value.Placed s.size

namespace Store

/-- A graph becomes another one by possible changes. -/
def Run : Store → Store → Prop := ReflTransGen fun s t => ∃ c : Change, c.Possible s ∧ c.apply s = t

variable {s t : Store} {i scope : Nat} {name m : Symbol} {value v : Term}

theorem Grounded.apply (hs : s.Grounded) {c : Change} (hc : c.Possible s) :
    (c.apply s).Grounded := by
  cases c with
  | made f => exact hs.push hc.1 hc.2
  | bound scope name value => exact hs.bind hc.1 hc.2.2

theorem get?_bind (hscope : scope < s.size) :
    ((s.bind scope name value).frame i).get? m =
      ((s.frame i).get? m).or (if i = scope ∧ m = name then some value else none) := by
  rw [Frame.get?, Frame.get?, bindings_bind hscope, List.lookup_append]
  congr 1
  by_cases hi : i = scope
  · by_cases hm : m = name
    · simp [hi, hm]
    · have hne : (m == name) = false := beq_false_of_ne hm
      simp [hi, hm, List.lookup_cons, hne]
  · simp [hi]

namespace Run

theorem made {f : Frame} (ho : ∀ o : Nat, f.outer = some o → o < s.size)
    (hf : ∀ b ∈ f.bindings, b.2.Placed s.size) : s.Run (s.push f) :=
  .single ⟨.made f, ⟨ho, hf⟩, rfl⟩

theorem bound (hscope : scope < s.size) (hnew : (s.frame scope).binds name = false)
    (hv : value.Placed s.size) : s.Run (s.bind scope name value) :=
  .single ⟨.bound scope name value, ⟨hscope, hnew, hv⟩, rfl⟩

/-- **The way out of every scope ends after every run.** -/
theorem grounded (h : s.Run t) (hs : s.Grounded) : t.Grounded := by
  induction h with
  | refl => exact hs
  | tail _ hstep ih =>
    obtain ⟨c, hc, rfl⟩ := hstep
    exact ih.apply hc

theorem size_le (h : s.Run t) : s.size ≤ t.size := by
  induction h with
  | refl => exact Nat.le_refl _
  | tail _ hstep ih =>
    obtain ⟨c, -, rfl⟩ := hstep
    cases c with
    | made f => rw [Change.apply_made, size_push]; omega
    | bound scope name value => rwa [Change.apply_bound, size_bind]

theorem outer_eq (h : s.Run t) (hi : i < s.size) : (t.frame i).outer = (s.frame i).outer := by
  induction h with
  | refl => rfl
  | tail h hstep ih =>
    obtain ⟨c, -, rfl⟩ := hstep
    cases c with
    | made f =>
      have := size_le h
      rw [Change.apply_made, frame_push_of_ne f (by omega), ih]
    | bound scope name value => rw [Change.apply_bound, outer_bind, ih]

/-- **A value that is found in a scope is found there forever.** -/
theorem get?_of_some (h : s.Run t) (hv : (s.frame i).get? m = some v) :
    (t.frame i).get? m = some v := by
  induction h with
  | refl => exact hv
  | @tail t u h hstep ih =>
    obtain ⟨c, hc, rfl⟩ := hstep
    cases c with
    | made f =>
      have hi : i ≠ t.size := by
        rintro rfl
        rw [frame_of_size_le (Nat.le_refl _)] at ih
        cases ih
      rw [Change.apply_made, frame_push_of_ne f hi, ih]
    | bound scope name value => rw [Change.apply_bound, get?_bind hc.1, ih, Option.some_or]

/-- **The chain of a scope never changes.** -/
theorem chain_eq (h : s.Run t) (hs : s.Grounded) (hi : i < s.size) : t.chain i = s.chain i := by
  rw [chain, chainFrom_congr hs.outer_lt (fun _ => h.outer_eq) hi,
    hs.chainFrom_eq_chain hi h.size_le]

end Run

end Store

/-! ## Evaluation -/

theorem Term.placed_of_closureScope?_eq_none {v : Term} (h : v.closureScope? = none) (n : Nat) :
    v.Placed n := by
  intro j hj
  rw [h] at hj
  cases hj

theorem Builtin.placed_of_call {b : Builtin} {args : List Term} {v : Term}
    (h : b.call args = .ok v) (n : Nat) : v.Placed n := fun _ hj =>
  (isValue_of_call h n).closureScope_lt hj

namespace Activation

/-- An evaluation in a scope that is there, in a graph in which the way out of every scope ends. -/
structure Grounded (a : Activation) : Prop where
  store : a.store.Grounded
  scope_lt : a.scope < a.store.size

/-- The graph has come from that of an evaluation by possible changes, and the values refer to
scopes that are there. -/
structure Running (a : Activation) (p : Progress) : Prop where
  run : a.opened.Run p.store
  values : ∀ v ∈ p.values, v.Placed p.store.size

variable {a b : Activation} {p : Progress}

theorem Grounded.opened (ha : a.Grounded) :
    a.store.Run a.opened ∧ a.inner < a.opened.size ∧ a.scope < a.opened.size := by
  cases ho : a.opens with
  | true =>
    rw [opened_of_opens ho, inner_of_opens ho]
    refine ⟨.made ?_ (by simp), by simp, ?_⟩
    · rintro o ⟨⟩
      exact ha.scope_lt
    · rw [Store.size_push]
      exact Nat.lt_succ_of_lt ha.scope_lt
  | false =>
    rw [opened_of_not_opens ho, inner_of_not_opens ho]
    exact ⟨.refl, ha.scope_lt, ha.scope_lt⟩

namespace Running

theorem grounded (h : a.Running p) (ha : a.Grounded) : p.store.Grounded :=
  h.run.grounded (ha.opened.1.grounded ha.store)

theorem inner_lt (h : a.Running p) (ha : a.Grounded) : a.inner < p.store.size :=
  Nat.lt_of_lt_of_le ha.opened.2.1 h.run.size_le

theorem scope_lt (h : a.Running p) (ha : a.Grounded) : a.scope < p.store.size :=
  Nat.lt_of_lt_of_le ha.opened.2.2 h.run.size_le

end Running

end Activation

section Evaluation

variable {alive : Liveness} (halive : ∀ h s i, alive h s i = true → i < s.size)
include halive

theorem Term.Enters.possible {held : Held} {s : Store} {fn body : Term} {params : List Symbol}
    {o : ScopeId} {args : List Term} (h : fn.Enters alive held s params body o)
    (hfn : fn.Placed s.size) (hargs : ∀ v ∈ args, v.Placed s.size) :
    (Change.made (Frame.ofRecords (params.zip args) (some o))).Possible s := by
  refine ⟨?_, fun b => Frame.snd_of_mem_ofRecords fun r hr => hargs r.2 (List.of_mem_zip hr).2⟩
  rintro o' ⟨⟩
  cases h with
  | closure => exact hfn o rfl
  -- a scope that lives is there, so nothing has to be known of a named function
  | named _ _ _ hlives => exact halive held s o hlives

namespace Activation

variable {a b : Activation} {p : Progress}

theorem Running.possible (h : a.Running p) {fn : Term} {args : List Term}
    (hvalues : p.values = fn :: args) {held : Held} {params : List Symbol} {body : Term}
    {o : ScopeId} (henters : fn.Enters alive held p.store params body o) :
    (Change.made (Frame.ofRecords (params.zip args) (some o))).Possible p.store := by
  have hplaced := h.values
  rw [hvalues] at hplaced
  obtain ⟨hfn, hargs⟩ := List.forall_mem_cons.1 hplaced
  exact henters.possible halive hfn hargs

/-- **The steps of an evaluation make possible changes only.** -/
theorem running : Invariant alive Grounded Running fun a =>
    Leaves a.store.Run fun v t => v.Placed t.size where
  begins _ := ⟨.refl, by simp⟩
  part ha _ hp hstart := ⟨hstart.store ▸ hp.grounded ha, by
    rw [hstart.scope, hstart.store]
    exact hp.inner_lt ha⟩
  gives := by
    rintro a b p j v t - - hp hstart ⟨hb, hv⟩
    rw [hstart.store] at hb
    refine ⟨hp.run.trans hb, List.forall_mem_append.2 ⟨fun w hw => ?_, ?_⟩⟩
    · exact (hp.values w hw).mono hb.size_le
    · exact List.forall_mem_singleton.2 hv
  faults ha _ hp hstart hb := ha.opened.1.trans (hp.run.trans (hstart.store ▸ hb))
  body := by
    rintro a b p fn ha - hp ⟨-, hvalues, -, henters⟩
    have hmade := hp.possible halive hvalues henters
    exact ⟨(hp.grounded ha).apply hmade, by simp⟩
  ends := by
    rintro a b p fn r ha - hp ⟨-, hvalues, -, henters⟩ hb
    refine hb.mono (fun t ht => ?_) fun _ _ _ hv => hv
    have hmade := hp.possible halive hvalues henters
    exact ha.opened.1.trans (hp.run.trans ((Store.Run.made hmade.1 hmade.2).trans ht))
  raises _ ha _ hp := ha.opened.1.trans hp.run
  returns := by
    intro a p v t ha _ hp hreturns _
    have hrun := ha.opened.1.trans hp.run
    cases hreturns with
    | atom hterm _ =>
      refine ⟨hrun, Term.placed_of_closureScope?_eq_none ?_ _⟩
      rcases hterm with ⟨b, hterm⟩ | ⟨n, hterm⟩ <;> rw [hterm] <;> rfl
    | found _ _ h => exact ⟨hrun, (hp.grounded ha).placed_of_lookup h⟩
    | builtin _ _ _ h => exact ⟨hrun, Builtin.placed_of_call h _⟩
    | last hvalues _ _ => exact ⟨hrun, hp.values _ (by simp [hvalues])⟩
    | bound _ _ _ hvalues hnew =>
      have hv : v.Placed p.store.size := hp.values v (by simp [hvalues])
      have hbind := Store.Run.bound (hp.scope_lt ha) hnew hv
      exact ⟨hrun.trans hbind, hv.mono hbind.size_le⟩
    | @defined head target list body name params _ _ _ _ _ hnew =>
      have hv : (Term.named name params body a.scope).Placed p.store.size :=
        Term.placed_of_closureScope?_eq_none rfl _
      have hbind := Store.Run.bound (hp.scope_lt ha) hnew hv
      exact ⟨hrun.trans hbind, hv.mono hbind.size_le⟩
    | made _ _ _ _ =>
      refine ⟨hrun, ?_⟩
      rintro j ⟨⟩
      exact hp.scope_lt ha

end Activation

theorem evaluateWith_runs (limit : Nat) (held : Held) {scope : Nat} (e : Term) {s : Store}
    (hs : s.Grounded) (hscope : scope < s.size) :
    Leaves s.Run (fun v t => v.Placed t.size) (evaluateWith alive limit held scope e s) :=
  (Activation.running halive).run (a := ⟨limit, held, scope, e, s⟩) ⟨hs, hscope⟩

end Evaluation

theorem lt_size_of_keepsAlive (h : Held) (s : Store) (i : ScopeId)
    (hi : h.keepsAlive s i = true) : i < s.size :=
  (Held.keepsAlive_iff.1 hi).1

/-- **An evaluation changes a graph by possible changes only**, whatever the term is and however it
ends. -/
theorem evaluate_run {s : Store} (hs : s.Grounded) {scope : Nat} (hscope : scope < s.size)
    (limit : Nat) (held : Held) (e : Term) :
    s.Run ((evaluate limit held scope e).storeAfter s) :=
  (evaluateWith_runs lt_size_of_keepsAlive limit held e hs hscope).storeAfter

/-- **So does a call.** -/
theorem apply_run {s : Store} (hs : s.Grounded) {fn : Term} {args : List Term}
    (hfn : fn.Placed s.size) (hargs : ∀ v ∈ args, v.Placed s.size) (limit : Nat) (held : Held) :
    s.Run ((apply limit held fn args).storeAfter s) := by
  by_cases hisfn : fn.isFunction = true
  · rcases Term.applyWith_cases Held.keepsAlive (evaluate limit) held s args hisfn with
      ⟨params, body, o, -, henters, hrun⟩ | ⟨b, v, -, -, hrun⟩ | ⟨e, -, hrun⟩
    · have hmade := henters.possible lt_size_of_keepsAlive hfn hargs
      have hlt : s.size < (s.push (Frame.ofRecords (params.zip args) (some o))).size := by simp
      have hbody := evaluateWith_runs lt_size_of_keepsAlive limit held body (hs.apply hmade) hlt
      rw [apply, Eval.storeAfter, hrun]
      exact (Store.Run.made hmade.1 hmade.2).trans hbody.storeAfter
    · rw [apply, Eval.storeAfter_of_ok hrun]
      exact .refl
    · rw [apply, Eval.storeAfter_of_error hrun]
      exact .refl
  · have hrun : apply limit held fn args s = .error (.error .notFunction) s := by
      cases fn <;> first | rfl | exact absurd rfl hisfn
    rw [Eval.storeAfter_of_error hrun]
    exact .refl

end ScopedLisp
