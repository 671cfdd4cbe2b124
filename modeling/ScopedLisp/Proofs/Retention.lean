import ScopedLisp.Proofs.Counting
import ScopedLisp.Proofs.Occurrences

/-!
# Retention

The outermost scope retains other scopes so that cycles of scopes stay alive. It retains no scope
for which that is not needed.

* `Store.Keeps`: a scope keeps the one around it and those of the closures bound in it;
* `Store.cycle_of_owns`: a scope to which a new binding leads back is on a cycle;
* `Store.RetainsCycles`: only scopes on cycles are retained;
* `Store.RetainsCycles.apply`: every change keeps that;
* `Term.hasLambda`: whether a term holds a form that makes a closure;
* **`Session.Initial.retention`**: what is retained at the moments of a session.
-/

namespace ScopedLisp

open Relation

namespace Store

variable {s t : Store} {scope i j : Nat} {name : Symbol} {value : Term}

/-! ## Cycles of scopes -/

/-- A scope keeps another one: it lies inside of it, or binds a closure over it. -/
inductive Keeps (s : Store) (i : ScopeId) : ScopeId → Prop
  | outer {j : ScopeId} (h : (s.frame i).outer = some j) : Keeps s i j
  | closure {name : Symbol} {params : List Symbol} {body : Term} {j : ScopeId}
      (h : (name, .closure params body j) ∈ (s.frame i).bindings) : Keeps s i j

/-- An ownership search follows what scopes keep. -/
theorem mem_ownershipLinks_iff : j ∈ s.ownershipLinks i ↔ s.Keeps i j := by
  unfold ownershipLinks Frame.closureScopes
  rw [List.mem_append, Option.mem_toList, List.mem_filterMap]
  constructor
  · rintro (h | ⟨⟨name, v⟩, hb, hv⟩)
    · exact .outer h
    · cases v with
      | closure params body scope =>
        cases hv
        exact .closure hb
      | _ => cases hv
  · rintro (h | h)
    · exact .inl h
    · exact .inr ⟨_, h, rfl⟩

theorem Keeps.mono (h : s.Keeps i j) (houter : (t.frame i).outer = (s.frame i).outer)
    (hbindings : (s.frame i).bindings ⊆ (t.frame i).bindings) : t.Keeps i j := by
  cases h with
  | outer h => exact .outer (houter.trans h)
  | closure h => exact .closure (hbindings h)

theorem Keeps.push (h : s.Keeps i j) (f : Frame) : (s.push f).Keeps i j := by
  have hi : i ≠ s.size := by
    rintro rfl
    rw [← mem_ownershipLinks_iff, ownershipLinks_eq_nil (Nat.le_refl _)] at h
    cases h
  have hframe := frame_push_of_ne f hi
  exact h.mono (by rw [hframe]) (by rw [hframe]; exact List.Subset.refl _)

theorem Keeps.extend (h : s.Keeps i j) (hscope : scope < s.size) :
    (s.modify scope (·.extend name value)).Keeps i j := by
  refine h.mono outer_extend ?_
  rw [bindings_extend hscope]
  exact List.subset_append_left _ _

theorem Keeps.bind (h : s.Keeps i j) (hscope : scope < s.size) :
    (s.bind scope name value).Keeps i j := by
  refine h.mono outer_bind ?_
  rw [bindings_bind hscope]
  exact List.subset_append_left _ _

/-- **If a search from the value comes back to the scope, the binding closes a cycle.** -/
theorem cycle_of_owns (hscope : scope < s.size)
    (howns : (s.modify scope (·.extend name value)).owns scope value = true) :
    TransGen (s.bind scope name value).Keeps scope scope := by
  cases value with
  | closure params body start =>
    obtain ⟨-, r, hr, hpath⟩ := (reaches_iff fun _ => ownershipLinks_eq_nil).1 howns
    rw [List.mem_singleton] at hr
    subst hr
    -- the way back, and before it the new binding
    have hback : ReflTransGen (s.bind scope name (.closure params body r)).Keeps r scope := by
      refine hpath.lift id fun i j hij => ?_
      rwa [← ownershipLinks_bind, mem_ownershipLinks_iff] at hij
    have hbound : (name, Term.closure params body r) ∈
        ((s.bind scope name (.closure params body r)).frame scope).bindings := by
      rw [bindings_bind hscope, if_pos rfl]
      exact List.mem_append_right _ (List.mem_singleton.2 rfl)
    exact .head' (.closure hbound) hback
  | _ => cases howns

theorem Sound.not_cycle (hs : s.Sound) (hplain : s.Holds (·.closureScope? = none)) :
    ¬ TransGen s.Keeps i i := by
  have hlt : ∀ i j : Nat, s.Keeps i j → j < i := by
    intro i j h
    cases h with
    | outer h => exact (hs.outer_some h).1
    | closure h => cases hplain i _ h
  have hpath : ∀ i j : Nat, TransGen s.Keeps i j → j < i := by
    intro i j h
    induction h with
    | single h => exact hlt _ _ h
    | tail _ h ih => exact Nat.lt_trans (hlt _ _ h) ih
  exact fun h => Nat.lt_irrefl _ (hpath i i h)

/-! ## What is retained -/

/-- The scopes that the outermost one retains are others, and each of them is on a cycle. -/
def RetainsCycles (s : Store) : Prop :=
  ∀ i ∈ (s.frame 0).retained, i ≠ 0 ∧ TransGen s.Keeps i i

namespace RetainsCycles

theorem mono (h : s.RetainsCycles) (hret : (t.frame 0).retained = (s.frame 0).retained)
    (hkeeps : ∀ i j, s.Keeps i j → t.Keeps i j) : t.RetainsCycles := by
  intro i hi
  rw [hret] at hi
  exact ⟨(h i hi).1, TransGen.mono hkeeps i i (h i hi).2⟩

theorem push (h : s.RetainsCycles) (hs : s.Sound) (f : Frame) : (s.push f).RetainsCycles := by
  have hzero : (s.push f).frame 0 = s.frame 0 := frame_push_of_ne f (by have := hs.nonempty; omega)
  exact h.mono (by rw [hzero]) fun i j hij => hij.push f

theorem extend (h : s.RetainsCycles) (hscope : scope < s.size) :
    (s.modify scope (·.extend name value)).RetainsCycles :=
  h.mono retained_extend fun _ _ hij => hij.extend hscope

theorem bind (h : s.RetainsCycles) (hs : s.Sound) (hscope : scope < s.size)
    (hval : value.IsValue s.size) : (s.bind scope name value).RetainsCycles := by
  have hold : ∀ i ∈ (s.frame 0).retained, i ≠ 0 ∧ TransGen (s.bind scope name value).Keeps i i :=
    fun i hi => ⟨(h i hi).1, TransGen.mono (fun _ _ hij => hij.bind hscope) i i (h i hi).2⟩
  intro i hi
  rw [hs.retained_bind hscope hval] at hi
  split_ifs at hi with hnew
  · rcases Frame.mem_insertScope.1 hi with rfl | hi
    · exact ⟨hnew.2.1, cycle_of_owns hscope hnew.2.2⟩
    · exact hold i hi
  · exact hold i hi

/-- **What one change keeps.** -/
theorem apply (h : s.RetainsCycles) (hs : s.Sound) {c : Change} (hc : c.Allowed s) :
    (c.apply s).RetainsCycles := by
  cases c with
  | made f => exact h.push hs f
  | bound scope name value => exact h.bind hs hc.1 hc.2.2

/-- **What a history keeps.** -/
theorem history {cs : List Change} (h : s.RetainsCycles) (hs : s.Sound) (hist : s.History cs t) :
    t.RetainsCycles :=
  hist.preserves (fun _ _ hs h hc => h.apply hs hc) hs h

end RetainsCycles

end Store

theorem Moment.Follows.retainsCycles {s : Store} {m : Moment} (h : m.Follows s) (hs : s.Sound)
    (hcycles : s.RetainsCycles) : m.store.RetainsCycles := by
  obtain ⟨cs, t, hist, heq | ⟨scope, name, value, -, hallowed, heq⟩⟩ := h.store
  · rw [heq]
    exact hcycles.history hs hist
  · rw [heq]
    exact (hcycles.history hs hist).extend hallowed.1

/-! ## Programs without closures -/

namespace Term

/-- Whether the term is a form that makes a closure. -/
def isLambda : Term → Bool
  | list [head, params, _] =>
    decide (Keyword.ofTerm? head = some .lambda) && (paramNames params).isOk
  | _ => false

mutual

/-- Whether the term is or holds a form that makes a closure. -/
def hasLambda : Term → Bool
  | list items => isLambda (list items) || anyHasLambda items
  | _ => false

/-- Whether one of the terms does. -/
def anyHasLambda : List Term → Bool
  | [] => false
  | e :: es => hasLambda e || anyHasLambda es

end

theorem anyHasLambda_of_mem {e : Term} {es : List Term} (h : e ∈ es) (he : e.hasLambda = true) :
    anyHasLambda es = true := by
  induction es with
  | nil => cases h
  | cons e' es ih =>
    rw [anyHasLambda, Bool.or_eq_true]
    rcases List.mem_cons.1 h with rfl | h
    · exact .inl he
    · exact .inr (ih h)

theorem hasLambda_of_isLambda {e : Term} (h : e.isLambda = true) : e.hasLambda = true := by
  cases e with
  | list items => rw [hasLambda, h, Bool.true_or]
  | _ => cases h

theorem hasLambda_of_part? {e part : Term} {j : Nat} (h : e.part? j = some part)
    (hpart : part.hasLambda = true) : e.hasLambda = true := by
  cases e with
  | list items =>
    rw [hasLambda, anyHasLambda_of_mem (List.mem_of_getElem? h) hpart, Bool.or_true]
  | _ => cases h

end Term

theorem Occurrence.hasLambda_of_term? {sources : List String}
    (hsources : ∀ source ∈ sources, ∀ e, Term.parse source = .ok e → e.hasLambda = false)
    {o : Occurrence} {e : Term} (h : o.term? sources = some e) : e.hasLambda = false := by
  refine Occurrence.of_term? (P := fun e => e.hasLambda = false) (fun e he => ?_)
    (fun whole part j hwhole hpart => ?_) h
  · obtain ⟨source, hsource, hparse⟩ := mem_programs.1 he
    exact hsources source hsource e hparse
  · by_contra he
    rw [Bool.not_eq_false] at he
    rw [Term.hasLambda_of_part? hpart he] at hwhole
    cases hwhole

namespace Session

variable {session : Session} {limit : Nat} {sources : List String}

theorem Initial.retainsCycles (hs : session.Initial) : session.store.RetainsCycles := by
  intro i hi
  rw [hs.retained_eq] at hi
  cases hi

theorem Initial.holds_of_hasLambda (hs : session.Initial)
    (hsources : ∀ source ∈ sources, ∀ e, Term.parse source = .ok e → e.hasLambda = false)
    {m : Moment} (hm : session.Passes limit sources m) :
    m.store.Holds (·.closureScope? = none) := by
  have hplain : ∀ v : Term, v.IsValue 0 → v.closureScope? = none := by
    intro v hv
    rw [Option.eq_none_iff_forall_ne_some]
    exact fun i hi => Nat.not_lt_zero i (hv.closureScope_lt hi)
  refine (hs.tracked hplain fun a fn t j params e ha hrun hregion => ?_).1 m hm
  obtain ⟨head, list, hparams, ⟨hk, hterm, -, -⟩ | ⟨target, name, -, -, -, -, rfl⟩⟩ :=
    Activation.of_run_of_region? hrun hregion
  · obtain ⟨o, ho⟩ := ha.located hs.fresh.toSound hs.holds
    have hnone := Occurrence.hasLambda_of_term? hsources ho.term?_eq
    have hlambda : a.term.isLambda = true := by
      rw [hterm, Term.isLambda, hk, hparams]
      rfl
    rw [Term.hasLambda_of_isLambda hlambda] at hnone
    cases hnone
  · rfl

/-- **Retention is never gratuitous.** At every moment of a session each scope that the outermost
one retains lies on a cycle, and every cycle has a retained scope on it unless the outermost scope
or one in use is on it. -/
theorem Initial.retention (hs : session.Initial) (limit : Nat) (sources : List String) :
    (∀ m, session.Passes limit sources m →
      (∀ i ∈ (m.store.frame session.root).retained, i ≠ session.root ∧
        m.store.root i = session.root ∧ TransGen m.store.Keeps i i) ∧
      (∀ i, i ≠ session.root → (m.store.frame i).retained = []) ∧
      ∀ i, ¬ TransGen (fun j k => j ≠ session.root ∧ j ∉ m.held.scopes ∧
        j ∉ (m.store.frame session.root).retained ∧ m.store.Keeps j k) i i) ∧
    ((∀ source ∈ sources, ∀ e, Term.parse source = .ok e → e.hasLambda = false) →
      ∀ m, session.Passes limit sources m → ∀ i, (m.store.frame i).retained = []) := by
  have hfresh := hs.fresh
  have hmoment : ∀ m, session.Passes limit sources m → m.store.Sound ∧ m.store.RetainsCycles := by
    intro m hm
    have hfollows := hm.follows hfresh.toSound
    exact ⟨hfollows.sound hfresh.store, hfollows.retainsCycles hfresh.store hs.retainsCycles⟩
  rw [hs.root_eq]
  constructor
  · intro m hm
    obtain ⟨hsound, hcycles⟩ := hmoment m hm
    refine ⟨fun i hi => ⟨(hcycles i hi).1, hsound.root_eq (hsound.retained_lt i hi),
      (hcycles i hi).2⟩, hsound.retained_ne, fun i hcycle => ?_⟩
    have hacyclic := (hm.follows hfresh.toSound).acyclicOff hfresh.store hfresh.anchored
    refine hacyclic i (TransGen.mono ?_ i i hcycle)
    rintro j k ⟨hroot, hheld, hret, hkeeps⟩
    exact ⟨by simp [Store.IsAnchor, hroot, hheld, hret], Store.mem_ownershipLinks_iff.2 hkeeps⟩
  · intro hsources m hm i
    obtain ⟨hsound, hcycles⟩ := hmoment m hm
    have hplain := hs.holds_of_hasLambda hsources hm
    by_cases hi : i = 0
    · subst hi
      rw [List.eq_nil_iff_forall_not_mem]
      exact fun j hj => hsound.not_cycle hplain (hcycles j hj).2
    · exact hsound.retained_ne i hi

/-- The block of `g` is on a cycle through the block inside of it, and is retained; that block and
the last one are not. A named function that is bound in its own scope makes no cycle. -/
theorem retention_nested :
    (∃ sources store, (start.run 9 sources).2.store = store ∧
      sources = ["(let g (do (let c (do (fn () 1))) (defn inner () 3) inner))", "(do (let x 1))"] ∧
      store.size = 4 ∧ (store.frame 0).retained = [1] ∧ store.root 1 = 0 ∧
      TransGen store.Keeps 1 1) ∧
    ∀ m, start.Passes 9 ["(do (defn f (n) n) (let x (f 1)))"] m →
      ∀ i, (m.store.frame i).retained = [] := by
  constructor
  · obtain ⟨sources, hsources⟩ : ∃ sources, sources =
      ["(let g (do (let c (do (fn () 1))) (defn inner () 3) inner))", "(do (let x 1))"] := ⟨_, rfl⟩
    have hsize : (start.run 9 sources).2.store.size = 4 := by
      rw [hsources]
      decide +kernel
    have hret : ((start.run 9 sources).2.store.frame 0).retained = [1] := by
      rw [hsources]
      decide +kernel
    have hend := (start_initial.retention 9 sources).1 _ (passes_run 9 start sources)
    generalize hstore : (start.run 9 sources).2.store = store at hsize hret hend
    obtain ⟨-, hroot, hcycle⟩ := hend.1 1 (by rw [start_initial.root_eq, hret]; decide)
    exact ⟨sources, store, hstore, hsources, hsize, hret, hroot, hcycle⟩
  · refine (start_initial.retention 9 _).2 fun source hsource e hparse => ?_
    rw [List.mem_singleton.1 hsource] at hparse
    have hnone : ((Term.parse "(do (defn f (n) n) (let x (f 1)))").toOption.all
        fun e => !e.hasLambda) = true := by decide +kernel
    rw [hparse] at hnone
    simpa only [Except.toOption, Option.all_some, Bool.not_eq_true'] using hnone

end Session

end ScopedLisp
