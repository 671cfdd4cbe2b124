import ScopedLisp.Proofs.Separation

/-!
# Temporaries cannot be observed

Whether the scope of a named function lives is asked with all that is in use in view. The answer is
the same when only the scopes of the evaluations in progress are in view, and not the values that
they hold for the moment.

* `Term.temporaries`: the values that an evaluation may still use;
* `Activation.separating`: evaluation keeps what only temporaries keep separated from the rest;
* `Activation.Separate.run_eq`: evaluations under both rules are the same;
* `Session.Sound.reachable_eval`: no scope comes back to life;
* **`Session.runWith_eq_run`**: sessions under both rules are the same.
-/

namespace ScopedLisp

open Held

/-! ## Values in use -/

/-- Those of the given values that the evaluation of a term may still use: all of a call, and the
last one of a form. -/
def Term.temporaries : Term → List Term → List Term
  | list (head :: _), values =>
    match Keyword.ofTerm? head with
    | none => values
    | some _ => values.getLast?.toList
  | _, values => values.getLast?.toList

namespace Term

variable (e : Term) (values : List Term) (v : Term)

theorem temporaries_nil : e.temporaries [] = [] := by
  unfold temporaries
  repeat' split
  all_goals rfl

theorem mem_temporaries_concat : v ∈ e.temporaries (values ++ [v]) := by
  unfold temporaries
  repeat' split
  all_goals simp

theorem temporaries_concat_subset : e.temporaries (values ++ [v]) ⊆ e.kept values ++ [v] := by
  unfold kept temporaries
  repeat' split
  all_goals simp_all

theorem kept_subset : e.kept values ⊆ e.temporaries values := by
  unfold kept temporaries
  repeat' split
  all_goals simp_all

end Term

theorem Held.same_keep_keepAll {h : Held} {v : Term} {values : List Term} :
    ((h.keep v).keepAll values).Same (h.keepAll (v :: values)) := by
  show ((h.keepAll [v]).keepAll values).Same (h.keepAll ([v] ++ values))
  exact same_keepAll_append

namespace Held.After

variable {h : Held} {scope : Nat} {s : Store} {v : Term}

theorem of_isValue (hr : h.Ready scope s) (hv : v.IsValue 0) : h.After scope s [v] s :=
  .of_accessible hr (hv.mono (Nat.zero_le _)) fun _ hi => absurd (hi.lt hv) (Nat.not_lt_zero _)

theorem of_lookup {i : Nat} {name : Symbol} (hr : h.Ready scope s) (hi : i ∈ h.scopes)
    (hl : s.lookup i name = some v) : h.After scope s [v] s := by
  refine .of_accessible hr (hr.sound.isValue_of_lookup hl) fun k hk => ?_
  obtain ⟨j, hpath, hmem⟩ := Store.exists_of_lookup hl (h.Lives s)
  have hj : s.Accessible (h.Lives s) (· ∈ h.scopes) j := ⟨i, hi, hpath⟩
  exact hj.tail (.inr ⟨_, hmem, hk⟩)

/-- **A call asks for nothing that only a temporary keeps**: if the scope of a named function lives,
then the scopes in use reach it, because the function itself keeps nothing. -/
theorem scopesReach_eq {held : Held} {name : Symbol} {params : List Symbol} {body : Term}
    {o : ScopeId} {values : List Term} {t : Store}
    (ha : h.After scope s (.named name params body o :: values) t)
    (hsame : held.Same (h.keepAll (.named name params body o :: values))) :
    held.scopesReach t o = held.keepsAlive t o := by
  have hval := ha.isValue _ List.mem_cons_self
  have hnil : (Term.named name params body o).scopes = [] := hval.scopes_eq
  rw [Bool.eq_iff_iff]
  refine ⟨fun hreach => by simp [keepsAlive, hreach], fun hlives => ?_⟩
  have hlives := (keepsAlive_iff.1 hlives).2.mono fun i => (hsame.references i).1
  have hreach := ha.confined _ List.mem_cons_self o (.of_root ⟨rfl, hlives⟩)
  rw [hnil, List.append_nil] at hreach
  exact scopesReach_iff.2 ⟨hval.2, hreach.mono fun i => (hsame.scopes i).2⟩

end Held.After

/-! ## Evaluation -/

namespace Activation

/-- The term of an evaluation comes from a source text, and at its start nothing that only
temporaries keep has a name. -/
structure Separate (a : Activation) : Prop where
  readable : a.term.Readable
  ready : (a.held.enter a.scope).Ready a.scope a.store

/-- What is in use while the parts of the term are evaluated. -/
def inUse (a : Activation) : Held := (a.held.enter a.scope).enter a.inner

variable {a b : Activation} {p : Progress} {fn v : Term} {t : Store}

theorem Separate.wellFormed (ha : a.Separate) : a.WellFormed :=
  ⟨ha.ready.scope_lt, ha.readable, ha.ready.sound⟩

theorem same_inUse (ho : a.opens = false) : a.inUse.Same (a.held.enter a.scope) := by
  rw [inUse, inner_of_not_opens ho]
  exact same_enter List.mem_cons_self

theorem Separate.block (ha : a.Separate) :
    (Change.made { outer := some a.scope }).Allowed a.store ∧
      After.Provides (a.held.enter a.scope) [] a.store { outer := some a.scope } := by
  refine ⟨⟨⟨a.scope, rfl, ha.ready.scope_lt⟩, rfl, by simp⟩, ?_⟩
  rintro i (houter | ⟨b, hb, -⟩)
  · cases houter
    exact .inl ha.ready.scope_mem
  · cases hb

theorem Separate.opened (ha : a.Separate) : a.inUse.Ready a.inner a.opened := by
  cases ho : a.opens with
  | true =>
    obtain ⟨hf, hmade⟩ := ha.block
    rw [inUse, inner_of_opens ho, opened_of_opens ho]
    exact (After.refl ha.ready).enter hf hmade
  | false =>
    have hready := ha.ready.congr (same_inUse ho)
    rwa [inner_of_not_opens ho, opened_of_not_opens ho]

theorem Separate.close (ha : a.Separate) (h : a.inUse.After a.inner a.opened [v] t) :
    (a.held.enter a.scope).After a.scope a.store [v] t := by
  cases ho : a.opens with
  | true =>
    obtain ⟨hf, hmade⟩ := ha.block
    rw [inUse, inner_of_opens ho, opened_of_opens ho] at h
    exact (After.refl ha.ready).leave hf hmade ha.ready h
  | false =>
    have hafter := h.congr (same_inUse ho).symm
    rwa [inner_of_not_opens ho, opened_of_not_opens ho] at hafter

theorem Separate.close_nil (ha : a.Separate) {values : List Term}
    (h : a.inUse.After a.inner a.opened values t) :
    (a.held.enter a.scope).After a.scope a.store [] t := by
  -- as with any value that keeps no scope
  have hempty := h.mono (List.nil_subset _)
  have hvalue := hempty.trans (.of_isValue hempty.ready (v := .bool true) trivial)
  exact (ha.close hvalue).mono (List.nil_subset _)

/-- The values that an evaluation may still use are separated from the rest. -/
def Separating (a : Activation) (p : Progress) : Prop :=
  a.inUse.After a.inner a.opened (a.term.temporaries p.values) p.store

namespace Separating

theorem part {alive : Liveness} {j : Nat} (hp : a.Separating p) (ha : a.Separate)
    (hstart : a.StartsPart alive p j b) : b.Separate := by
  refine ⟨ha.wellFormed.readable_of_part? hstart.part, ?_⟩
  have hready := (hp.mono (a.term.kept_subset p.values)).ready
  rw [hstart.held, hstart.scope, hstart.store]
  exact hready

theorem after {alive : Liveness} {j : Nat} (hp : a.Separating p)
    (hstart : a.StartsPart alive p j b) {values : List Term}
    (hb : (b.held.enter b.scope).After b.scope b.store values t) :
    a.inUse.After a.inner a.opened (a.term.kept p.values ++ values) t := by
  rw [hstart.held, hstart.scope, hstart.store] at hb
  exact (hp.mono (a.term.kept_subset p.values)).trans hb

theorem call {head : Term} {args : List Term} (hp : a.Separating p)
    (hterm : a.term = .list (head :: args)) (hk : Keyword.ofTerm? head = none) :
    (a.held.enter a.scope).After a.scope a.store p.values p.store := by
  have ho : a.opens = false := opens_eq_false hterm (by simp [hk])
  have hafter := hp.congr (same_inUse ho).symm
  rwa [inner_of_not_opens ho, opened_of_not_opens ho, hterm, Term.temporaries, hk] at hafter

/-- The scope of a call leads where the function and the arguments lead that it was made from. -/
theorem body (hp : a.Separating p) (hstart : a.StartsBody keepsAlive p fn b) :
    ∃ f, b.scope = p.store.size ∧ b.store = p.store.push f ∧ b.term.Readable ∧
      (a.held.enter a.scope).After a.scope a.store p.values p.store ∧
      (Change.made f).Allowed p.store ∧
      After.Provides (a.held.enter a.scope) p.values p.store f ∧
      (b.held.enter b.scope).Same
        (((a.held.enter a.scope).keepAll p.values).enter p.store.size) := by
  obtain @⟨args, params, body, o, hcalls, hvalues, -, henters⟩ := hstart
  obtain ⟨head, es, hterm, hk⟩ := hcalls.call
  have hafter := hp.call hterm hk
  rw [hvalues] at hafter ⊢
  obtain ⟨hfn, hargs⟩ := List.forall_mem_cons.1 hafter.isValue
  obtain ⟨hbody, hf⟩ := henters.allowed hfn hargs
  refine ⟨_, rfl, rfl, hbody, hafter, hf, ?_, same_keep_keepAll.enter _⟩
  rintro i (houter | ⟨b, hb, hi⟩)
  · cases houter
    refine .inr ⟨fn, List.mem_cons_self, ?_⟩
    cases henters with
    | closure =>
      rw [hfn.scopes_eq]
      exact ⟨rfl, fun j hj => .inl (congrArg some (List.mem_singleton.1 hj).symm)⟩
    | named name params body hlives =>
      rw [hfn.scopes_eq]
      have hlives := (keepsAlive_iff.1 hlives).2.mono fun i => (same_keep_keepAll.references i).1
      exact ⟨⟨rfl, hlives⟩, fun _ hj => absurd hj List.not_mem_nil⟩
  · have hmem := Frame.snd_of_mem_ofRecords (fun r hr => (List.of_mem_zip hr).2) hb
    exact .inr ⟨b.2, List.mem_cons_of_mem _ hmem, hi, fun j hj => .inr ⟨b, hb, hj⟩⟩

theorem returns (hp : a.Separating p) (ha : a.Separate) (hreturns : a.Returns p v t) :
    a.inUse.After a.inner a.opened [v] t := by
  have hempty := hp.mono (List.nil_subset _)
  have hscope : a.scope ∈ a.inUse.scopes := List.mem_cons_of_mem _ List.mem_cons_self
  have hlt := hempty.ready.lt a.scope (subset_references hscope)
  cases hreturns with
  | atom hterm _ =>
    exact hempty.trans (.of_isValue hempty.ready (ha.wellFormed.isValue_of_atom hterm 0))
  | found _ _ h => exact hempty.trans (.of_lookup hempty.ready hscope h)
  | builtin _ _ _ h => exact hempty.trans (.of_isValue hempty.ready (Builtin.isValue_of_call h 0))
  | last hvalues _ _ =>
    refine hp.mono (List.cons_subset.2 ⟨?_, List.nil_subset _⟩)
    rw [hvalues]
    exact a.term.mem_temporaries_concat _ v
  | @bound head target e v name hk hterm hname hvalues hnew =>
    have ho : a.opens = false := opens_eq_false hterm (by simp [hk])
    have hlast : a.inUse.After a.inner a.opened [v] p.store := by
      rwa [Separating, hterm, hvalues, Term.temporaries, hk] at hp
    rw [inner_of_not_opens ho] at hlast ⊢
    exact hlast.bind hnew
  | @defined head target list body name params hk hterm hname _ hvalues hnew =>
    have ho : a.opens = false := opens_eq_false hterm (by simp [hk])
    have hval : (Term.named name params body a.scope).IsValue p.store.size :=
      ⟨ha.wellFormed.readable_of_part? (j := 3) (by rw [hterm]; rfl), hlt⟩
    have hmade := hempty.trans (.of_accessible hempty.ready hval ?_)
    · rw [inner_of_not_opens ho] at hmade ⊢
      exact hmade.bind hnew
    · rintro i ⟨rfl, -⟩
      exact .of_root hscope
  | @made head list body params hk hterm hparams _ =>
    have hval : (Term.closure params body a.scope).IsValue p.store.size :=
      ⟨ha.wellFormed.readable_of_part? (j := 2) (by rw [hterm]; rfl), hlt⟩
    refine hempty.trans (.of_accessible hempty.ready hval ?_)
    rintro i rfl
    exact .of_root hscope

end Separating

/-- **Evaluation keeps what only temporaries keep separated from the rest.** -/
theorem separating : Invariant keepsAlive Separate Separating fun a =>
    Leaves ((a.held.enter a.scope).After a.scope a.store []) fun v t =>
      (a.held.enter a.scope).After a.scope a.store [v] t where
  begins := by
    intro a ha
    rw [Separating, Term.temporaries_nil]
    exact After.refl ha.opened
  part ha _ hp hstart := hp.part ha hstart
  gives := by
    rintro a b p j v t ha - hp hstart ⟨-, hb⟩
    exact (hp.after hstart hb).mono (a.term.temporaries_concat_subset p.values v)
  faults ha _ hp hstart hb := ha.close_nil (hp.after hstart hb)
  body := by
    intro a b p fn ha _ hp hstart
    obtain ⟨f, hscope, hstore, hbody, hafter, hf, hmade, hsame⟩ := hp.body hstart
    refine ⟨hbody, ?_⟩
    have hready := (hafter.enter hf hmade).congr hsame
    rwa [← hscope, ← hstore] at hready
  ends := by
    intro a b p fn r ha _ hp hstart hb
    obtain ⟨f, hscope, hstore, -, hafter, hf, hmade, hsame⟩ := hp.body hstart
    refine hb.mono (fun t ht => ?_) fun v t _ hv => ?_
    · have hend := ht.congr hsame.symm
      rw [hscope, hstore] at hend
      exact hafter.leave_nil hf hmade ha.ready hend
    · have hend := hv.congr hsame.symm
      rw [hscope, hstore] at hend
      exact hafter.leave hf hmade ha.ready hend
  raises _ ha _ hp := ha.close_nil hp
  returns ha _ hp hreturns _ :=
    have hafter := hp.returns ha hreturns
    ⟨ha.close_nil hafter, ha.close hafter⟩

/-- **Evaluations under both rules are the same.** -/
theorem Separate.run_eq (ha : a.Separate) : a.run scopesReach = a.run keepsAlive := by
  refine run_congr fun b m o hoccurs hasks => ?_
  have hb := separating.occurs ha hoccurs
  obtain ⟨name, params, body, values, hreaches, hheld⟩ := hasks.reaches
  obtain ⟨head, es, hterm, hk⟩ := hasks.call
  have hmid := separating.reaches hb hreaches
  rw [hheld]
  exact (hmid.call hterm hk).scopesReach_eq same_keep_keepAll

end Activation

/-! ## Sessions -/

namespace Session

variable {limit : Nat} {s : Session}

theorem Sound.ready (hs : s.Sound) :
    (Held.enter { scopes := [s.root] } s.root).Ready s.root s.store := by
  refine .of_values_nil hs.store ?_ List.mem_cons_self ?_ rfl
  · rw [hs.root_eq]
    exact List.mem_cons_self
  · have hpos := hs.store.nonempty
    simpa [Held.enter, hs.root_eq] using hpos

theorem Sound.separate (hs : s.Sound) (limit : Nat) {source : String} {e : Term}
    (h : Term.parse source = .ok e) :
    Activation.Separate ⟨limit, { scopes := [s.root] }, s.root, e, s.store⟩ :=
  ⟨Term.readable_of_parse h, hs.ready⟩

/-- **No scope comes back to life**: what the outermost scope reaches after a program, however the
program ends, is new or was reached before. -/
theorem Sound.reachable_eval (hs : s.Sound) (source : String) {i : Nat} (hi : i < s.store.size)
    (h : Reachable (s.eval limit source).2.store.links [0] i) : Reachable s.store.links [0] i := by
  cases hparse : Term.parse source with
  | error fault => rwa [eval_of_parse_error hparse] at h
  | ok e =>
    have hafter := Leaves.storeAfter (Activation.separating.run (hs.separate limit hparse))
    rw [eval_of_parse hparse] at h
    have hlives := hafter.lives i hi (h.mono fun j hj => ?_)
    · refine Reachable.mono (fun j hj => ?_) hlives
      simpa [Held.references, Held.enter, hs.root_eq] using hj
    · refine Held.mem_references_keepAll.2 (.inr (Held.subset_references ?_))
      simpa [Held.enter, hs.root_eq] using hj

/-- **Temporaries cannot be observed.** A session has the same results and comes to the same store
whether a scope lives by all that the evaluations in progress hold, or only by the scopes that they
evaluate in. -/
theorem runWith_eq_run (hs : s.Sound) (sources : List String) :
    s.runWith (ScopedLisp.evaluateWith keepsAlive limit) sources = s.run limit sources ∧
      s.runWith (ScopedLisp.evaluateWith scopesReach limit) sources = s.run limit sources := by
  refine ⟨rfl, Sound.runWith_eq (fun hs ha => ?_) hs sources⟩
  exact Activation.Separate.run_eq ⟨ha.readable, hs.ready⟩

/-- The first of two arguments of the same name is dropped from the scope of the call, but is held:
a closure that keeps its scope. The second one is a named function, whose scope lives in the first
call and is gone in the second one. -/
theorem runWith_eq_run_dropped :
    ∃ sources results, sources = ["(defn h () 7)",
        "((fn (x x) (x)) (do (let c 1) (fn () c)) h)",
        "((fn (x x) (x)) (do (let c 1) (fn () c)) (do (defn g () 2) g))"] ∧
      (start.runWith (ScopedLisp.evaluateWith scopesReach 12) sources).1 = results ∧
      (start.run 12 sources).1 = results ∧
      results.map Except.isOk = [true, true, false] := by
  let sources := ["(defn h () 7)", "((fn (x x) (x)) (do (let c 1) (fn () c)) h)",
    "((fn (x x) (x)) (do (let c 1) (fn () c)) (do (defn g () 2) g))"]
  have hresults : (start.run 12 sources).1.map Except.isOk = [true, true, false] := by
    decide +kernel
  have hreach : start.runWith (ScopedLisp.evaluateWith scopesReach 12) sources =
      start.run 12 sources := (runWith_eq_run start_fresh.toSound sources).2
  exact ⟨sources, _, rfl, by rw [hreach], rfl, hresults⟩

end Session

end ScopedLisp
