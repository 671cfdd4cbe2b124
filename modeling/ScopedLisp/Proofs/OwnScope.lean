import ScopedLisp.Proofs.Access
import ScopedLisp.Proofs.Chains
import ScopedLisp.Proofs.Faults

/-!
# Calls through the scope of a function

A named function does not keep the scope that it was defined in. But a call that finds it there by
its name is evaluated inside of that scope, and so keeps it, whatever its arguments do.

* `Store.Sound.chain_congr`, `Moment.Follows.chain_eq`: the scopes around a scope stay the same;
* `Moment.Follows.keepsAlive`, `Activation.Starts.keepsAlive`: those around an evaluation live for
  as long as it goes on;
* `Activation.Raises.of_reclaimed`: the calls that find the scope of a function gone;
* **`Session.Evaluates.call_named`**: a named function can be called by its name through the scope
  that it was defined in.
-/

namespace ScopedLisp

/-! ## The scopes around an evaluation -/

namespace Store

variable {s t : Store} {i scope : Nat}

theorem Sound.chain_congr (hs : s.Sound) (ht : t.Sound) (hsize : s.size ≤ t.size)
    (houter : ∀ i < s.size, (t.frame i).outer = (s.frame i).outer) (hi : i < s.size) :
    t.chain i = s.chain i := by
  induction i using Nat.strong_induction_on with
  | _ i ih =>
  have hsame := houter i hi
  cases ho : (s.frame i).outer with
  | none =>
    rw [chain_of_outer_none ho hi, chain_of_outer_none (hsame.trans ho) (by omega)]
  | some o =>
    have hlt := (hs.outer_some ho).1
    rw [hs.chain_of_outer_some ho, ht.chain_of_outer_some (hsame.trans ho), ih o hlt (by omega)]

theorem Sound.lt_of_mem_chain (hs : s.Sound) (hscope : scope < s.size) (hi : i ∈ s.chain scope) :
    i < s.size := by
  have hreach : Reachable s.links [scope] i :=
    ⟨scope, List.mem_cons_self, reaches_of_mem_chainFrom hi⟩
  exact hs.reachable_lt (by simpa using hscope) hreach

end Store

theorem Held.keepsAlive_of_mem_chain {h : Held} {s : Store} {scope i : Nat} (hs : s.Sound)
    (hscope : scope < s.size) (hmem : scope ∈ h.scopes) (hi : i ∈ s.chain scope) :
    h.keepsAlive s i = true :=
  keepsAlive_iff.2 ⟨hs.lt_of_mem_chain hscope hi, scope, List.mem_append_left _ hmem,
    Store.reaches_of_mem_chainFrom hi⟩

namespace Moment.Follows

variable {s : Store} {m : Moment} {scope i : Nat}

theorem chain_eq (h : m.Follows s) (hs : s.Sound) (hi : i < s.size) :
    m.store.chain i = s.chain i := by
  have hsound := h.sound hs
  obtain ⟨cs, t, hist, heq | ⟨scope, name, value, -, -, heq⟩⟩ := h.store
  · subst heq
    exact hs.chain_congr hsound hist.size_le (fun i hi => hist.outer_eq hi) hi
  · have hsize := hist.size_le
    refine hs.chain_congr hsound (by rw [heq, Store.size_modify]; exact hsize) ?_ hi
    intro i hi
    rw [heq, Store.outer_extend, hist.outer_eq hi]

theorem size_le (h : m.Follows s) : s.size ≤ m.store.size := by
  obtain ⟨cs, t, hist, heq | ⟨scope, name, value, -, -, heq⟩⟩ := h.store
  · rw [heq]
    exact hist.size_le
  · rw [heq, Store.size_modify]
    exact hist.size_le

/-- **The scopes around a scope live for as long as it is in use.** -/
theorem keepsAlive (h : m.Follows s) (hs : s.Sound) (hscope : scope < s.size)
    (hmem : scope ∈ m.held.scopes) (hi : i ∈ s.chain scope) :
    m.held.keepsAlive m.store i = true := by
  refine Held.keepsAlive_of_mem_chain (h.sound hs) (Nat.lt_of_lt_of_le hscope h.size_le) hmem ?_
  rwa [h.chain_eq hs hscope]

end Moment.Follows

namespace Activation

variable {alive : Liveness} {a b c : Activation} {m : Moment}

theorem Starts.scopes_subset (h : a.Starts alive b) : a.scope :: a.held.scopes ⊆ b.held.scopes := by
  cases h <;> exact List.Subset.refl _

theorem Occurs.scopes_subset (h : a.Occurs alive b) : a.held.scopes ⊆ b.held.scopes := by
  induction h with
  | refl => exact List.Subset.refl _
  | tail _ hstart ih => exact fun i hi => hstart.scopes_subset (List.mem_cons_of_mem _ (ih hi))

theorem Passes.scopes_subset (h : a.Passes alive m) : a.held.scopes ⊆ m.held.scopes := by
  cases h with
  | begins => exact List.subset_cons_self _ _
  | calls | binds | defines => exact List.subset_cons_self _ _
  | ends | fails => exact List.Subset.refl _

/-- **The scopes around an evaluation live at all moments of the evaluations that it starts**,
themselves or through others. -/
theorem Starts.keepsAlive (h : a.Starts alive b) (ha : a.Proper) (hoccurs : b.Occurs alive c)
    (hm : c.Passes alive m) {i : ScopeId} (hi : i ∈ a.store.chain a.scope) :
    m.held.keepsAlive m.store i = true := by
  obtain ⟨hb, cs, hcs⟩ := h.proper ha
  obtain ⟨hc, ds, hds⟩ := hoccurs.proper hb
  have hfollows := ((hm.follows hc).of_history hds).of_history hcs
  have hmem : a.scope ∈ m.held.scopes :=
    hm.scopes_subset (hoccurs.scopes_subset (h.scopes_subset List.mem_cons_self))
  exact hfollows.keepsAlive ha.sound ha.scope_lt hmem hi

theorem Raises.of_reclaimed {name : Symbol} (h : a.Raises alive (.error (.scopeReclaimed name))) :
    ∃ n head args params body o values t u, a.limit = n + 1 ∧ a.term = .list (head :: args) ∧
      Keyword.ofTerm? head = none ∧
      evaluateWith alive n (a.held.enter a.scope) a.scope head a.store =
        .ok (.named name params body o) t ∧
      evaluateArgs (evaluateWith alive n)
        ((a.held.enter a.scope).keep (.named name params body o)) a.scope args t = .ok values u ∧
      alive (((a.held.enter a.scope).keep (.named name params body o)).keepAll values) u o =
        false := by
  cases h with
  | defineParams _ hparams | lambdaParams _ hparams =>
    exact absurd (failsIn_paramNames _ _ hparams) (by simp [Error.kind])
  | refuses hk hhead hargs hfn =>
    cases hfn with
    | builtin h => exact absurd (Builtin.failsIn_call _ _ _ h) (by simp [Error.kind])
    | reclaimed _ hgone => exact ⟨_, _, _, _, _, _, _, _, _, rfl, rfl, hk, hhead, hargs, hgone⟩

end Activation

/-! ## Calls -/

namespace Activation

section Named

variable {n : Nat} {held : Held} {scope F : ScopeId} {f g : Symbol} {args values : List Term}
  {params : List Symbol} {body : Term} {s u : Store} (hk : Keyword.ofTerm? (.symbol f) = none)
  (hfind : s.find? scope f = some F)
  (hbound : (s.frame F).get? f = some (.named g params body F))
include hfind hbound

theorem evaluate_name (n : Nat) (held : Held) :
    evaluate (n + 1) held scope (.symbol f) s = .ok (.named g params body F) s := by
  refine Eval.lookup_of_some ?_ nofun
  rw [Store.lookup, hfind]
  exact hbound

include hk

/-- When the arguments are there, the scope of the call is still in use, and so the one around it
where the function was found lives. -/
theorem Proper.named_lives (ha : Proper ⟨n + 2, held, scope, .list (.symbol f :: args), s⟩)
    (hargs : evaluateArgs (evaluate (n + 1)) ((held.enter scope).keep (.named g params body F))
      scope args s = .ok values u) :
    (((held.enter scope).keep (.named g params body F)).keepAll values).keepsAlive u F = true := by
  have hm : Passes Held.keepsAlive ⟨n + 2, held, scope, .list (.symbol f :: args), s⟩ ⟨_, u⟩ :=
    .calls hk (evaluate_name hfind hbound n _) rfl hargs
  exact (hm.follows ha).keepsAlive ha.sound ha.scope_lt List.mem_cons_self
    (List.mem_of_find?_eq_some hfind)

theorem Proper.not_reclaimed {limit : Nat}
    (ha : Proper ⟨limit, held, scope, .list (.symbol f :: args), s⟩) (name : Symbol) :
    ¬ Raises Held.keepsAlive ⟨limit, held, scope, .list (.symbol f :: args), s⟩
      (.error (.scopeReclaimed name)) := by
  intro hraises
  obtain ⟨n, head, args', params', body', o, values, t, u, hlimit, hterm, -, hhead, hargs, hgone⟩ :=
    hraises.of_reclaimed
  cases hterm
  cases n with
  | zero => cases hhead
  | succ n =>
    subst hlimit
    cases hhead.symm.trans (evaluate_name hfind hbound n _)
    rw [ha.named_lives hk hfind hbound hargs] at hgone
    cases hgone

theorem Proper.run_named (ha : Proper ⟨n + 2, held, scope, .list (.symbol f :: args), s⟩)
    (hargs : evaluateArgs (evaluate (n + 1)) ((held.enter scope).keep (.named g params body F))
      scope args s = .ok values u) :
    run Held.keepsAlive ⟨n + 2, held, scope, .list (.symbol f :: args), s⟩ =
      if params.length = args.length then
        evaluate (n + 1) (((held.enter scope).keep (.named g params body F)).keepAll values) u.size
          body (u.push (Frame.ofRecords (params.zip values) (some F)))
      else .error (.error (.argumentCount params.length args.length)) u := by
  have hlives := ha.named_lives hk hfind hbound hargs
  have hhead := evaluate_name hfind hbound n (held.enter scope)
  have hcall : run Held.keepsAlive ⟨n + 2, held, scope, .list (.symbol f :: args), s⟩ =
      apply (n + 1) (((held.enter scope).keep (.named g params body F)).keepAll values)
        (.named g params body F) values u := by
    unfold run
    rw [evaluateWith_call hk]
    exact (Eval.bind_of_ok hhead).trans (Eval.bind_of_ok hargs)
  rw [hcall, apply, ← length_of_evaluateArgs hargs]
  split_ifs with hcount
  · exact Term.Enters.applyWith_eq (.named g params body hlives) hcount
  · rw [applyWith, checkCount, if_neg hcount]
    rfl

end Named

end Activation

namespace Session

variable {limit : Nat} {session : Session} {sources : List String} {a : Activation}

/-- **A named function can be called by its name through its own scope.** If a call finds its head
in a scope `F`, bound to a named function that was defined in `F`, then `F` lives for as long as the
call goes on, and the call does not report it as gone. -/
theorem Evaluates.call_named (hs : session.Sound) (ha : session.Evaluates limit sources a)
    {f g : Symbol} {args : List Term} {params : List Symbol} {body : Term} {F : ScopeId}
    (hterm : a.term = .list (.symbol f :: args)) (hk : Keyword.ofTerm? (.symbol f) = none)
    (hfind : a.store.find? a.scope f = some F)
    (hbound : (a.store.frame F).get? f = some (.named g params body F)) :
    (∀ b c m, a.Starts Held.keepsAlive b → b.Occurs Held.keepsAlive c →
      c.Passes Held.keepsAlive m → m.held.keepsAlive m.store F = true) ∧
    (∀ name, ¬ a.Raises Held.keepsAlive (.error (.scopeReclaimed name))) ∧
    (a.limit < 2 → a.run Held.keepsAlive = .error .exhausted a.store) ∧
    ∀ n, a.limit = n + 2 →
      let fn := Term.named g params body F
      let held := (a.held.enter a.scope).keep fn
      ScopedLisp.evaluate (n + 1) (a.held.enter a.scope) a.scope (.symbol f) a.store =
        .ok fn a.store ∧
      ∀ values u,
        evaluateArgs (ScopedLisp.evaluate (n + 1)) held a.scope args a.store = .ok values u →
        values.length = args.length ∧
        (held.keepAll values).keepsAlive u F = true ∧
        a.run Held.keepsAlive =
          if params.length = args.length then
            ScopedLisp.evaluate (n + 1) (held.keepAll values) u.size body
              (u.push (Frame.ofRecords (params.zip values) (some F)))
          else .error (.error (.argumentCount params.length args.length)) u := by
  have hproper := ha.proper hs
  have hchain : F ∈ a.store.chain a.scope := List.mem_of_find?_eq_some hfind
  obtain ⟨limit, held, scope, e, s⟩ := a
  dsimp only at hterm hfind hbound hchain ⊢
  subst hterm
  refine ⟨fun b c m hb hc hm => hb.keepsAlive hproper hc hm hchain,
    hproper.not_reclaimed hk hfind hbound, fun hlimit => ?_, ?_⟩
  · unfold Activation.run
    dsimp only
    match limit, hlimit with
    | 0, _ => rfl
    | 1, _ =>
      rw [evaluateWith_call hk]
      rfl
  · rintro n rfl
    refine ⟨Activation.evaluate_name hfind hbound n _, fun values u hargs => ?_⟩
    exact ⟨length_of_evaluateArgs hargs, hproper.named_lives hk hfind hbound hargs,
      hproper.run_named hk hfind hbound hargs⟩

/-- The argument of the call defines a function of its own, whose scope is gone when the argument is
there; the scope of the function that is called is not. -/
theorem call_named_inner :
    ∃ (a : Activation) (held : Held) (u : Store),
      start.Evaluates 9 ["(do (defn f (x) x) (f (do (defn g () 7) (g))))"] a ∧
      a.store.find? a.scope ⟨"f", by decide⟩ = some 1 ∧
      held.keepsAlive u 1 = true ∧ held.keepsAlive u 2 = false ∧
      (∀ name, ¬ a.Raises Held.keepsAlive (.error (.scopeReclaimed name))) ∧
      a.run Held.keepsAlive = ScopedLisp.evaluate 7 held u.size (.symbol ⟨"x", by decide⟩)
        (u.push (Frame.ofRecords [(⟨"x", by decide⟩, .int 7)] (some 1))) := by
  have hparse : Term.parse "(do (defn f (x) x) (f (do (defn g () 7) (g))))" =
      .ok (.list [Keyword.block.term,
        .list [Keyword.define.term, .symbol ⟨"f", by decide⟩, .list [.symbol ⟨"x", by decide⟩],
          .symbol ⟨"x", by decide⟩],
        .list [.symbol ⟨"f", by decide⟩, .list [Keyword.block.term,
          .list [Keyword.define.term, .symbol ⟨"g", by decide⟩, .list [], .int 7],
          .list [.symbol ⟨"g", by decide⟩]]]]) := rfl
  have ha : start.Evaluates 9 ["(do (defn f (x) x) (f (do (defn g () 7) (g))))"] _ :=
    ⟨0, _, _, rfl, hparse, .single (@Activation.Starts.part _ _ _ _ _ _ _ _ [] [] _ _
      (Keyword.ofTerm?_term .block) rfl)⟩
  obtain ⟨-, hraises, -, hcall⟩ := ha.call_named start_fresh.toSound rfl rfl rfl rfl
  obtain ⟨-, hbody⟩ := hcall 6 rfl
  obtain ⟨-, hlives, hrun⟩ := hbody [.int 7] _ rfl
  exact ⟨_, _, _, ha, rfl, hlives, by decide +kernel, hraises, hrun⟩

end Session

end ScopedLisp
