import ScopedLisp.Proofs.Grounded
import ScopedLisp.Proofs.Moments

/-!
# Definitions and look-ups

What a definition does to the look-ups from all scopes of a graph.

* `Store.Sees`: a binding of a name in a scope is the one that another scope finds;
* `Store.Grounded.lookup_bind_of_sees`, `Store.lookup_bind_of_not_sees`: a new binding is found from
  the scopes that see it, and all other look-ups stay as they are;
* `Store.NoFarther`: one scope is on the way out to another;
* `Store.Run.find?_noFarther`: what is found comes nearer only;
* **`Store.Grounded.define_law`**: the law of definitions and look-ups, for one definition and for
  all that follows it.
-/

namespace ScopedLisp

namespace Store

variable {s t : Store} {i j scope : Nat} {name m : Symbol} {value v : Term}

/-- A binding of the name in `scope` is the one found from `i`: the scope is on the chain of `i`,
and none that is nearer binds the name. -/
def Sees (s : Store) (i scope : ScopeId) (name : Symbol) : Prop :=
  ∃ near far, s.chain i = near ++ scope :: far ∧ ∀ j ∈ near, (s.frame j).binds name = false

/-- On the way out from `i`, the scope `k` is `j` or comes before it. -/
def NoFarther (s : Store) (i k j : ScopeId) : Prop :=
  ∃ near far, s.chain i = near ++ k :: far ∧ j ∈ k :: far

theorem find?_eq_some_iff_sees :
    s.find? i name = some j ↔ (s.frame j).binds name = true ∧ s.Sees i j name := by
  unfold find? Sees
  simp [List.find?_eq_some_iff_append]

theorem find?_eq_none_iff :
    s.find? i name = none ↔ ∀ j ∈ s.chain i, (s.frame j).binds name = false := by
  simp [find?]

/-! ## One definition -/

theorem chain_bind (i : ScopeId) : (s.bind scope name value).chain i = s.chain i := by
  have hfrom : ∀ n i, (s.bind scope name value).chainFrom n i = s.chainFrom n i := by
    intro n
    induction n with
    | zero => exact fun i => rfl
    | succ n ih =>
      intro i
      rw [chainFrom, chainFrom, outer_bind]
      cases (s.frame i).outer with
      | none => rfl
      | some o => exact congrArg (i :: ·) (ih o)
  rw [chain, chain, size_bind, hfrom]

theorem binds_bind (hscope : scope < s.size) :
    ((s.bind scope name value).frame i).binds m =
      ((s.frame i).binds m || decide (i = scope ∧ m = name)) := by
  rw [Frame.binds, Frame.binds, get?_bind hscope, Option.isSome_or]
  by_cases h : i = scope ∧ m = name
  · simp [h]
  · simp [h]

theorem get?_bind_of_not (hscope : scope < s.size) (h : ¬ (i = scope ∧ m = name)) :
    ((s.bind scope name value).frame i).get? m = (s.frame i).get? m := by
  rw [get?_bind hscope, if_neg h, Option.or_none]

/-- **A new binding is found from the scopes that see it.** -/
theorem Grounded.lookup_bind_of_sees (hs : s.Grounded) (hscope : scope < s.size)
    (hnew : (s.frame scope).binds name = false) (hsees : s.Sees i scope name) :
    (s.bind scope name value).lookup i name = some value := by
  obtain ⟨near, far, hchain, hnear⟩ := hsees
  have hbound : ((s.bind scope name value).frame scope).get? name = some value := by
    rw [get?_bind hscope, Option.not_isSome_iff_eq_none.1 (Bool.eq_false_iff.1 hnew),
      if_pos ⟨rfl, rfl⟩]
    rfl
  have hfind : (s.bind scope name value).find? i name = some scope := by
    refine find?_eq_some_iff_sees.2 ⟨by rw [Frame.binds, hbound]; rfl, near, far,
      (chain_bind i).trans hchain, fun j hj => ?_⟩
    -- the chain does not come back to the scope of the definition, so that is none of the nearer
    have hne : j ≠ scope := by
      rintro rfl
      have hnodup := hs.chain_nodup i
      rw [hchain] at hnodup
      exact (List.nodup_append.1 hnodup).2.2 j hj j List.mem_cons_self rfl
    simp [binds_bind hscope, hnear j hj, hne]
  rw [lookup, hfind, Option.bind_some, hbound]

/-- **All other look-ups stay as they are.** -/
theorem lookup_bind_of_not_sees (hscope : scope < s.size)
    (hsees : ¬ (m = name ∧ s.Sees i scope name)) :
    (s.bind scope name value).lookup i m = s.lookup i m := by
  have hbefore : ∀ j, ((s.bind scope name value).frame j).binds m = false →
      (s.frame j).binds m = false := by
    intro j hj
    rw [binds_bind hscope, Bool.or_eq_false_iff] at hj
    exact hj.1
  unfold lookup
  cases hfind : (s.bind scope name value).find? i m with
  | none =>
    rw [find?_eq_none_iff, chain_bind] at hfind
    rw [find?_eq_none_iff.2 fun j hj => hbefore j (hfind j hj)]
    rfl
  | some k =>
    obtain ⟨hbinds, near, far, hchain, hnear⟩ := find?_eq_some_iff_sees.1 hfind
    rw [chain_bind] at hchain
    have hsees' : s.Sees i k m := ⟨near, far, hchain, fun j hj => hbefore j (hnear j hj)⟩
    have hother : ¬ (k = scope ∧ m = name) := by
      rintro ⟨rfl, rfl⟩
      exact hsees ⟨rfl, hsees'⟩
    rw [binds_bind hscope, decide_eq_false hother, Bool.or_false] at hbinds
    rw [find?_eq_some_iff_sees.2 ⟨hbinds, hsees'⟩, Option.bind_some, Option.bind_some,
      get?_bind_of_not hscope hother]

/-! ## All that follows -/

theorem Run.binds_of_binds (h : s.Run t) (hb : (s.frame i).binds m = true) :
    (t.frame i).binds m = true := by
  obtain ⟨v, hv⟩ := Option.isSome_iff_exists.1 hb
  rw [Frame.binds, h.get?_of_some hv]
  rfl

/-- **What is found comes nearer only**, and is never lost. -/
theorem Run.find?_noFarther (h : s.Run t) (hs : s.Grounded) (hi : i < s.size)
    (hfind : s.find? i m = some j) : ∃ k, t.find? i m = some k ∧ s.NoFarther i k j := by
  have hchain := h.chain_eq hs hi
  obtain ⟨hbinds, near, far, hj, -⟩ := find?_eq_some_iff_sees.1 hfind
  have hmem : j ∈ t.chain i := by
    rw [hchain, hj]
    simp
  have hbinds' := h.binds_of_binds hbinds
  have hsome : (t.find? i m).isSome = true := List.find?_isSome.2 ⟨j, hmem, hbinds'⟩
  obtain ⟨k, hk⟩ := Option.isSome_iff_exists.1 hsome
  obtain ⟨-, near', far', hk', hnear⟩ := find?_eq_some_iff_sees.1 hk
  refine ⟨k, hk, near', far', hchain ▸ hk', ?_⟩
  -- the scope found before binds the name still, so it is none of those that are passed
  rw [hk', List.mem_append] at hmem
  refine hmem.resolve_left fun hpassed => ?_
  rw [hnear j hpassed] at hbinds'
  cases hbinds'

/-- **The law of definitions and look-ups.** A name that the scope binds already is refused; else
the new value is found from the scopes that see the binding, every other look-up stays as it was,
and whatever follows, a scope finds a name no farther away than before. -/
theorem Grounded.define_law (hs : s.Grounded) (hscope : scope < s.size) (name : Symbol)
    (value : Term) :
    ((s.frame scope).binds name = true →
      s.define scope name value = .error (.duplicate name) ∧
        Eval.define scope name value s = .error (.error (.duplicate name)) s) ∧
    ((s.frame scope).binds name = false →
      s.define scope name value = .ok (s.bind scope name value) ∧
        Eval.define scope name value s = .ok value (s.bind scope name value) ∧
        ∀ i m,
          (m = name ∧ s.Sees i scope name →
            (s.bind scope name value).lookup i m = some value) ∧
          (¬ (m = name ∧ s.Sees i scope name) →
            (s.bind scope name value).lookup i m = s.lookup i m)) ∧
    (∀ t, s.Run t →
      t.Grounded ∧
      (∀ i : Nat, i < s.size → ∀ m j, s.find? i m = some j →
        ∃ k, t.find? i m = some k ∧ s.NoFarther i k j) ∧
      ∀ j m v, (s.frame j).get? m = some v → (t.frame j).get? m = some v) ∧
    (∀ (limit : Nat) (held : Held) (i : Nat) (e : Term), i < s.size →
      s.Run ((evaluate limit held i e).storeAfter s)) ∧
    ∀ (limit : Nat) (held : Held) (fn : Term) (args : List Term), fn.Placed s.size →
      (∀ v ∈ args, v.Placed s.size) →
      s.Run ((ScopedLisp.apply limit held fn args).storeAfter s) := by
  refine ⟨fun hbinds => ⟨if_pos hbinds, if_pos hbinds⟩, fun hnew => ?_, fun t ht => ?_,
    fun limit held i e hi => evaluate_run hs hi limit held e,
    fun limit held fn args hfn hargs => apply_run hs hfn hargs limit held⟩
  · have hnot : ¬ (s.frame scope).binds name = true := Bool.eq_false_iff.1 hnew
    refine ⟨if_neg hnot, if_neg hnot, fun i m => ⟨?_, lookup_bind_of_not_sees hscope⟩⟩
    rintro ⟨rfl, hsees⟩
    exact hs.lookup_bind_of_sees hscope hnew hsees
  · exact ⟨ht.grounded hs, fun i hi m j hfind => ht.find?_noFarther hs hi hfind,
      fun j m v hv => ht.get?_of_some hv⟩

/-- A scope inside the outermost one binds the name of a builtin function anew. The scope inside of
it finds that binding until it has one of its own, and the outermost scope never does. -/
theorem define_law_shadowing :
    ∃ s : Store, s.Grounded ∧ s.lookup 2 Builtin.add.symbol = some (.builtin .add) ∧
      (s.bind 1 Builtin.add.symbol (.int 5)).lookup 2 Builtin.add.symbol = some (.int 5) ∧
      (s.bind 1 Builtin.add.symbol (.int 5)).lookup 0 Builtin.add.symbol = some (.builtin .add) ∧
      s.define 0 Builtin.add.symbol (.int 5) = .error (.duplicate Builtin.add.symbol) ∧
      ∃ k, ((s.bind 1 Builtin.add.symbol (.int 5)).bind 2 Builtin.add.symbol (.int 6)).find? 2
        Builtin.add.symbol = some k ∧ s.NoFarther 2 k 0 := by
  let add := Builtin.add.symbol
  let s := (Session.start.store.push { outer := some 0 }).push { outer := some 1 }
  have hs : s.Grounded := by
    refine (Session.start_fresh.store.grounded.push ?_ (by simp)).push ?_ (by simp)
    · rintro o ⟨⟩
      decide
    · rintro o ⟨⟩
      decide
  have hzero : 0 < s.size := by decide
  have hone : 1 < s.size := by decide
  have hplaced : ∀ n k, (Term.int k).Placed n := fun n k =>
    Term.placed_of_closureScope?_eq_none rfl n
  have hfirst : s.Run (s.bind 1 add (.int 5)) := .bound hone rfl (hplaced _ 5)
  have hrun : s.Run ((s.bind 1 add (.int 5)).bind 2 add (.int 6)) :=
    hfirst.trans (Run.bound (by decide) rfl (hplaced _ 6))
  obtain ⟨hold, -⟩ := hs.define_law hzero add (.int 5)
  obtain ⟨-, hnew, hfollows, -⟩ := hs.define_law hone add (.int 5)
  obtain ⟨-, -, hlook⟩ := hnew rfl
  have hsees : s.Sees 2 1 add := ⟨[2], [0], rfl, List.forall_mem_singleton.2 rfl⟩
  have hblind : ¬ s.Sees 0 1 add := by
    rintro ⟨near, far, hchain, -⟩
    have hmem : 1 ∈ s.chain 0 := by rw [hchain]; simp
    exact absurd hmem (by decide)
  exact ⟨s, hs, rfl, (hlook 2 add).1 ⟨rfl, hsees⟩, (hlook 0 add).2 fun h => hblind h.2,
    (hold rfl).1, (hfollows _ hrun).2.1 2 (by decide) add 0 rfl⟩

end Store

end ScopedLisp
