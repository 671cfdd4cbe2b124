import ScopedLisp.Proofs.Chains
import ScopedLisp.Proofs.Occurrences

/-!
# Lexical scope

The scopes that an evaluation comes to are those of the regions around the place of its term, one
after the other, and none of them binds a name that its region does not declare. This does not
depend on the calls that led to the evaluation.

* `Activation.Starts.after`: what an evaluation does once one that it started has ended;
* `Session.Evaluates.settled`: scopes that were made during an evaluation stay as they are when it
  has ended;
* `Store.Lexical`: a scope lies in the scopes of some regions;
* `Session.Locates.lexical`: the scope of an evaluation does, for the regions around its place;
* **`Session.Evaluates.lexical_scope`**: chains of scopes mirror the program.
-/

namespace ScopedLisp

/-! ## After an evaluation that was started -/

namespace Activation

variable {alive : Liveness} {a b : Activation} {p q : Progress}

/-- The store that an evaluation leaves, however it ends. -/
def after (alive : Liveness) (a : Activation) : Store :=
  Eval.storeAfter (evaluateWith alive a.limit a.held a.scope a.term) a.store

theorem after_of_ok {v : Term} {t : Store} (h : a.run alive = .ok v t) : a.after alive = t :=
  Eval.storeAfter_of_ok h

theorem after_of_error {fault : Fault} {t : Store} (h : a.run alive = .error fault t) :
    a.after alive = t :=
  Eval.storeAfter_of_error h

theorem after_eq (h : a.run alive = b.run alive) : a.after alive = b.after alive := by
  cases hb : b.run alive with
  | ok v t => rw [after_of_ok hb, after_of_ok (h.trans hb)]
  | error fault t => rw [after_of_error hb, after_of_error (h.trans hb)]

theorem WellFormed.evolves_after (ha : a.WellFormed) (alive : Liveness) :
    a.store.Evolves a.scope a.term.targets (a.after alive) :=
  Leaves.storeAfter (ha.yields alive)

theorem StartsPart.evolves {j : Nat} (h : a.StartsPart alive p j b) (ha : a.WellFormed)
    (hp : a.Reaches alive p) : p.store.Evolves a.inner b.term.targets (b.after alive) := by
  have hevolves := ((ha.reaches hp).part ha h).evolves_after alive
  rwa [h.scope, h.store] at hevolves

theorem evolves_of_goes (ha : a.WellFormed) (hp : a.Reaches alive p)
    (h : Relation.ReflTransGen (a.Goes alive) p q) :
    ∃ names, p.store.Evolves a.inner names q.store := by
  induction h with
  | refl => exact ⟨[], .refl _ _ _⟩
  | tail hpq hgoes ih =>
    obtain ⟨names, hnames⟩ := ih
    obtain ⟨hstart, hrun⟩ := hgoes
    have hpart := hstart.evolves ha (hp.trans hpq)
    rw [after_of_ok hrun] at hpart
    exact ⟨_, hnames.trans hpart⟩

theorem Stops.evolves (h : a.Stops alive q (a.run alive)) (ha : a.WellFormed)
    (hq : a.Reaches alive q) : ∃ names, q.store.Evolves a.inner names (a.after alive) := by
  have hmid := ha.reaches hq
  generalize hr : a.run alive = r at h
  cases h with
  | fault hstart hrun =>
    rw [after_of_error hr, ← after_of_error hrun]
    exact ⟨_, hstart.evolves ha hq⟩
  | body hstart =>
    obtain ⟨hb, hinside⟩ := hmid.body ha hstart
    rw [after_eq hr]
    exact ⟨_, hinside _ _ (hb.evolves_after alive)⟩
  | raises =>
    rw [after_of_error hr]
    exact ⟨[], .refl _ _ _⟩
  | returns hreturns =>
    rw [after_of_ok hr]
    cases hreturns with
    | atom | found | builtin | last | made => exact ⟨[], .refl _ _ _⟩
    | bound hk hterm _ hvalues hnew =>
      rw [inner_of_not_opens (opens_eq_false hterm (by simp [hk]))]
      exact ⟨_, .bind (hmid.scope_lt ha) hnew (hmid.values _ (by simp [hvalues]))⟩
    | defined hk hterm _ _ _ hnew =>
      rw [inner_of_not_opens (opens_eq_false hterm (by simp [hk]))]
      exact ⟨_, .bind (hmid.scope_lt ha) hnew ⟨ha.part hterm _ (by simp), hmid.scope_lt ha⟩⟩

/-- **What one start leaves to do**: from the end of the evaluation that was started on, names are
bound only in its scope and in new ones. -/
theorem Starts.after (h : Starts alive a b) (ha : a.Proper) :
    ∃ names, (b.after alive).Evolves b.scope names (a.after alive) := by
  rcases h.progress with ⟨p, j, hp, hstart, hgoes⟩ | ⟨p, fn, hp, hstart⟩
  · cases hrun : b.run alive with
    | error fault t =>
      rw [after_of_error hrun, after_of_error (h.run_eq_error hrun)]
      exact ⟨[], .refl _ _ _⟩
    | ok v t =>
      obtain ⟨q, hq, hstops⟩ := hgoes v t hrun
      have hreaches := hp.tail (.intro hstart hrun)
      obtain ⟨names, hnames⟩ := evolves_of_goes ha.toWellFormed hreaches hq
      obtain ⟨more, hmore⟩ := hstops.evolves ha.toWellFormed (hreaches.trans hq)
      rw [after_of_ok hrun, hstart.scope]
      exact ⟨_, hnames.trans hmore⟩
  · obtain ⟨hcalls, -, -, -⟩ := hstart
    rw [after_eq hcalls.run_eq]
    exact ⟨[], .refl _ _ _⟩

/-- The scopes that the evaluation has made have the same bindings in a later store. -/
structure Settled (alive : Liveness) (a : Activation) (t : Store) : Prop where
  history : ∃ cs, (a.after alive).History cs t
  bindings_eq : ∀ i : Nat, a.store.size ≤ i → i < (a.after alive).size →
    (t.frame i).bindings = ((a.after alive).frame i).bindings

theorem Settled.starts {t : Store} (h : a.Settled alive t) (hstart : Starts alive a b)
    (ha : a.Proper) : b.Settled alive t := by
  obtain ⟨hb, cs, hcs⟩ := hstart.proper ha
  have hle := hcs.size_le
  -- the scope in which names are still bound is older than all that `b` has made
  obtain ⟨names, hafter⟩ := hstart.after ha
  obtain ⟨ds, hds⟩ := hafter.history
  obtain ⟨es, hes⟩ := h.history
  refine ⟨⟨ds ++ es, hds.trans hes⟩, fun i hi hi' => ?_⟩
  have hsize := hafter.size_le
  rw [h.bindings_eq i (by omega) (by omega),
    hafter.bindings_of_ne hi' (Nat.ne_of_gt (Nat.lt_of_lt_of_le hb.scope_lt hi))]

theorem Settled.occurs {t : Store} (h : a.Settled alive t) (hoccurs : Occurs alive a b)
    (ha : a.Proper) : b.Settled alive t := by
  induction hoccurs with
  | refl => exact h
  | tail hoccurs hstart ih => exact ih.starts hstart (Occurs.proper hoccurs ha).1

end Activation

namespace Session

variable {limit : Nat} {session : Session} {sources : List String} {o : Occurrence}
  {a b : Activation}

/-- **Scopes that an evaluation has made stay as they are when it has ended.** -/
theorem Evaluates.settled (h : session.Evaluates limit sources a) (hs : session.Sound) :
    a.Settled Held.keepsAlive (session.run limit sources).2.store := by
  obtain ⟨n, source, e, hsource, hparse, hoccurs⟩ := h
  have hsound := hs.run limit (sources.take n)
  have hproper := hsound.activation_proper hparse limit
  refine Activation.Settled.occurs ?_ hoccurs hproper
  -- the programs after this one bind names in the outermost scope
  have hrun : (session.run limit sources).2 =
      (((session.run limit (sources.take n)).2.eval limit source).2.run limit
        (sources.drop (n + 1))).2 := by
    rw [← run_take_succ hsource, ← run_append, List.take_append_drop]
  obtain ⟨names, hnames⟩ := (hsound.eval limit source).evolves_run limit (sources.drop (n + 1))
  rw [root_eval, hsound.root_eq] at hnames
  rw [hrun]
  rw [eval_of_parse hparse] at hnames ⊢
  refine ⟨hnames.history, fun i hi hi' => hnames.bindings_of_ne hi' ?_⟩
  have hpos := hproper.sound.nonempty
  omega

end Session

/-! ## Scopes and regions -/

namespace Activation

variable {alive : Liveness} {a b : Activation} {j : Nat}

theorem Starts.region?_eq_none (h : Starts alive a b) (ha : a.Proper) (hscope : b.scope = a.scope)
    (j : Nat) : a.term.region? j = none := by
  cases h with
  | head hk | arg hk _ _ _ | body hk _ _ _ _ | value hk _ | test hk | branch hk _ =>
    exact Term.region?_eq_none (by simp [hk]) _ j
  | first hk | part hk _ => exact absurd hscope (Nat.ne_of_gt ha.scope_lt)

theorem Starts.block (h : Starts alive a b) (ha : a.Proper) {parts : List Term}
    (hregion : a.term.region? j = some (.block parts)) :
    b.scope = a.store.size ∧ (a.store.push { outer := some a.scope }).Evolves a.store.size
      (Term.targetsOfAll parts) (a.after alive) := by
  obtain ⟨head, i, hterm, hk, rfl⟩ := Term.of_region?_eq_block hregion
  cases h with
  | head hk' | arg hk' _ _ _ | body hk' _ _ _ _ | value hk' _ | test hk' | branch hk' _ =>
    cases hterm
    rw [hk] at hk'
    cases hk'
  | first hk' | part hk' _ =>
    cases hterm
    have hafter := Leaves.storeAfter ((evolving alive).run ha.toWellFormed)
    rw [opened_of_opens (opens_block hk _ _), inner_of_opens (opens_block hk _ _), names,
      if_pos (opens_block hk _ _)] at hafter
    exact ⟨rfl, hafter⟩

end Activation

namespace Store

variable {s t : Store} {i j : Nat} {regions : List Region}

/-- The scopes around a scope are those of the regions, the innermost first, and bind no names that
these do not declare. -/
inductive Lexical (s : Store) : Nat → List Region → Prop
  | root : Lexical s 0 []
  | inner {i o : Nat} {region : Region} {regions : List Region}
      (houter : (s.frame i).outer = some o)
      (hnames : ∀ name ∈ (s.frame i).names, region.Declares name) (h : Lexical s o regions) :
      Lexical s i (region :: regions)

theorem Lexical.of_history {cs : List Change} (h : t.Lexical i regions) (hist : s.History cs t)
    (hs : s.Sound) (hi : i < s.size) : s.Lexical i regions := by
  induction h with
  | root => exact .root
  | @inner i o region regions houter hnames _ ih =>
    rw [hist.outer_eq hi] at houter
    have hlt := hs.outer_some houter
    refine .inner houter (fun name hname => hnames name ?_) (ih (by omega))
    rw [Frame.names, hist.bindings_eq hi, List.map_append]
    exact List.mem_append_left _ hname

theorem Lexical.chain_eq (h : s.Lexical i regions) (hs : s.Sound) :
    ∃ frames, s.chain i = frames ++ [0] ∧
      List.Forall₂ (fun j region => ∀ name ∈ (s.frame j).names, region.Declares name) frames
        regions := by
  induction h with
  | root => exact ⟨[], chain_of_outer_none hs.outer_zero hs.nonempty, .nil⟩
  | @inner i o region regions houter hnames _ ih =>
    obtain ⟨frames, hchain, hframes⟩ := ih
    exact ⟨i :: frames, by rw [hs.chain_of_outer_some houter, hchain]; rfl, .cons hnames hframes⟩

theorem exists_region_of_find? {frames : List ScopeId} {name : Symbol}
    (hchain : s.chain i = frames ++ [0])
    (hframes : List.Forall₂ (fun j region => ∀ name ∈ (s.frame j).names, region.Declares name)
      frames regions) (hfind : s.find? i name = some j) :
    j = 0 ∨ ∃ region, (j, region) ∈ frames.zip regions ∧ region.Declares name := by
  have hname : name ∈ (s.frame j).names := by
    have hbinds := List.find?_some hfind
    obtain ⟨v, hv⟩ := Option.isSome_iff_exists.1 hbinds
    exact List.mem_map_of_mem (Frame.mem_of_get? hv)
  have hmem := List.mem_of_find?_eq_some hfind
  rw [hchain, List.mem_append, List.mem_singleton] at hmem
  refine hmem.symm.imp_right fun hj => ?_
  clear hchain hmem
  induction hframes with
  | nil => cases hj
  | @cons k region frames regions hk _ ih =>
    rcases List.mem_cons.1 hj with rfl | hj
    · exact ⟨region, by simp, hk name hname⟩
    · obtain ⟨region', hmem, hdeclares⟩ := ih hj
      exact ⟨region', List.mem_cons_of_mem _ hmem, hdeclares⟩

end Store

namespace Session

variable {limit : Nat} {session : Session} {sources : List String} {o : Occurrence}
  {a b : Activation}

/-- A scope that an evaluation makes lies where it was made, and binds what it had at first and what
was bound in it during the evaluation. -/
theorem Evaluates.entered (h : session.Evaluates limit sources a) (hs : session.Sound)
    {t : Store} {f : Frame} {names : List Symbol} (hle : a.store.size ≤ t.size)
    (hafter : (t.push f).Evolves t.size names (a.after Held.keepsAlive)) :
    ((session.run limit sources).2.store.frame t.size).outer = f.outer ∧
      ∀ name ∈ ((session.run limit sources).2.store.frame t.size).names,
        name ∈ f.names ∨ name ∈ names := by
  have hlt : t.size < (t.push f).size := by simp
  have hlt' := Nat.lt_of_lt_of_le hlt hafter.size_le
  obtain ⟨⟨cs, hcs⟩, hbindings⟩ := h.settled hs
  constructor
  · rw [hcs.outer_eq hlt', hafter.outer_eq hlt, Store.frame_push_self]
  · intro name hname
    rw [Frame.names, hbindings t.size hle hlt'] at hname
    have hmem := hafter.mem_names hlt hname
    rwa [Store.frame_push_self] at hmem

/-- **The scope of an evaluation lies in the scopes of the regions around its place.** -/
theorem Locates.lexical (h : session.Locates limit sources o a) (hs : session.Sound) :
    (session.run limit sources).2.store.Lexical a.scope (o.regions sources) := by
  induction h with
  | @program n source e hsource hparse =>
    have hroot : ((session.run limit (sources.take n)).2.activation limit e).scope = 0 :=
      (hs.run limit _).root_eq
    rw [hroot]
    exact .root
  | @part o a b j ha hstart hscope hpart ih =>
    rw [Occurrence.regions, ha.term?_eq, Option.bind_some,
      hstart.region?_eq_none (ha.proper hs) hscope j, hscope]
    exact ih
  | @block o a b j parts ha hstart hregion hpart ih =>
    obtain ⟨hscope, hafter⟩ := hstart.block (ha.proper hs) hregion
    obtain ⟨houter, hnames⟩ := ha.evaluates.entered hs (Nat.le_refl _) hafter
    rw [Occurrence.regions, ha.term?_eq, Option.bind_some, hregion, hscope]
    refine .inner houter (fun name hname => ?_) ih
    have hset := (hnames name hname).resolve_left List.not_mem_nil
    obtain ⟨e, he, hmem⟩ := Term.mem_targetsOfAll.1 hset
    obtain ⟨head, i, hterm, -, -⟩ := Term.of_region?_eq_block hregion
    exact ⟨e, he, ((ha.proper hs).part hterm e (List.mem_cons_of_mem _ he)).sets hmem⟩
  | @body o o' a b c fn e params t j ha hcall hc hmade hregion _ ih =>
    have hb := (hcall.starts.proper (ha.proper hs)).1
    have hafter : b.store.Evolves b.scope b.term.targets (b.after Held.keepsAlive) :=
      hb.evolves_after _
    rw [← Activation.after_eq hcall.run_eq] at hafter
    rw [Occurrence.regions, hc.term?_eq, Option.bind_some, hregion]
    obtain ⟨hk, hhead, hargs, hcount, henters⟩ := hcall
    -- the scope of the function is that of the evaluation that made it, which the induction is on
    obtain ⟨rfl, rfl, rfl, -⟩ := Activation.of_enters_of_region? henters hmade hregion
    obtain ⟨⟨cs, hcs⟩, -⟩ := (ha.proper hs).call hk henters.isFunction hhead hargs
    obtain ⟨houter, hnames⟩ := ha.evaluates.entered hs hcs.size_le hafter
    refine .inner houter (fun name hname => ?_) ih
    refine (hnames name hname).imp (fun hparam => ?_) fun hset => hb.readable.sets hset
    obtain ⟨r, hr, rfl⟩ := List.mem_map.1 hparam
    exact (List.of_mem_zip (Frame.mem_of_mem_ofRecords hr)).1

/-- **Lexical scope.** Every evaluation of a session has a place in the source texts, and the scopes
that it comes to are those of the regions around that place, which bind only what the regions
declare, and then the outermost scope. -/
theorem Evaluates.lexical_scope (hs : session.Sound) (hplain : session.store.Holds (·.IsValue 0))
    (h : session.Evaluates limit sources a) :
    (∃ o, session.Locates limit sources o a) ∧
      ∀ o, session.Locates limit sources o a →
        o.term? sources = some a.term ∧
        ∃ frames, a.store.chain a.scope = frames ++ [session.root] ∧
          List.Forall₂ (fun i region => ∀ name ∈ (a.store.frame i).names, region.Declares name)
            frames (o.regions sources) ∧
          ∀ name i, a.store.find? a.scope name = some i →
            i = session.root ∨ ∃ region, (i, region) ∈ frames.zip (o.regions sources) ∧
              region.Declares name := by
  refine ⟨h.located hs hplain, fun o ho => ⟨ho.term?_eq, ?_⟩⟩
  have hproper := h.proper hs
  obtain ⟨cs, hcs⟩ := (hproper.evolves_after Held.keepsAlive).history
  obtain ⟨⟨ds, hds⟩, -⟩ := h.settled hs
  have hlexical := (ho.lexical hs).of_history (hcs.trans hds) hproper.sound hproper.scope_lt
  obtain ⟨frames, hchain, hframes⟩ := hlexical.chain_eq hproper.sound
  rw [hs.root_eq]
  exact ⟨frames, hchain, hframes, fun name i => Store.exists_region_of_find? hchain hframes⟩

/-- A callback does not come to the scope of the function that calls it. -/
theorem lexical_scope_callback :
    ∃ a : Activation, start.Evaluates 9 ["((fn (f) (f)) (fn () x))"] a ∧
      a.store.chain a.scope = [2, 0] ∧ (a.store.frame 1).names.map (·.name) = ["f"] ∧
      (∃ o, start.Locates 9 ["((fn (f) (f)) (fn () x))"] o a) ∧
      ∀ o, start.Locates 9 ["((fn (f) (f)) (fn () x))"] o a →
        (o.regions ["((fn (f) (f)) (fn () x))"]).length = 1 := by
  have hf : isWord "f".toList = true := by decide
  have hx : isWord "x".toList = true := by decide
  have hparse : Term.parse "((fn (f) (f)) (fn () x))" = .ok (.list [
      .list [Keyword.lambda.term, .list [.symbol ⟨"f", hf⟩], .list [.symbol ⟨"f", hf⟩]],
      .list [Keyword.lambda.term, .list [], .symbol ⟨"x", hx⟩]]) := rfl
  have hcaller : Activation.Starts Held.keepsAlive (start.activation 9 (.list [
      .list [Keyword.lambda.term, .list [.symbol ⟨"f", hf⟩], .list [.symbol ⟨"f", hf⟩]],
      .list [Keyword.lambda.term, .list [], .symbol ⟨"x", hx⟩]])) _ :=
    .body rfl rfl rfl rfl (.closure [⟨"f", hf⟩] (.list [.symbol ⟨"f", hf⟩]) 0)
  have hcallback := (Relation.ReflTransGen.single hcaller).tail
    (.body rfl rfl rfl rfl (.closure [] (.symbol ⟨"x", hx⟩) 0))
  obtain ⟨a, ha, hchain, hnames⟩ : ∃ a : Activation,
      start.Evaluates 9 ["((fn (f) (f)) (fn () x))"] a ∧ a.store.chain a.scope = [2, 0] ∧
        (a.store.frame 1).names.map (·.name) = ["f"] :=
    ⟨_, ⟨0, _, _, rfl, hparse, hcallback⟩, rfl, rfl⟩
  obtain ⟨hlocated, hplaces⟩ := ha.lexical_scope start_fresh.toSound start_holds
  refine ⟨a, ha, hchain, hnames, hlocated, fun o ho => ?_⟩
  obtain ⟨-, frames, hframes, hregions, -⟩ := hplaces o ho
  have hlength := congrArg List.length (hchain.symm.trans hframes)
  rw [List.length_append, hregions.length_eq] at hlength
  simpa using hlength.symm

end Session

end ScopedLisp
