import ScopedLisp.Proofs.History
import ScopedLisp.Session

/-!
# The moments of a session

A session evaluates terms, and these evaluations start others. Here are all evaluations that occur
in a session, and the states that it passes through.

* `Activation.Proper`: what holds whenever an evaluation starts;
* `Activation.Starts.proper`, `Activation.Occurs.proper`: what one start and what a whole run keeps;
* `Session.Passes`: the moments of a session;
* `Session.Initial`: the sessions that have evaluated nothing;
* **`Session.Passes.follows`**: the store of every moment is the result of a history, or of one and
  a binding in a scope in use whose retention is still to be decided.
-/

namespace ScopedLisp

namespace Activation

/-! ## What evaluations keep -/

/-- What holds whenever an evaluation starts: the outermost scope is in use as well. -/
structure Proper (a : Activation) : Prop extends a.WellFormed where
  root_mem : 0 ∈ a.held.scopes

variable {alive : Liveness} {a b : Activation} {p : Progress}

theorem WellFormed.yields (ha : a.WellFormed) (alive : Liveness) :
    Leaves (a.store.Evolves a.scope a.term.targets) (fun v t => v.IsValue t.size) (a.run alive) :=
  evaluateWith_yields alive a.limit a.held ha.sound ha.scope_lt ha.readable

theorem WellFormed.reaches (ha : a.WellFormed) (h : a.Reaches alive p) : a.Evolving p :=
  (evolving alive).reaches ha h

theorem WellFormed.part (ha : a.WellFormed) {items : List Term} (hterm : a.term = .list items) :
    ∀ e ∈ items, e.Readable := by
  have hread := ha.readable
  rw [hterm] at hread
  exact Term.readable_list_iff.1 hread

theorem WellFormed.history_opened (ha : a.WellFormed) : ∃ cs, a.store.History cs a.opened := by
  cases ho : a.opens with
  | true =>
    rw [opened_of_opens ho]
    exact ⟨_, .cons (c := .made _) ⟨⟨a.scope, rfl, ha.scope_lt⟩, rfl, by simp⟩ (.nil _)⟩
  | false =>
    rw [opened_of_not_opens ho]
    exact ⟨[], .nil _⟩

theorem WellFormed.history (ha : a.WellFormed) (h : a.Reaches alive p) :
    ∃ cs, a.store.History cs p.store := by
  obtain ⟨cs, hcs⟩ := ha.history_opened
  obtain ⟨ds, hds⟩ := (ha.reaches h).evolves.history
  exact ⟨cs ++ ds, hcs.trans hds⟩

theorem WellFormed.call {limit : Nat} {held : Held} {scope : ScopeId} {head fn : Term}
    {args values : List Term} {s t u : Store}
    (ha : WellFormed ⟨limit + 1, held, scope, .list (head :: args), s⟩)
    (hk : Keyword.ofTerm? head = none) (hfn : fn.isFunction = true)
    (hhead : evaluateWith alive limit (held.enter scope) scope head s = .ok fn t)
    (hargs : evaluateArgs (evaluateWith alive limit) ((held.enter scope).keep fn) scope args t =
      .ok values u) :
    (∃ cs, s.History cs u) ∧ scope < u.size ∧ fn.IsValue u.size ∧
      ∀ v ∈ values, v.IsValue u.size := by
  have hreaches := reaches_args hk hhead hfn hargs []
  rw [List.append_nil] at hreaches
  have hp := ha.reaches hreaches
  exact ⟨ha.history hreaches, hp.scope_lt ha, hp.values _ List.mem_cons_self, fun v hv =>
    hp.values v (List.mem_cons_of_mem _ hv)⟩

/-- **What one start keeps**: the new evaluation is proper as well, and the store has only gone
through changes of the kind that evaluation makes. -/
theorem Starts.proper (h : Starts alive a b) (ha : a.Proper) :
    b.Proper ∧ ∃ cs, a.store.History cs b.store := by
  have hb := (evolving alive).starts ha.toWellFormed h
  rcases h.progress with ⟨p, j, hreaches, hstart, -⟩ | ⟨p, fn, hreaches, hstart⟩
  · refine ⟨⟨hb, ?_⟩, ?_⟩
    · rw [hstart.held]
      exact List.mem_cons_of_mem _ ha.root_mem
    · rw [hstart.store]
      exact ha.history hreaches
  · obtain ⟨-, hvalues, -, henters⟩ := hstart
    refine ⟨⟨hb, List.mem_cons_of_mem _ ha.root_mem⟩, ?_⟩
    obtain ⟨cs, hcs⟩ := ha.history hreaches
    have hval := (ha.reaches hreaches).values
    rw [hvalues] at hval
    obtain ⟨hfn, hargs⟩ := List.forall_mem_cons.1 hval
    exact ⟨_, hcs.trans (.cons (henters.allowed hfn hargs).2 (.nil _))⟩

/-- **What a whole run keeps.** -/
theorem Occurs.proper (h : Occurs alive a b) (ha : a.Proper) :
    b.Proper ∧ ∃ cs, a.store.History cs b.store := by
  induction h with
  | refl => exact ⟨ha, [], .nil _⟩
  | tail _ hstep ih =>
    obtain ⟨hb, cs, hcs⟩ := ih
    obtain ⟨hc, ds, hds⟩ := hstep.proper hb
    exact ⟨hc, cs ++ ds, hcs.trans hds⟩

end Activation

/-! ## What moments keep -/

/-- The outermost scope is in use, and the store comes from another one by a history, after which a
value may have been bound in a scope in use whose retention is still to be decided. -/
structure Moment.Follows (s : Store) (m : Moment) : Prop where
  root_mem : 0 ∈ m.held.scopes
  store : ∃ cs t, s.History cs t ∧ (m.store = t ∨ ∃ scope name value, scope ∈ m.held.scopes ∧
    (Change.bound scope name value).Allowed t ∧ m.store = t.modify scope (·.extend name value))

theorem Moment.Follows.sound {s : Store} {m : Moment} (h : m.Follows s) (hs : s.Sound) :
    m.store.Sound := by
  obtain ⟨cs, t, hist, heq | ⟨scope, name, value, -, hallowed, heq⟩⟩ := h.store
  · rw [heq]
    exact hist.sound hs
  · rw [heq]
    exact (hist.sound hs).extend hallowed.1 hallowed.2.2

theorem Moment.Follows.of_history {s t : Store} {cs : List Change} {m : Moment}
    (h : m.Follows t) (hist : s.History cs t) : m.Follows s := by
  obtain ⟨hroot, ds, u, hist', hu⟩ := h
  exact ⟨hroot, cs ++ ds, u, hist.trans hist', hu⟩

theorem Activation.Passes.follows {alive : Liveness} {a : Activation} {m : Moment}
    (h : a.Passes alive m) (ha : a.Proper) : m.Follows a.store := by
  have hroot : 0 ∈ (a.held.enter a.scope).scopes := List.mem_cons_of_mem _ ha.root_mem
  cases h with
  | begins => exact ⟨hroot, [], _, .nil _, .inl rfl⟩
  | calls hk hhead hfn hargs =>
    obtain ⟨⟨cs, hcs⟩, -⟩ := ha.call hk hfn hhead hargs
    exact ⟨hroot, cs, _, hcs, .inl rfl⟩
  | @binds limit held scope head target e value name s t hk hname hvalue hnew =>
    obtain ⟨hevolves, hval⟩ := (evaluateWith_yields alive limit _ ha.sound ha.scope_lt
      (ha.part rfl e (by simp))).of_ok hvalue
    obtain ⟨cs, hcs⟩ := hevolves.history
    exact ⟨hroot, cs, t, hcs, .inr ⟨scope, name, value, List.mem_cons_self,
      ⟨Nat.lt_of_lt_of_le ha.scope_lt hcs.size_le, hnew, hval⟩, rfl⟩⟩
  | @defines limit held scope head target paramList body name params s hk hname hparams hnew =>
    have hval : (Term.named name params body scope).IsValue s.size :=
      ⟨ha.part rfl body (by simp), ha.scope_lt⟩
    exact ⟨hroot, [], s, .nil _, .inr ⟨scope, name, _, List.mem_cons_self,
      ⟨ha.scope_lt, hnew, hval⟩, rfl⟩⟩
  | @ends a value t h =>
    obtain ⟨cs, hcs⟩ := ((ha.yields alive).of_ok h).1.history
    exact ⟨ha.root_mem, cs, t, hcs, .inl rfl⟩
  | @fails a fault t h =>
    obtain ⟨cs, hcs⟩ := ((ha.yields alive).of_error h).history
    exact ⟨ha.root_mem, cs, t, hcs, .inl rfl⟩

/-! ## Sessions -/

/-- The evaluation of a term by a session. -/
def Session.activation (limit : Nat) (s : Session) (e : Term) : Activation :=
  ⟨limit, { scopes := [s.root] }, s.root, e, s.store⟩

/-- The moments of a session that evaluates source texts one after the other. -/
inductive Session.Passes (limit : Nat) : Session → List String → Moment → Prop
  | rests (s : Session) (sources : List String) :
      Passes limit s sources ⟨{ scopes := [s.root] }, s.store⟩
  | during {s : Session} {source : String} {sources : List String} {e : Term} {a : Activation}
      {m : Moment} (hparse : Term.parse source = .ok e)
      (hoccurs : (s.activation limit e).Occurs Held.keepsAlive a)
      (h : a.Passes Held.keepsAlive m) : Passes limit s (source :: sources) m
  | later {s : Session} {source : String} {sources : List String} {m : Moment}
      (h : Passes limit (s.eval limit source).2 sources m) : Passes limit s (source :: sources) m

namespace Session

/-- The outermost scope of the session has the number zero, and its store is sound. -/
structure Sound (s : Session) : Prop where
  root_eq : s.root = 0
  store : s.store.Sound

/-- A session that has made no scope but the outermost one. -/
structure Fresh (s : Session) : Prop extends s.Sound where
  size_eq : s.store.size = 1

theorem Sound.activation_proper {s : Session} (hs : s.Sound) {source : String} {e : Term}
    (hparse : Term.parse source = .ok e) (limit : Nat) : (s.activation limit e).Proper := by
  refine ⟨⟨?_, Term.readable_of_parse hparse, hs.store⟩, ?_⟩
  · change s.root < s.store.size
    rw [hs.root_eq]
    exact hs.store.nonempty
  · rw [activation, hs.root_eq]
    exact List.mem_cons_self

theorem evaluate_of_ok {limit : Nat} {s : Session} {e v : Term} {t : Store}
    (h : ScopedLisp.evaluate limit { scopes := [s.root] } s.root e s.store = .ok v t) :
    s.evaluate limit e = (.ok v, ⟨t, s.root⟩) := by
  rw [Session.evaluate, Session.evaluateWith, h]

theorem evaluate_of_error {limit : Nat} {s : Session} {e : Term} {fault : Fault} {t : Store}
    (h : ScopedLisp.evaluate limit { scopes := [s.root] } s.root e s.store = .error fault t) :
    s.evaluate limit e = (.error fault, ⟨t, s.root⟩) := by
  rw [Session.evaluate, Session.evaluateWith, h]

theorem eval_of_parse_error {s : Session} {source : String} {fault : Fault}
    (hparse : Term.parse source = .error fault) (limit : Nat) :
    s.eval limit source = (.error fault, s) := by
  rw [eval, evalWith, hparse]

theorem eval_of_parse_ok {s : Session} {source : String} {e : Term}
    (hparse : Term.parse source = .ok e) (limit : Nat) :
    s.eval limit source = s.evaluate limit e := by
  rw [eval, evalWith, hparse, evaluate]

theorem exists_of_eval_ok {limit : Nat} {s : Session} {source : String} {v : Term}
    (h : (s.eval limit source).1 = .ok v) :
    ∃ e t, Term.parse source = .ok e ∧
      ScopedLisp.evaluate limit { scopes := [s.root] } s.root e s.store = .ok v t ∧
      (s.eval limit source).2 = ⟨t, s.root⟩ := by
  cases hparse : Term.parse source with
  | error fault => rw [eval_of_parse_error hparse] at h; cases h
  | ok e =>
    rw [eval_of_parse_ok hparse] at h ⊢
    cases hx : ScopedLisp.evaluate limit { scopes := [s.root] } s.root e s.store with
    | error fault t => rw [evaluate_of_error hx] at h; cases h
    | ok w t =>
      rw [evaluate_of_ok hx] at h ⊢
      cases h
      exact ⟨e, t, rfl, hx, rfl⟩

theorem eval_of_parse {s : Session} {source : String} {e : Term}
    (hparse : Term.parse source = .ok e) (limit : Nat) : (s.eval limit source).2 =
      ⟨Eval.storeAfter (ScopedLisp.evaluate limit { scopes := [s.root] } s.root e) s.store,
        s.root⟩ := by
  rw [eval_of_parse_ok hparse]
  cases hx : ScopedLisp.evaluate limit { scopes := [s.root] } s.root e s.store with
  | ok v t => rw [evaluate_of_ok hx, Eval.storeAfter_of_ok hx]
  | error fault t => rw [evaluate_of_error hx, Eval.storeAfter_of_error hx]

@[simp]
theorem root_eval (limit : Nat) (s : Session) (source : String) :
    (s.eval limit source).2.root = s.root := by
  cases hparse : Term.parse source with
  | error fault => rw [eval_of_parse_error hparse]
  | ok e => rw [eval_of_parse hparse]

theorem Sound.evolves_eval {s : Session} (hs : s.Sound) (limit : Nat) (source : String) :
    ∃ names, s.store.Evolves s.root names (s.eval limit source).2.store := by
  cases hparse : Term.parse source with
  | error fault =>
    rw [eval_of_parse_error hparse]
    exact ⟨[], .refl _ [] _⟩
  | ok e =>
    rw [eval_of_parse hparse]
    exact ⟨_, Leaves.storeAfter ((hs.activation_proper hparse limit).yields _)⟩

/-- **Evaluating a source text takes the store through a history**, however it ends. -/
theorem Sound.history_eval {s : Session} (hs : s.Sound) (limit : Nat) (source : String) :
    (s.eval limit source).2.root = s.root ∧
      ∃ cs, s.store.History cs (s.eval limit source).2.store := by
  obtain ⟨names, hnames⟩ := hs.evolves_eval limit source
  exact ⟨root_eval limit s source, hnames.history⟩

theorem Sound.eval {s : Session} (hs : s.Sound) (limit : Nat) (source : String) :
    (s.eval limit source).2.Sound := by
  obtain ⟨hroot, cs, hcs⟩ := hs.history_eval limit source
  exact ⟨hroot.trans hs.root_eq, hcs.sound hs.store⟩

theorem run_cons (s : Session) (limit : Nat) (source : String) (sources : List String) :
    (s.run limit (source :: sources)).2 = ((s.eval limit source).2.run limit sources).2 := rfl

@[simp]
theorem root_run (limit : Nat) (s : Session) (sources : List String) :
    (s.run limit sources).2.root = s.root := by
  induction sources generalizing s with
  | nil => rfl
  | cons source sources ih => rw [run_cons, ih, root_eval]

theorem Sound.evolves_run {s : Session} (hs : s.Sound) (limit : Nat) (sources : List String) :
    ∃ names, s.store.Evolves s.root names (s.run limit sources).2.store := by
  induction sources generalizing s with
  | nil => exact ⟨[], .refl _ [] _⟩
  | cons source sources ih =>
    obtain ⟨names, hnames⟩ := hs.evolves_eval limit source
    obtain ⟨more, hmore⟩ := ih (hs.eval limit source)
    rw [root_eval] at hmore
    exact ⟨names ++ more, hnames.trans hmore⟩

theorem Sound.history_run {s : Session} (hs : s.Sound) (limit : Nat) (sources : List String) :
    (s.run limit sources).2.root = s.root ∧
      ∃ cs, s.store.History cs (s.run limit sources).2.store := by
  obtain ⟨names, hnames⟩ := hs.evolves_run limit sources
  exact ⟨root_run limit s sources, hnames.history⟩

theorem Sound.run {s : Session} (hs : s.Sound) (limit : Nat) (sources : List String) :
    (s.run limit sources).2.Sound := by
  obtain ⟨hroot, cs, hcs⟩ := hs.history_run limit sources
  exact ⟨hroot.trans hs.root_eq, hcs.sound hs.store⟩

theorem run_append (s : Session) (limit : Nat) (sources more : List String) :
    (s.run limit (sources ++ more)).2 = ((s.run limit sources).2.run limit more).2 := by
  induction sources generalizing s with
  | nil => rfl
  | cons source sources ih => exact ih (s.eval limit source).2

theorem fst_run_append (s : Session) (limit : Nat) (sources more : List String) :
    (s.run limit (sources ++ more)).1 =
      (s.run limit sources).1 ++ ((s.run limit sources).2.run limit more).1 := by
  induction sources generalizing s with
  | nil => rfl
  | cons source sources ih =>
    exact congrArg ((s.eval limit source).1 :: ·) (ih (s.eval limit source).2)

theorem length_run (limit : Nat) (s : Session) (sources : List String) :
    (s.run limit sources).1.length = sources.length := by
  induction sources generalizing s with
  | nil => rfl
  | cons source sources ih => exact congrArg (· + 1) (ih (s.eval limit source).2)

theorem run_take_succ {sources : List String} {n : Nat} {source : String}
    (hsource : sources[n]? = some source) (s : Session) (limit : Nat) :
    (s.run limit (sources.take (n + 1))).2 =
      ((s.run limit (sources.take n)).2.eval limit source).2 := by
  rw [List.take_add_one, hsource, run_append]
  rfl

theorem evaluateWith_congr {ev ev' : Evaluator} {s : Session} {e : Term}
    (h : ev { scopes := [s.root] } s.root e s.store =
      ev' { scopes := [s.root] } s.root e s.store) :
    s.evaluateWith ev e = s.evaluateWith ev' e := by
  obtain ⟨store, root⟩ := s
  unfold evaluateWith
  dsimp only at h ⊢
  rw [h]

theorem Sound.runWith_eq {ev : Evaluator} {limit : Nat}
    (h : ∀ {s : Session} {e : Term}, s.Sound → (s.activation limit e).Proper →
      ev { scopes := [s.root] } s.root e s.store = (s.activation limit e).run Held.keepsAlive)
    {s : Session} (hs : s.Sound) (sources : List String) :
    s.runWith ev sources = s.run limit sources := by
  have heval : ∀ {s : Session} {source : String}, s.Sound →
      s.evalWith ev source = s.eval limit source := by
    intro s source hs
    unfold Session.eval evalWith
    cases hparse : Term.parse source with
    | error fault => rfl
    | ok e => exact evaluateWith_congr (h hs (hs.activation_proper hparse limit))
  induction sources generalizing s with
  | nil => rfl
  | cons source sources ih =>
    have hrest := ih (hs.eval limit source)
    unfold Session.run at hrest ⊢
    rw [runWith, runWith, heval hs]
    exact congrArg (fun r => (_ :: r.1, r.2)) hrest

/-- **The store of every moment comes from a history**, or from one and a binding in a scope in use
whose retention is still to be decided. -/
theorem Passes.follows {limit : Nat} {s : Session} {sources : List String} {m : Moment}
    (h : s.Passes limit sources m) (hs : s.Sound) : m.Follows s.store := by
  induction h with
  | rests s sources =>
    refine ⟨?_, [], _, .nil _, .inl rfl⟩
    rw [hs.root_eq]
    exact List.mem_cons_self
  | during hparse hoccurs h =>
    obtain ⟨ha, cs, hcs⟩ := hoccurs.proper (hs.activation_proper hparse limit)
    exact (h.follows ha).of_history hcs
  | @later s source sources m h ih =>
    obtain ⟨-, cs, hcs⟩ := hs.history_eval limit source
    exact (ih (hs.eval limit source)).of_history hcs

theorem passes_run (limit : Nat) (s : Session) (sources : List String) :
    s.Passes limit sources ⟨{ scopes := [s.root] }, (s.run limit sources).2.store⟩ := by
  induction sources generalizing s with
  | nil => exact .rests s []
  | cons source sources ih =>
    have hend := ih (s.eval limit source).2
    rw [root_eval] at hend
    exact .later hend

/-- A session that has evaluated nothing: its only scope binds builtin functions. -/
structure Initial (s : Session) : Prop where
  root_eq : s.root = 0
  size_eq : s.store.size = 1
  outer_eq : (s.store.frame 0).outer = none
  retained_eq : (s.store.frame 0).retained = []
  builtins : ∀ b ∈ (s.store.frame 0).bindings, ∃ f, b.2 = .builtin f

theorem start_initial : start.Initial := by
  refine ⟨rfl, rfl, rfl, rfl, fun b hb => ?_⟩
  obtain ⟨f, -, rfl⟩ := List.mem_map.1 hb
  exact ⟨f, rfl⟩

theorem bare_initial : bare.Initial := ⟨rfl, rfl, rfl, rfl, fun _ hb => nomatch hb⟩

theorem Initial.fresh {s : Session} (hs : s.Initial) : s.Fresh := by
  have hsize := hs.size_eq
  have hrest : ∀ i : Nat, i ≠ 0 → s.store.frame i = {} := fun i hi =>
    Store.frame_of_size_le (by omega)
  refine ⟨⟨hs.root_eq, by omega, hs.outer_eq, fun i hpos hi => by omega, fun i b hb => ?_,
    fun i hi => by rw [hrest i hi], fun i hi => ?_⟩, hsize⟩
  · by_cases hi : i = 0
    · subst hi
      obtain ⟨f, hf⟩ := hs.builtins b hb
      rw [hf]
      trivial
    · rw [hrest i hi] at hb
      cases hb
  · rw [hs.retained_eq] at hi
    cases hi

theorem start_fresh : start.Fresh := start_initial.fresh

end Session

end ScopedLisp
