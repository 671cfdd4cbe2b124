import ScopedLisp.Proofs.Regions

/-!
# Simulations

One evaluation follows another one step by step: in other scopes, of translated terms and with some
levels of nesting more. The stores stay related, and so do the values and errors, as long as no
names are used but those that both sides treat alike.

* `Translation`, `Translation.value`: the scope, the term and the value that stand for another one;
* `Simulation`: what stores correspond, and after which faults nothing is said;
* `Simulation.Matches`: how the end of a computation follows from the end of another one;
* `Simulation.Lawful`: what the three operations on stores, the lifetime of scopes and the
  translation of terms have to satisfy;
* `Simulation.Followed`: an evaluation is followed;
* **`Simulation.Lawful.followed`**: every evaluation is, if all that occur in it use only such
  names.
-/

namespace ScopedLisp

/-- A translation of scopes, terms and values. -/
structure Translation where
  /-- The scope that stands for a scope. -/
  scope : ScopeId → ScopeId
  /-- The term that is evaluated instead of a term. -/
  term : Term → Term
  /-- Whether closures stand for named functions. -/
  asClosures : Bool

/-- The value that stands for a value. -/
def Translation.value (tr : Translation) : Term → Term
  | .closure params body o => .closure params (tr.term body) (tr.scope o)
  | .named name params body o =>
    if tr.asClosures then .closure params (tr.term body) (tr.scope o)
    else .named name params (tr.term body) (tr.scope o)
  | t => t

/-- The bindings that stand for bindings. -/
def Translation.bindings (tr : Translation) (table : List (Symbol × Term)) :
    List (Symbol × Term) :=
  table.map fun b => (b.1, tr.value b.2)

/-- A way to follow evaluations by other ones. -/
structure Simulation extends Translation where
  /-- The further levels of nesting. -/
  extra : Nat
  /-- The stores that correspond. -/
  Stores : Store → Store → Prop
  /-- What is in use on both sides. -/
  Helds : Held → Held → Prop
  /-- The faults after which nothing is said. -/
  Waived : Fault → Prop
  /-- The names that both sides treat alike. -/
  Names : Symbol → Prop

namespace Simulation

variable (sim : Simulation)

/-- A computation is followed by another one: to the value that stands for its value, or to the same
fault, and to a store that corresponds. -/
def Matches {α β : Type} (f : α → β) (x : Eval α) (s : Store) (x' : Eval β) (s' : Store) : Prop :=
  match x s with
  | .ok a t => ∃ t', x' s' = .ok (f a) t' ∧ sim.Stores t t'
  | .error fault t => sim.Waived fault ∨ ∃ t', x' s' = .error fault t' ∧ sim.Stores t t'

/-- What makes evaluations follow one another. -/
structure Lawful : Prop where
  exhausted : sim.Waived .exhausted ∨ sim.extra = 0
  symbol? : ∀ t, (sim.term t).symbol? = t.symbol?
  paramNames : ∀ t, paramNames (sim.term t) = paramNames t
  bool : ∀ b, sim.term (.bool b) = .bool b
  int : ∀ n, sim.term (.int n) = .int n
  list_nil : sim.term (.list []) = .list []
  list_cons : ∀ head parts, Keyword.ofTerm? head ≠ some .define →
    sim.term (.list (head :: parts)) = .list (sim.term head :: parts.map sim.term)
  define : ∀ {limit : Nat} {held held' : Held} {scope : Nat} {head : Term} {parts : List Term}
    {s s' : Store}, Keyword.ofTerm? head = some .define →
    (∀ name, (Term.list (head :: parts)).target? = some name → sim.Names name) →
    sim.Stores s s' → s.Sound → scope < s.size → (∀ e ∈ parts, e.Readable) →
    sim.Matches sim.value (evaluate (limit + 1) held scope (.list (head :: parts))) s
      (evaluate (limit + 1 + sim.extra) held' (sim.scope scope)
        (sim.term (.list (head :: parts)))) s'
  lookup : ∀ {s s' : Store} {scope : Nat} {name : Symbol}, sim.Names name → sim.Stores s s' →
    s.Sound → scope < s.size →
    sim.Matches sim.value (Eval.lookup scope name) s (Eval.lookup (sim.scope scope) name) s'
  bind : ∀ {s s' : Store} {scope : Nat} {name : Symbol} {v : Term}, sim.Names name →
    sim.Stores s s' → s.Sound → scope < s.size → v.IsValue s.size →
    sim.Matches sim.value (Eval.define scope name v) s
      (Eval.define (sim.scope scope) name (sim.value v)) s'
  push : ∀ {s s' : Store} {o : Nat} {records : List (Symbol × Term)}, sim.Stores s s' → s.Sound →
    o < s.size → (∀ r ∈ records, r.2.IsValue s.size) → sim.scope s.size = s'.size ∧
      sim.Stores (s.push (Frame.ofRecords records (some o)))
        (s'.push (Frame.ofRecords (sim.bindings records) (some (sim.scope o))))
  enter : ∀ {held held' : Held} (scope : ScopeId), sim.Helds held held' →
    sim.Helds (held.enter scope) (held'.enter (sim.scope scope))
  keepAll : ∀ {held held' : Held} {n : Nat} {values : List Term}, sim.Helds held held' →
    (∀ v ∈ values, v.IsValue n) →
    sim.Helds (held.keepAll values) (held'.keepAll (values.map sim.value))
  alive : ∀ {held held' : Held} {s s' : Store} {o : Nat}, sim.Helds held held' → sim.Stores s s' →
    s.Sound → o < s.size → sim.asClosures = false → held.keepsAlive s o = true →
    held'.keepsAlive s' (sim.scope o) = true
  reclaimed : ∀ {held held' : Held} {s s' : Store} {o : Nat} (name : Symbol),
    sim.Helds held held' → sim.Stores s s' → s.Sound → o < s.size → held.keepsAlive s o = false →
    sim.Waived (.error (.scopeReclaimed name)) ∨
      sim.asClosures = false ∧ held'.keepsAlive s' (sim.scope o) = false

variable {sim}

/-! ## Computations -/

section Computations

variable {α β γ δ : Type} {f : α → β} {g : γ → δ} {x : Eval α} {x' : Eval β} {s s' : Store}

theorem matches_pure (h : sim.Stores s s') {a : α} {b : β} (hb : b = f a) :
    sim.Matches f (pure a) s (pure b) s' :=
  ⟨s', by rw [hb]; rfl, h⟩

theorem matches_fail (h : sim.Stores s s') (e : Error) :
    sim.Matches f (Eval.fail e) s (Eval.fail e) s' :=
  .inr ⟨s', rfl, h⟩

theorem matches_ofExcept (h : sim.Stores s s') {r : Except Error α} {r' : Except Error β}
    (hr : r' = r.map f) : sim.Matches f (Eval.ofExcept r) s (Eval.ofExcept r') s' := by
  rw [hr]
  cases r with
  | ok a => exact matches_pure h rfl
  | error e => exact matches_fail h e

theorem matches_checkCount (h : sim.Stores s s') (params : List Symbol) (args : List Term) :
    sim.Matches id (checkCount params args) s (checkCount params (args.map sim.value)) s' := by
  unfold checkCount
  rw [List.length_map]
  split_ifs
  · exact matches_pure h rfl
  · exact matches_fail h _

theorem Matches.congr {y : Eval α} {y' : Eval β} (h : sim.Matches f x s x' s') (hx : y s = x s)
    (hx' : y' s' = x' s') : sim.Matches f y s y' s' := by
  unfold Matches at *
  rwa [hx, hx']

theorem Matches.bind {k : α → Eval γ} {k' : β → Eval δ} (hx : sim.Matches f x s x' s')
    (hk : ∀ a t t', x s = .ok a t → sim.Stores t t' → sim.Matches g (k a) t (k' (f a)) t') :
    sim.Matches g (x >>= k) s (x' >>= k') s' := by
  unfold Matches at hx
  cases hxs : x s with
  | ok a t =>
    rw [hxs] at hx
    obtain ⟨t', hx', ht⟩ := hx
    have h := hk a t t' hxs ht
    unfold Matches at h ⊢
    rwa [Eval.bind_of_ok hxs, Eval.bind_of_ok hx']
  | error fault t =>
    rw [hxs] at hx
    unfold Matches
    rw [Eval.bind_of_error hxs]
    refine hx.imp_right fun ⟨t', hx', ht⟩ => ⟨t', Eval.bind_of_error hx', ht⟩

theorem Matches.of_ok (h : sim.Matches f x s x' s') {a : α} {t : Store} (hx : x s = .ok a t) :
    ∃ t', x' s' = .ok (f a) t' ∧ sim.Stores t t' := by
  unfold Matches at h
  rwa [hx] at h

theorem Matches.of_error (h : sim.Matches f x s x' s') {fault : Fault} {t : Store}
    (hx : x s = .error fault t) (hfault : ¬ sim.Waived fault) :
    ∃ t', x' s' = .error fault t' ∧ sim.Stores t t' := by
  unfold Matches at h
  rw [hx] at h
  exact h.resolve_left hfault

end Computations

end Simulation

/-! ## Values -/

namespace Translation

variable {tr : Translation}

theorem isFunction_value (v : Term) : (tr.value v).isFunction = v.isFunction := by
  cases v with
  | named name params body o =>
    rw [value]
    split_ifs <;> rfl
  | _ => rfl

theorem value_of_isValue_zero {v : Term} (h : v.IsValue 0) : tr.value v = v := by
  cases v with
  | closure params body o => exact absurd h.2 (Nat.not_lt_zero o)
  | named name params body o => exact absurd h.2 (Nat.not_lt_zero o)
  | _ => rfl

theorem toInt_value (v : Term) : Builtin.toInt (tr.value v) = Builtin.toInt v := by
  cases v with
  | named name params body o =>
    rw [value]
    split_ifs <;> rfl
  | _ => rfl

theorem toBool_value (v : Term) : Builtin.toBool (tr.value v) = Builtin.toBool v := by
  cases v with
  | named name params body o =>
    rw [value]
    split_ifs <;> rfl
  | _ => rfl

theorem lookup_bindings (name : Symbol) (table : List (Symbol × Term)) :
    (tr.bindings table).lookup name = (table.lookup name).map tr.value := by
  induction table with
  | nil => rfl
  | cons b table ih =>
    have ih : List.lookup name (List.map (fun b => (b.1, tr.value b.2)) table) = _ := ih
    rw [bindings, List.map_cons, List.lookup_cons, List.lookup_cons]
    split
    · rfl
    · exact ih

theorem map_fst_bindings (table : List (Symbol × Term)) :
    (tr.bindings table).map (·.1) = table.map (·.1) := by
  rw [bindings, List.map_map]
  rfl

theorem bindings_put (name : Symbol) (v : Term) (table : List (Symbol × Term)) :
    tr.bindings (Frame.put name v table) = Frame.put name (tr.value v) (tr.bindings table) := by
  induction table with
  | nil => rfl
  | cons b table ih =>
    simp only [bindings, Frame.put, List.map_cons] at ih ⊢
    split_ifs
    · rfl
    · rw [List.map_cons, ih]

theorem bindings_ofRecords (records : List (Symbol × Term)) (outer outer' : Option ScopeId) :
    (Frame.ofRecords (tr.bindings records) outer').bindings =
      tr.bindings (Frame.ofRecords records outer).bindings := by
  have haux : ∀ (records table : List (Symbol × Term)),
      (tr.bindings records).foldl (fun table record => Frame.put record.1 record.2 table)
        (tr.bindings table) =
      tr.bindings
        (records.foldl (fun table record => Frame.put record.1 record.2 table) table) := by
    intro records
    induction records with
    | nil => exact fun table => rfl
    | cons r rs ih =>
      intro table
      have hput : tr.bindings (Frame.put r.1 r.2 table) = _ := bindings_put r.1 r.2 table
      rw [List.foldl_cons, ← ih, hput]
      rfl
  exact haux records []

theorem pairOf_map {α : Type} {convert : Term → Except Error α} {f : Term → Term}
    (h : ∀ t, convert (f t) = convert t) (args : List Term) :
    Builtin.pairOf convert (args.map f) = Builtin.pairOf convert args := by
  match args with
  | [] | [_] | _ :: _ :: _ :: _ => rfl
  | [a, b] => simp only [List.map_cons, List.map_nil, Builtin.pairOf, h]

/-- A builtin function does not tell functions apart. -/
theorem call_map_value (b : Builtin) (args : List Term) :
    b.call (args.map tr.value) = b.call args := by
  have hint : Builtin.pairOf Builtin.toInt (args.map tr.value) =
      Builtin.pairOf Builtin.toInt args :=
    pairOf_map toInt_value args
  have hbool : Builtin.pairOf Builtin.toBool (args.map tr.value) =
      Builtin.pairOf Builtin.toBool args := pairOf_map toBool_value args
  have hnot : Builtin.negation (args.map tr.value) = Builtin.negation args := by
    match args with
    | [] | _ :: _ :: _ => rfl
    | [a] => simp only [List.map_cons, List.map_nil, Builtin.negation, toBool_value]
  cases b <;> simp only [Builtin.call, Builtin.arithmetic, Builtin.quotient, Builtin.comparison,
    Builtin.connective, Builtin.equal, hint, hbool, hnot]

theorem call_value {b : Builtin} {args : List Term} :
    b.call (args.map tr.value) = (b.call args).map tr.value := by
  rw [call_map_value]
  cases h : b.call args with
  | error e => rfl
  | ok v => exact congrArg Except.ok (value_of_isValue_zero (Builtin.isValue_of_call h 0)).symm

/-! ### Translations of scopes -/

/-- Scopes have other numbers, and all else stays as it is. -/
def moving (f : ScopeId → ScopeId) : Translation where
  scope := f
  term := id
  asClosures := false

variable {f : ScopeId → ScopeId} {v : Term} {n m : Nat}

theorem render_moving (f : ScopeId → ScopeId) (v : Term) :
    ((moving f).value v).render = v.render := by
  cases v <;> rfl

theorem closureScope?_moving (f : ScopeId → ScopeId) (v : Term) :
    ((moving f).value v).closureScope? = v.closureScope?.map f := by
  cases v <;> rfl

theorem isValue_moving (h : v.IsValue n) (hf : ∀ i < n, f i < m) :
    ((moving f).value v).IsValue m := by
  cases v with
  | closure params body o => exact ⟨h.1, hf o h.2⟩
  | named name params body o => exact ⟨h.1, hf o h.2⟩
  | _ => exact h

theorem scopes_moving (h : v.IsValue n) : ((moving f).value v).scopes = v.scopes.map f := by
  cases v with
  | closure params body o =>
    change f o :: body.scopes = (o :: body.scopes).map f
    rw [h.1.scopes_eq_nil]
    rfl
  | named name params body o =>
    change body.scopes = body.scopes.map f
    rw [h.1.scopes_eq_nil]
    rfl
  | list items => exact h.elim
  | _ => rfl

theorem value_moving_eq_self (h : v.IsValue n) (hf : ∀ i < n, f i = i) :
    (moving f).value v = v := by
  cases v with
  | closure params body o => exact congrArg (Term.closure params body) (hf o h.2)
  | named name params body o => exact congrArg (Term.named name params body) (hf o h.2)
  | _ => rfl

end Translation

namespace Simulation

variable {sim : Simulation}

/-! ## Evaluation -/

theorem matches_lookup {s s' : Store} (hst : sim.Stores s s') (hs : s.Sound)
    {scope scope' : ScopeId} {name : Symbol}
    (hsome : ∀ v, s.lookup scope name = some v → s'.lookup scope' name = some (sim.value v))
    (hnone : s.lookup scope name = none →
      sim.Waived (.error (.unbound name)) ∨ s'.lookup scope' name = none) :
    sim.Matches sim.value (Eval.lookup scope name) s (Eval.lookup scope' name) s' := by
  cases hl : s.lookup scope name with
  | none =>
    have hrun : Eval.lookup scope name s = .error (.error (.unbound name)) s := by
      rw [Eval.lookup, hl]
      rfl
    unfold Matches
    rw [hrun]
    refine (hnone hl).imp_right fun hl' => ⟨s', ?_, hst⟩
    rw [Eval.lookup, hl']
    rfl
  | some v =>
    have hval := hs.isValue_of_lookup hl
    have hrun : Eval.lookup scope name s = .ok v s := Eval.lookup_of_some hl (by
      rintro rfl
      exact hval)
    unfold Matches
    rw [hrun]
    refine ⟨s', Eval.lookup_of_some (hsome v hl) fun habsent => ?_, hst⟩
    have hvalue : sim.value v = v ∨ (sim.value v).isFunction = true := by
      cases v with
      | closure => exact .inr rfl
      | named => exact .inr (Translation.isFunction_value _)
      | _ => exact .inl rfl
    rcases hvalue with hsame | hfn
    · rw [hsame] at habsent
      rw [habsent] at hval
      exact hval
    · rw [habsent] at hfn
      cases hfn

theorem matches_define {s s' : Store} (hst : sim.Stores s s') {scope scope' : ScopeId}
    {name : Symbol} {v : Term}
    (hdup : (s.frame scope).binds name = true →
      sim.Waived (.error (.duplicate name)) ∨ (s'.frame scope').binds name = true)
    (hnew : (s.frame scope).binds name = false → (s'.frame scope').binds name = false ∧
      sim.Stores (s.bind scope name v) (s'.bind scope' name (sim.value v))) :
    sim.Matches sim.value (Eval.define scope name v) s
      (Eval.define scope' name (sim.value v)) s' := by
  unfold Matches
  cases hb : (s.frame scope).binds name with
  | true =>
    rw [Eval.define, if_pos hb]
    refine (hdup hb).imp_right fun hb' => ⟨s', ?_, hst⟩
    rw [Eval.define, if_pos hb']
    rfl
  | false =>
    obtain ⟨hb', hbind⟩ := hnew hb
    rw [Eval.define, if_neg (by simp [hb])]
    refine ⟨_, ?_, hbind⟩
    rw [Eval.define, if_neg (by simp [hb'])]

theorem matches_definition {limit limit' : Nat} {held held' : Held} {scope scope' : ScopeId}
    {head : Term} {parts : List Term} {s s' : Store} (hk : Keyword.ofTerm? head = some .define)
    (hst : sim.Stores s s')
    (hbind : ∀ name names body, (Term.list (head :: parts)).target? = some name → body ∈ parts →
      sim.Matches sim.value (Eval.define scope name (.named name names body scope)) s
        (Eval.define scope' name (.named name names body scope')) s') :
    sim.Matches sim.value (evaluate (limit + 1) held scope (.list (head :: parts))) s
      (evaluate (limit' + 1) held' scope' (.list (head :: parts))) s' := by
  unfold evaluate
  rw [evaluateWith_form hk, evaluateWith_form hk]
  match parts with
  | [] | [_] | [_, _] | _ :: _ :: _ :: _ :: _ => exact matches_fail hst _
  | [target, params, body] =>
    simp only [evaluateForm]
    cases hname : target.symbol? with
    | none => exact matches_fail hst _
    | some name =>
      cases paramNames params with
      | error e => exact matches_fail hst e
      | ok names =>
        exact hbind name names body (by simp only [Term.target?, hk, hname]) (by simp)

/-- An evaluation is followed by that of the translated term, in the scope that stands for its
own. -/
def Followed (sim : Simulation) (a : Activation) : Prop :=
  ∀ (held' : Held) (s' : Store),
    sim.Helds (a.held.enter a.scope) (held'.enter (sim.scope a.scope)) → sim.Stores a.store s' →
    sim.Matches sim.value (evaluate a.limit a.held a.scope a.term) a.store
      (evaluate (a.limit + sim.extra) held' (sim.scope a.scope) (sim.term a.term)) s'

namespace Lawful

theorem ofTerm? (law : sim.Lawful) (t : Term) :
    Keyword.ofTerm? (sim.term t) = Keyword.ofTerm? t := by
  unfold Keyword.ofTerm?
  rw [law.symbol?]

theorem keep (law : sim.Lawful) {held held' : Held} (h : sim.Helds held held') {v : Term} {n : Nat}
    (hv : v.IsValue n) : sim.Helds (held.keep v) (held'.keep (sim.value v)) := by
  have hvalues : ∀ w ∈ [v], w.IsValue n := by simpa using hv
  exact law.keepAll h hvalues

section Evaluation

variable (law : sim.Lawful) {n : Nat} {held held' : Held} (hheld : sim.Helds held held')
  {s s' : Store} (hst : sim.Stores s s') (hs : s.Sound)
include law hheld hst hs

theorem enterBody_matches {params : List Symbol} {args : List Term} {body : Term} {o : Nat}
    (ho : o < s.size) (hargs : ∀ v ∈ args, v.IsValue s.size)
    (hbody : sim.Followed
      ⟨n, held, s.size, body, s.push (Frame.ofRecords (params.zip args) (some o))⟩) :
    sim.Matches sim.value (enterBody (evaluate n) held params args body o) s
      (enterBody (evaluate (n + sim.extra)) held' params (args.map sim.value) (sim.term body)
        (sim.scope o)) s' := by
  have hvals : ∀ r ∈ params.zip args, r.2.IsValue s.size := fun r hr =>
    hargs r.2 (List.of_mem_zip hr).2
  obtain ⟨hsize, hpush⟩ := law.push hst hs ho hvals
  have hzip : sim.bindings (params.zip args) = params.zip (args.map sim.value) := by
    rw [List.zip_map_right]
    rfl
  rw [hzip] at hpush
  have hin := hbody _ _ (law.enter s.size hheld) hpush
  dsimp only at hin
  rw [hsize] at hin
  exact hin

theorem closure_matches {params : List Symbol} {body : Term} {o : Nat} {args : List Term}
    (ho : o < s.size) (hargs : ∀ v ∈ args, v.IsValue s.size)
    (hbody : params.length = args.length → sim.Followed
      ⟨n, held, s.size, body, s.push (Frame.ofRecords (params.zip args) (some o))⟩) :
    sim.Matches sim.value
      (applyWith Held.keepsAlive (evaluate n) held (.closure params body o) args) s
      (applyWith Held.keepsAlive (evaluate (n + sim.extra)) held'
        (.closure params (sim.term body) (sim.scope o)) (args.map sim.value)) s' := by
  refine (matches_checkCount hst params args).bind fun _ t t' ht htt => ?_
  obtain ⟨hcount, rfl⟩ := Eval.of_checkCount_eq_ok ht
  exact enterBody_matches law hheld htt hs ho hargs (hbody hcount)

theorem named_matches {name : Symbol} {params : List Symbol} {body : Term} {o : Nat}
    {args : List Term} (ho : o < s.size) (hargs : ∀ v ∈ args, v.IsValue s.size)
    (hbody : params.length = args.length → held.keepsAlive s o = true → sim.Followed
      ⟨n, held, s.size, body, s.push (Frame.ofRecords (params.zip args) (some o))⟩) :
    sim.Matches sim.value
      (applyWith Held.keepsAlive (evaluate n) held (.named name params body o) args) s
      (applyWith Held.keepsAlive (evaluate (n + sim.extra)) held'
        (sim.value (.named name params body o)) (args.map sim.value)) s' := by
  rw [Translation.value]
  cases hlives : held.keepsAlive s o with
  | true =>
    have hclosure := closure_matches law hheld hst hs ho hargs fun hcount => hbody hcount hlives
    refine hclosure.congr (applyWith_of_alive hlives ..) ?_
    split_ifs with hnames
    · rfl
    · exact applyWith_of_alive (law.alive hheld hst hs ho (by simpa using hnames) hlives) ..
  | false =>
    -- the call fails on the other side as well, unless nothing is said after such a fault
    rcases law.reclaimed name hheld hst hs ho hlives with hwaived | ⟨hnames, hlives'⟩
    · refine Matches.congr ?_ (applyWith_of_not_alive hlives ..) rfl
      split_ifs
      · exact (matches_checkCount hst params args).bind fun _ _ _ _ _ => .inl hwaived
      · exact (matches_checkCount hst params args).bind fun _ _ _ _ _ => .inl hwaived
    · rw [if_neg (by simp [hnames])]
      refine Matches.congr ?_ (applyWith_of_not_alive hlives ..) (applyWith_of_not_alive hlives' ..)
      exact (matches_checkCount hst params args).bind fun _ t t' _ htt => matches_fail htt _

theorem applyWith_matches {fn : Term} {args : List Term} (hfn : fn.IsValue s.size)
    (hargs : ∀ v ∈ args, v.IsValue s.size)
    (hbody : ∀ params body o, params.length = args.length →
      fn.Enters Held.keepsAlive held s params body o → sim.Followed
        ⟨n, held, s.size, body, s.push (Frame.ofRecords (params.zip args) (some o))⟩) :
    sim.Matches sim.value (applyWith Held.keepsAlive (evaluate n) held fn args) s
      (applyWith Held.keepsAlive (evaluate (n + sim.extra)) held' (sim.value fn)
        (args.map sim.value)) s' := by
  cases fn with
  | builtin b => exact matches_ofExcept hst Translation.call_value
  | closure params body o =>
    exact closure_matches law hheld hst hs hfn.2 hargs fun hcount =>
      hbody params body o hcount (.closure params body o)
  | named name params body o =>
    exact named_matches law hheld hst hs hfn.2 hargs fun hcount hlives =>
      hbody params body o hcount (.named name params body hlives)
  | _ => exact matches_fail hst _

variable {scope : Nat} (hscope : scope < s.size)
include hscope

theorem evaluateArgs_matches {es : List Term} (hes : ∀ e ∈ es, e.Readable)
    (h : ∀ before e after values t, es = before ++ e :: after →
      evaluateArgs (evaluate n) held scope before s = .ok values t →
      sim.Followed ⟨n, held.keepAll values.reverse, scope, e, t⟩) :
    sim.Matches (List.map sim.value) (evaluateArgs (evaluate n) held scope es) s
      (evaluateArgs (evaluate (n + sim.extra)) held' (sim.scope scope) (es.map sim.term)) s' := by
  induction es generalizing held held' s s' with
  | nil => exact matches_pure hst rfl
  | cons e es ih =>
    have he := hes e List.mem_cons_self
    have hfirst : sim.Followed ⟨n, held, scope, e, s⟩ := h [] e es [] s rfl rfl
    refine (hfirst _ _ (law.enter scope hheld) hst).bind fun v t t' hv ht => ?_
    obtain ⟨hevolves, hval⟩ :=
      (evaluateWith_yields Held.keepsAlive n held hs hscope he).of_ok hv
    refine (ih (law.keep hheld hval) ht (hevolves.sound hs)
      (Nat.lt_of_lt_of_le hscope hevolves.size_le)
      (fun e' he' => hes e' (List.mem_cons_of_mem _ he'))
      fun before e' after values u hes hvalues => ?_).bind fun vs u u' _ hu => matches_pure hu rfl
    have hargs : evaluateArgs (evaluate n) held scope (e :: before) s = .ok (v :: values) u := by
      rw [evaluateArgs, Eval.bind_of_ok hv, Eval.bind_of_ok hvalues]
      rfl
    rw [Held.keepAll_keep]
    exact h (e :: before) e' after (v :: values) u (by rw [hes]; rfl) hargs

theorem evaluateBlock_matches {first : Term} {rest : List Term}
    (hread : ∀ e ∈ first :: rest, e.Readable) {last : Option Term} {m : Nat}
    (hlast : ∀ v ∈ last, v.IsValue m)
    (hfirst : sim.Followed ⟨n, last.elim held held.keep, scope, first, s⟩)
    (hrest : ∀ before e after value t, rest = before ++ e :: after →
      evaluateBlock (evaluate n) held scope last first before s = .ok value t →
      sim.Followed ⟨n, held.keep value, scope, e, t⟩) :
    sim.Matches sim.value (evaluateBlock (evaluate n) held scope last first rest) s
      (evaluateBlock (evaluate (n + sim.extra)) held' (sim.scope scope) (last.map sim.value)
        (sim.term first) (rest.map sim.term)) s' := by
  have hlast' : sim.Helds (last.elim held held.keep)
      ((last.map sim.value).elim held' held'.keep) := by
    cases last with
    | none => exact hheld
    | some v => exact law.keep hheld (hlast v rfl)
  have hmatch := hfirst _ _ (law.enter scope hlast') hst
  induction rest generalizing first last s s' m with
  | nil => exact hmatch
  | cons e es ih =>
    refine Matches.bind hmatch fun v t t' hv htt => ?_
    obtain ⟨ht, hval⟩ := (evaluateWith_yields Held.keepsAlive n _ hs hscope
      (hread first List.mem_cons_self)).of_ok hv
    have hnext : sim.Followed ⟨n, held.keep v, scope, e, t⟩ := hrest [] e es v t rfl hv
    have hkeep := law.keep hheld hval
    have hlast : ∀ w ∈ some v, w.IsValue t.size := by
      rintro w ⟨⟩
      exact hval
    refine ih htt (ht.sound hs) (Nat.lt_of_lt_of_le hscope ht.size_le)
      (fun e' he' => hread e' (List.mem_cons_of_mem _ he')) hlast hnext
      (fun before e' after value u hes hbefore => ?_) hkeep (hnext _ _ (law.enter scope hkeep) htt)
    refine hrest (e :: before) e' after value u (by rw [hes]; rfl) ?_
    rw [evaluateBlock, Eval.bind_of_ok hv]
    exact hbefore

end Evaluation

section Step

variable (law : sim.Lawful) {n : Nat} {held held' : Held} {scope : Nat} {head : Term}
  {parts : List Term} {s s' : Store}
  (ha : Activation.Proper ⟨n + 1, held, scope, .list (head :: parts), s⟩)
  (hstarts : ∀ b, Activation.Starts Held.keepsAlive
    ⟨n + 1, held, scope, .list (head :: parts), s⟩ b → sim.Followed b)
  (hheld : sim.Helds (held.enter scope) (held'.enter (sim.scope scope))) (hst : sim.Stores s s')
include law ha hstarts hheld hst

theorem evaluateCall_matches (hk : Keyword.ofTerm? head = none) :
    sim.Matches sim.value
      (evaluateCall Held.keepsAlive (evaluate n) (held.enter scope) scope head parts) s
      (evaluateCall Held.keepsAlive (evaluate (n + sim.extra)) (held'.enter (sim.scope scope))
        (sim.scope scope) (sim.term head) (parts.map sim.term)) s' := by
  have hread := ha.part rfl
  have hargs : ∀ e ∈ parts, e.Readable := fun e he => hread e (List.mem_cons_of_mem _ he)
  refine (hstarts _ (.head hk) _ _ (law.enter scope hheld) hst).bind fun fn t t' hfn htt => ?_
  obtain ⟨ht, hval⟩ := (evaluateWith_yields Held.keepsAlive n _ ha.sound ha.scope_lt
    (hread head List.mem_cons_self)).of_ok hfn
  have hsound := ht.sound ha.sound
  have hlt := Nat.lt_of_lt_of_le ha.scope_lt ht.size_le
  have hkeep := law.keep hheld hval
  rw [Translation.isFunction_value]
  split_ifs with hisfn
  · refine (evaluateArgs_matches law hkeep htt hsound hlt hargs ?_).bind
      fun values u u' hvalues huu => ?_
    · intro before e after values u hparts hbefore
      subst hparts
      exact hstarts _ (.arg hk hfn hisfn hbefore)
    · obtain ⟨⟨cs, hcs⟩, -, hfnVal, hvals⟩ := ha.call hk hisfn hfn hvalues
      refine applyWith_matches law (law.keepAll hkeep hvals) huu (hcs.sound ha.sound) hfnVal hvals
        fun params body o hcount henters => ?_
      exact hstarts _ (.body hk hfn hvalues hcount henters)
  · exact matches_fail htt _

theorem evaluateForm_matches {keyword : Keyword} (hk : Keyword.ofTerm? head = some keyword)
    (hdefine : keyword ≠ .define)
    (hnames : ∀ name, (Term.list (head :: parts)).target? = some name → sim.Names name) :
    sim.Matches sim.value
      (evaluateForm (evaluate n) (held.enter scope) scope keyword parts) s
      (evaluateForm (evaluate (n + sim.extra)) (held'.enter (sim.scope scope)) (sim.scope scope)
        keyword (parts.map sim.term)) s' := by
  have hs := ha.sound
  have hscope : scope < s.size := ha.scope_lt
  have hread : ∀ e ∈ parts, e.Readable := fun e he => ha.part rfl e (List.mem_cons_of_mem _ he)
  match keyword, parts with
  | .define, _ => exact absurd rfl hdefine
  | .block, [] => exact matches_fail hst _
  | .block, first :: rest =>
    have hnone : ∀ r ∈ ([] : List (Symbol × Term)), r.2.IsValue s.size := by simp
    have hlast : ∀ v ∈ (none : Option Term), v.IsValue 0 := by simp
    obtain ⟨hsize, hpush⟩ := law.push hst hs hscope hnone
    have hsound := hs.push (f := Frame.ofRecords [] (some scope)) rfl hscope rfl
      fun b => Frame.snd_of_mem_ofRecords hnone
    have hlt : s.size < (s.push (Frame.ofRecords [] (some scope))).size := by simp
    have hblock := evaluateBlock_matches law hheld hpush hsound hlt hread hlast
      (hstarts _ (.first hk)) fun before e after value t hrest hbefore => by
        subst hrest
        exact hstarts _ (.part hk hbefore)
    rw [hsize] at hblock
    exact hblock
  | .bind, [target, e] =>
    simp only [evaluateForm, List.map_cons, List.map_nil, law.symbol?]
    cases hname : target.symbol? with
    | none => exact matches_fail hst _
    | some name =>
      refine (hstarts _ (.value hk hname) _ _ (law.enter scope hheld) hst).bind
        fun v t t' hv htt => ?_
      obtain ⟨ht, hval⟩ := (evaluateWith_yields Held.keepsAlive n _ hs hscope
        (hread e (by simp))).of_ok hv
      exact law.bind (hnames name (by simp only [Term.target?, hk, hname])) htt (ht.sound hs)
        (Nat.lt_of_lt_of_le hscope ht.size_le) hval
  | .choose, [test, yes, no] =>
    refine (hstarts _ (.test hk) _ _ (law.enter scope hheld) hst).bind fun v t t' hv htt => ?_
    cases v with
    | bool b =>
      cases b with
      | true => exact hstarts _ (.branch hk hv) _ _ (law.enter scope hheld) htt
      | false => exact hstarts _ (.branch hk hv) _ _ (law.enter scope hheld) htt
    | named name params body o =>
      rw [Translation.value]
      split_ifs
      · exact matches_fail htt _
      · exact matches_fail htt _
    | _ => exact matches_fail htt _
  | .lambda, [params, body] =>
    simp only [evaluateForm, List.map_cons, List.map_nil, law.paramNames]
    refine (matches_ofExcept (f := id) hst (by cases ScopedLisp.paramNames params <;> rfl)).bind
      fun names t t' _ htt => matches_pure htt rfl
  | .bind, [] | .bind, [_] | .bind, _ :: _ :: _ :: _ => exact matches_fail hst _
  | .choose, [] | .choose, [_] | .choose, [_, _] | .choose, _ :: _ :: _ :: _ :: _ =>
    exact matches_fail hst _
  | .lambda, [] | .lambda, [_] | .lambda, _ :: _ :: _ :: _ => exact matches_fail hst _

end Step

/-- **Every evaluation is followed**, with the further levels of nesting, if all evaluations that
occur in it look up and bind only names that both sides treat alike. -/
theorem followed (law : sim.Lawful) {a : Activation} (ha : a.Proper)
    (hnames : ∀ b name, a.Occurs Held.keepsAlive b →
      b.term.symbol? = some name ∨ b.term.target? = some name → sim.Names name) :
    sim.Followed a := by
  -- on the limit: an evaluation that is started has one level less on both sides
  obtain ⟨limit, held, scope, e, s⟩ := a
  induction limit generalizing held scope e s with
  | zero =>
    intro held' s' _ hst
    rcases law.exhausted with hwaived | hextra
    · exact .inl hwaived
    · refine .inr ⟨s', ?_, hst⟩
      rw [hextra]
      rfl
  | succ limit ih =>
    have hstarts : ∀ b, Activation.Starts Held.keepsAlive ⟨limit + 1, held, scope, e, s⟩ b →
        sim.Followed b := by
      intro b hb
      obtain rfl : limit = b.limit := Nat.succ.inj hb.limit_eq
      exact ih b.held b.scope b.term b.store (hb.proper ha).1 fun c name hc =>
        hnames c name (.head hb hc)
    have hself : ∀ name, e.symbol? = some name ∨ e.target? = some name → sim.Names name :=
      fun name => hnames _ name .refl
    have hread : e.Readable := ha.readable
    intro held' s' hheld hst
    dsimp only at hheld hst ⊢
    rw [Nat.add_right_comm]
    cases hread with
    | bool b =>
      rw [law.bool]
      exact matches_pure hst rfl
    | int h =>
      rw [law.int]
      exact matches_pure hst rfl
    | @symbol name h =>
      rw [Term.eq_symbol_of_symbol? (law.symbol? (.symbol name))]
      exact law.lookup (hself name (.inl rfl)) hst ha.sound ha.scope_lt
    | @list items h =>
      cases items with
      | nil =>
        rw [law.list_nil]
        exact matches_fail hst _
      | cons head rest =>
        cases hk : Keyword.ofTerm? head with
        | none =>
          rw [law.list_cons head rest (by simp [hk])]
          unfold evaluate
          rw [evaluateWith_call hk, evaluateWith_call ((law.ofTerm? head).trans hk)]
          exact evaluateCall_matches law ha hstarts hheld hst hk
        | some keyword =>
          by_cases hdefine : keyword = .define
          · subst hdefine
            rw [Nat.add_right_comm]
            exact law.define hk (fun name hname => hself name (.inr hname)) hst ha.sound ha.scope_lt
              fun e he => h e (List.mem_cons_of_mem _ he)
          · rw [law.list_cons head rest (by simp [hk, hdefine])]
            unfold evaluate
            rw [evaluateWith_form hk, evaluateWith_form ((law.ofTerm? head).trans hk)]
            exact evaluateForm_matches law ha hstarts hheld hst hk hdefine fun name hname =>
              hself name (.inr hname)

end Lawful

end Simulation

end ScopedLisp
