import Mathlib.Logic.Relation
import Mathlib.Tactic.SplitIfs
import ScopedLisp.Eval.Basic

/-!
# Activations

An activation is an evaluation that starts. Here is what one evaluation does, told by the ones that
it starts, by the moments that it passes through and by the ways in which it fails.

* `Eval.of_bind_eq_ok`, `Eval.bind_congr`: computations in two steps;
* `Activation.Starts`, `Activation.Occurs`: the evaluations that an evaluation starts, itself or
  through others;
* `Activation.Passes`: the moments of an evaluation, with all that is in use then;
* `Activation.Raises`: the ways in which an evaluation fails by itself;
* `Activation.run_congr_of_starts`: an evaluation runs like another one if those that it starts do;
* **`Activation.run_congr`**: rules that answer all that is asked in the same way give the same run.
-/

namespace ScopedLisp

/-! ## Computations -/

namespace Eval

variable {α β : Type} {x : Eval α} {f : α → Eval β} {s t : Store} {scope : ScopeId} {fault : Fault}

theorem bind_of_ok {a : α} (h : x s = .ok a t) : (x >>= f) s = f a t := by
  change EStateM.bind x f s = f a t
  rw [EStateM.bind, h]

theorem bind_of_error (h : x s = .error fault t) : (x >>= f) s = .error fault t := by
  change EStateM.bind x f s = .error fault t
  rw [EStateM.bind, h]

theorem of_bind_eq_ok {b : β} (h : (x >>= f) s = .ok b t) :
    ∃ a u, x s = .ok a u ∧ f a u = .ok b t := by
  cases hx : x s with
  | ok a u =>
    rw [bind_of_ok hx] at h
    exact ⟨a, u, rfl, h⟩
  | error e u =>
    rw [bind_of_error hx] at h
    cases h

theorem bind_congr {y : Eval α} {g : α → Eval β} (hx : x s = y s)
    (hfg : ∀ a t, y s = .ok a t → f a t = g a t) : (x >>= f) s = (y >>= g) s := by
  cases hy : y s with
  | ok a t => rw [bind_of_ok (hx.trans hy), bind_of_ok hy, hfg a t hy]
  | error e t => rw [bind_of_error (hx.trans hy), bind_of_error hy]

/-- The store that a computation leaves, however it ends. -/
def storeAfter (x : Eval α) (s : Store) : Store :=
  match x s with
  | .ok _ t | .error _ t => t

theorem storeAfter_of_ok {a : α} (h : x s = .ok a t) : x.storeAfter s = t := by
  rw [storeAfter, h]

theorem storeAfter_of_error (h : x s = .error fault t) : x.storeAfter s = t := by
  rw [storeAfter, h]

theorem lookup_of_some {name : Symbol} {v : Term} (h : s.lookup scope name = some v)
    (hv : v ≠ .absent) : lookup scope name s = .ok v s := by
  rw [lookup, h]
  cases v with
  | absent => exact absurd rfl hv
  | _ => rfl

theorem of_lookup_eq_ok {name : Symbol} {v : Term} (h : lookup scope name s = .ok v t) :
    s.lookup scope name = some v ∧ t = s := by
  unfold lookup at h
  split at h
  · cases h
  · cases h
  · next hl =>
    cases h
    exact ⟨hl, rfl⟩

theorem of_lookup_eq_error {name : Symbol} (h : lookup scope name s = .error fault t) :
    fault = .error (.unbound name) ∧ (∀ v, s.lookup scope name = some v → v = .absent) ∧ t = s := by
  unfold lookup at h
  split at h
  · next hl => cases h; simp [hl]
  · next hl => cases h; simp [hl]
  · cases h

theorem of_define_eq_ok {name : Symbol} {v w : Term} (h : define scope name v s = .ok w t) :
    (s.frame scope).binds name = false ∧ w = v ∧ t = s.bind scope name v := by
  unfold define at h
  split_ifs at h with hb
  · cases h
  · cases h
    exact ⟨by simpa using hb, rfl, rfl⟩

theorem of_define_eq_error {name : Symbol} {v : Term} (h : define scope name v s = .error fault t) :
    fault = .error (.duplicate name) ∧ (s.frame scope).binds name = true ∧ t = s := by
  unfold define at h
  split_ifs at h with hb
  cases h
  exact ⟨rfl, hb, rfl⟩

theorem of_checkCount_eq_ok {params : List Symbol} {args : List Term} {u : Unit}
    (h : checkCount params args s = .ok u t) : params.length = args.length ∧ t = s := by
  unfold checkCount at h
  split_ifs at h with hcount
  · cases h
    exact ⟨hcount, rfl⟩
  · cases h

end Eval

theorem Term.eq_symbol_of_symbol? {t : Term} {s : Symbol} (h : t.symbol? = some s) :
    t = .symbol s := by
  cases t with
  | symbol s' => cases h; rfl
  | _ => cases h

theorem eq_list_of_paramNames {t : Term} {names : List Symbol} (h : paramNames t = .ok names) :
    t = .list (names.map .symbol) := by
  have hitems : ∀ (items : List Term) (names : List Symbol),
      items.mapM Term.symbol? = some names → items = names.map .symbol := by
    intro items
    induction items with
    | nil =>
      intro names hnames
      cases hnames
      rfl
    | cons item items ih =>
      intro names hnames
      rw [List.mapM_cons] at hnames
      obtain ⟨name, hname, hrest⟩ := Option.bind_eq_some_iff.1 hnames
      obtain ⟨rest, hmap, hcons⟩ := Option.bind_eq_some_iff.1 hrest
      cases hcons
      rw [List.map_cons, ← ih rest hmap, Term.eq_symbol_of_symbol? hname]
  cases t with
  | list items =>
    rw [paramNames] at h
    cases hmap : items.mapM Term.symbol? with
    | none => rw [hmap] at h; cases h
    | some names' =>
      rw [hmap] at h
      cases h
      rw [hitems items names hmap]
  | _ => cases h

/-! ## Equations of the evaluator -/

theorem evaluateForm_define {ev : Evaluator} {held : Held} {scope : ScopeId}
    {target list : Term} {name : Symbol} {names : List Symbol} (hname : target.symbol? = some name)
    (hnames : paramNames list = .ok names) (body : Term) :
    evaluateForm ev held scope .define [target, list, body] =
      Eval.define scope name (.named name names body scope) := by
  simp only [evaluateForm, hname, hnames]
  rfl

theorem evaluateForm_lambda {ev : Evaluator} {held : Held} {scope : ScopeId} {list : Term}
    {names : List Symbol} (hnames : paramNames list = .ok names) (body : Term) :
    evaluateForm ev held scope .lambda [list, body] = pure (.closure names body scope) := by
  simp only [evaluateForm, hnames]
  rfl

theorem evaluateWith_form {head : Term} {keyword : Keyword}
    (hk : Keyword.ofTerm? head = some keyword) (alive : Liveness) (limit : Nat) (held : Held)
    (scope : ScopeId) (parts : List Term) :
    evaluateWith alive (limit + 1) held scope (.list (head :: parts)) =
      evaluateForm (evaluateWith alive limit) (held.enter scope) scope keyword parts := by
  rw [evaluateWith, hk]

theorem evaluateWith_call {head : Term} (hk : Keyword.ofTerm? head = none) (alive : Liveness)
    (limit : Nat) (held : Held) (scope : ScopeId) (args : List Term) :
    evaluateWith alive (limit + 1) held scope (.list (head :: args)) =
      evaluateCall alive (evaluateWith alive limit) (held.enter scope) scope head args := by
  rw [evaluateWith, hk]

theorem Held.keepAll_keep_eq (held : Held) (value : Term) (values : List Term) :
    (held.keep value).keepAll values = held.keepAll (values ++ [value]) := by
  simp [keep, keepAll]

theorem Held.keepAll_keep (held : Held) (value : Term) (values : List Term) :
    (held.keep value).keepAll values.reverse = held.keepAll (value :: values).reverse := by
  rw [keepAll_keep_eq, List.reverse_cons]

section Parts

variable {ev : Evaluator} {held : Held} {scope : ScopeId} {last : Option Term} {e value : Term}
  {first : Term} {before after values : List Term} {s t u : Store} {fault : Fault}

theorem length_of_evaluateArgs (h : evaluateArgs ev held scope before s = .ok values t) :
    values.length = before.length := by
  induction before generalizing held s values with
  | nil => cases h; rfl
  | cons e es ih =>
    obtain ⟨v, u, -, h⟩ := Eval.of_bind_eq_ok h
    obtain ⟨vs, w, hvs, h⟩ := Eval.of_bind_eq_ok h
    cases h
    rw [List.length_cons, List.length_cons, ih hvs]

theorem evaluateArgs_append (h : evaluateArgs ev held scope before s = .ok values t)
    (after : List Term) : evaluateArgs ev held scope (before ++ after) s =
      (evaluateArgs ev (held.keepAll values.reverse) scope after >>=
        fun rest => pure (values ++ rest)) t := by
  induction before generalizing held s t values with
  | nil =>
    cases h
    exact (bind_pure (evaluateArgs ev held scope after)).symm ▸ rfl
  | cons e before ih =>
    obtain ⟨v, u, hv, h⟩ := Eval.of_bind_eq_ok h
    obtain ⟨vs, w, hvs, h⟩ := Eval.of_bind_eq_ok h
    cases h
    have hrest := ih hvs
    rw [List.cons_append, evaluateArgs, Eval.bind_of_ok hv, ← Held.keepAll_keep]
    cases hafter : evaluateArgs ev ((held.keep v).keepAll vs.reverse) scope after t with
    | ok rest w =>
      rw [Eval.bind_of_ok hafter] at hrest ⊢
      exact Eval.bind_of_ok hrest
    | error fault w =>
      rw [Eval.bind_of_error hafter] at hrest ⊢
      exact Eval.bind_of_error hrest

theorem evaluateArgs_concat (h : evaluateArgs ev held scope before s = .ok values t)
    (he : ev (held.keepAll values.reverse) scope e t = .ok value u) :
    evaluateArgs ev held scope (before ++ [e]) s = .ok (values ++ [value]) u := by
  rw [evaluateArgs_append h, evaluateArgs, bind_assoc, Eval.bind_of_ok he]
  rfl

theorem of_evaluateArgs_concat_eq_ok
    (h : evaluateArgs ev held scope (before ++ [e]) s = .ok values u) :
    ∃ vs v t, values = vs ++ [v] ∧ evaluateArgs ev held scope before s = .ok vs t ∧
      ev (held.keepAll vs.reverse) scope e t = .ok v u := by
  induction before generalizing held s values with
  | nil =>
    obtain ⟨v, t, hv, h⟩ := Eval.of_bind_eq_ok h
    cases h
    exact ⟨[], v, s, rfl, rfl, hv⟩
  | cons e' before ih =>
    obtain ⟨v', t', hv', h⟩ := Eval.of_bind_eq_ok h
    obtain ⟨rest, w, hrest, h⟩ := Eval.of_bind_eq_ok h
    cases h
    obtain ⟨vs, v, t, rfl, hvs, hv⟩ := ih hrest
    rw [Held.keepAll_keep] at hv
    refine ⟨v' :: vs, v, t, rfl, ?_, hv⟩
    rw [evaluateArgs, Eval.bind_of_ok hv', Eval.bind_of_ok hvs]
    rfl

theorem evaluateBlock_append (h : evaluateBlock ev held scope last first before s = .ok value t) :
    evaluateBlock ev held scope last first (before ++ e :: after) s =
      evaluateBlock ev held scope (some value) e after t := by
  induction before generalizing last first s with
  | nil => exact Eval.bind_of_ok h
  | cons e' before ih =>
    obtain ⟨v, u, hv, h⟩ := Eval.of_bind_eq_ok h
    rw [List.cons_append, evaluateBlock, Eval.bind_of_ok hv, ih h]

theorem evaluateBlock_of_error (h : ev (last.elim held held.keep) scope e s = .error fault t) :
    evaluateBlock ev held scope last e after s = .error fault t := by
  cases after with
  | nil => exact h
  | cons e' after => exact Eval.bind_of_error h

theorem evaluateBlock_concat {v : Term}
    (h : evaluateBlock ev held scope last first before s = .ok value t)
    (he : ev (held.keep value) scope e t = .ok v u) :
    evaluateBlock ev held scope last first (before ++ [e]) s = .ok v u :=
  (evaluateBlock_append h).trans he

theorem of_evaluateBlock_concat_eq_ok
    (h : evaluateBlock ev held scope last first (before ++ [e]) s = .ok value u) :
    ∃ v t, evaluateBlock ev held scope last first before s = .ok v t ∧
      ev (held.keep v) scope e t = .ok value u := by
  induction before generalizing last first s with
  | nil => exact Eval.of_bind_eq_ok h
  | cons e' before ih =>
    obtain ⟨v', t', hv', h⟩ := Eval.of_bind_eq_ok h
    obtain ⟨v, t, hv, he⟩ := ih h
    refine ⟨v, t, ?_, he⟩
    rw [evaluateBlock, Eval.bind_of_ok hv', hv]

end Parts

/-! ## Evaluations -/

/-- What is in use at a point of a run, and the store. -/
structure Moment where
  held : Held
  store : Store

/-- An evaluation that starts: the levels that it can nest, what is in use around it, and the scope,
the term and the store. -/
structure Activation where
  limit : Nat
  held : Held
  scope : ScopeId
  term : Term
  store : Store

/-- The function has the given parameters, body and scope, and a call can enter its body. -/
inductive Term.Enters (alive : Liveness) (held : Held) (s : Store) :
    Term → List Symbol → Term → ScopeId → Prop
  | closure (params : List Symbol) (body : Term) (scope : ScopeId) :
      Enters alive held s (.closure params body scope) params body scope
  | named (name : Symbol) (params : List Symbol) (body : Term) {scope : ScopeId}
      (h : alive held s scope = true) :
      Enters alive held s (.named name params body scope) params body scope

theorem Term.Enters.isFunction {alive : Liveness} {held : Held} {s : Store} {fn body : Term}
    {params : List Symbol} {o : ScopeId} (h : fn.Enters alive held s params body o) :
    fn.isFunction = true := by
  cases h <;> rfl

/-- A function cannot be called with the arguments. -/
inductive Term.Refuses (alive : Liveness) (held : Held) (s : Store) (args : List Term) :
    Term → Error → Prop
  | builtin {b : Builtin} {e : Error} (h : b.call args = .error e) :
      Refuses alive held s args (.builtin b) e
  | closure {params : List Symbol} {body : Term} {scope : ScopeId}
      (h : params.length ≠ args.length) :
      Refuses alive held s args (.closure params body scope)
        (.argumentCount params.length args.length)
  | named {name : Symbol} {params : List Symbol} {body : Term} {scope : ScopeId}
      (h : params.length ≠ args.length) :
      Refuses alive held s args (.named name params body scope)
        (.argumentCount params.length args.length)
  /-- The number of arguments is right, but the scope of the function is gone. -/
  | reclaimed {name : Symbol} {params : List Symbol} {body : Term} {scope : ScopeId}
      (hcount : params.length = args.length) (h : alive held s scope = false) :
      Refuses alive held s args (.named name params body scope) (.scopeReclaimed name)

/-- Whether a form can have the given number of parts. -/
def Keyword.takes : Keyword → Nat → Bool
  | block, n => 0 < n
  | bind, n | lambda, n => n = 2
  | choose, n | define, n => n = 3

namespace Activation

section Definitions

variable (alive : Liveness)

/-- How an evaluation ends. -/
def run (a : Activation) : EStateM.Result Fault Store Term :=
  evaluateWith alive a.limit a.held a.scope a.term a.store

/-- An evaluation starts another one. -/
inductive Starts : Activation → Activation → Prop
  /-- The head of a call. -/
  | head {limit : Nat} {held : Held} {scope : ScopeId} {head : Term} {args : List Term} {s : Store}
      (hk : Keyword.ofTerm? head = none) :
      Starts ⟨limit + 1, held, scope, .list (head :: args), s⟩
        ⟨limit, held.enter scope, scope, head, s⟩
  /-- An argument of a call, after those before it. -/
  | arg {limit : Nat} {held : Held} {scope : ScopeId} {head fn e : Term}
      {before after values : List Term} {s t u : Store} (hk : Keyword.ofTerm? head = none)
      (hhead : evaluateWith alive limit (held.enter scope) scope head s = .ok fn t)
      (hfn : fn.isFunction = true)
      (hbefore : evaluateArgs (evaluateWith alive limit) ((held.enter scope).keep fn) scope
        before t = .ok values u) :
      Starts ⟨limit + 1, held, scope, .list (head :: (before ++ e :: after)), s⟩
        ⟨limit, ((held.enter scope).keep fn).keepAll values.reverse, scope, e, u⟩
  /-- The body of the function that is called. -/
  | body {limit : Nat} {held : Held} {scope o : ScopeId} {head fn body : Term}
      {args values : List Term} {params : List Symbol} {s t u : Store}
      (hk : Keyword.ofTerm? head = none)
      (hhead : evaluateWith alive limit (held.enter scope) scope head s = .ok fn t)
      (hargs : evaluateArgs (evaluateWith alive limit) ((held.enter scope).keep fn) scope
        args t = .ok values u)
      (hcount : params.length = values.length)
      (henters : fn.Enters alive (((held.enter scope).keep fn).keepAll values) u params body o) :
      Starts ⟨limit + 1, held, scope, .list (head :: args), s⟩
        ⟨limit, ((held.enter scope).keep fn).keepAll values, u.size, body,
          u.push (Frame.ofRecords (params.zip values) (some o))⟩
  /-- The first part of a block. -/
  | first {limit : Nat} {held : Held} {scope : ScopeId} {head e : Term} {after : List Term}
      {s : Store} (hk : Keyword.ofTerm? head = some .block) :
      Starts ⟨limit + 1, held, scope, .list (head :: e :: after), s⟩
        ⟨limit, held.enter scope, s.size, e, s.push { outer := some scope }⟩
  /-- A later part of a block, after those before it. -/
  | part {limit : Nat} {held : Held} {scope : ScopeId} {head first e value : Term}
      {before after : List Term} {s t : Store} (hk : Keyword.ofTerm? head = some .block)
      (hbefore : evaluateBlock (evaluateWith alive limit) (held.enter scope) s.size none first
        before (s.push { outer := some scope }) = .ok value t) :
      Starts ⟨limit + 1, held, scope, .list (head :: first :: (before ++ e :: after)), s⟩
        ⟨limit, (held.enter scope).keep value, s.size, e, t⟩
  /-- The term whose value is bound. -/
  | value {limit : Nat} {held : Held} {scope : ScopeId} {head target e : Term} {name : Symbol}
      {s : Store} (hk : Keyword.ofTerm? head = some .bind) (hname : target.symbol? = some name) :
      Starts ⟨limit + 1, held, scope, .list [head, target, e], s⟩
        ⟨limit, held.enter scope, scope, e, s⟩
  /-- The test of a choice. -/
  | test {limit : Nat} {held : Held} {scope : ScopeId} {head test yes no : Term} {s : Store}
      (hk : Keyword.ofTerm? head = some .choose) :
      Starts ⟨limit + 1, held, scope, .list [head, test, yes, no], s⟩
        ⟨limit, held.enter scope, scope, test, s⟩
  /-- The part that is chosen. -/
  | branch {limit : Nat} {held : Held} {scope : ScopeId} {head test yes no : Term} {b : Bool}
      {s t : Store} (hk : Keyword.ofTerm? head = some .choose)
      (htest : evaluateWith alive limit (held.enter scope) scope test s = .ok (.bool b) t) :
      Starts ⟨limit + 1, held, scope, .list [head, test, yes, no], s⟩
        ⟨limit, held.enter scope, scope, if b then yes else no, t⟩

/-- An evaluation occurs in the run of another one. -/
def Occurs : Activation → Activation → Prop := Relation.ReflTransGen (Starts alive)

/-- The moments of an evaluation, apart from those of the evaluations that it starts. -/
inductive Passes : Activation → Moment → Prop
  | begins (a : Activation) : Passes a ⟨a.held.enter a.scope, a.store⟩
  /-- The arguments of a call are there, and it is asked whether the scope of the function lives. -/
  | calls {limit : Nat} {held : Held} {scope : ScopeId} {head fn : Term} {args values : List Term}
      {s t u : Store} (hk : Keyword.ofTerm? head = none)
      (hhead : evaluateWith alive limit (held.enter scope) scope head s = .ok fn t)
      (hfn : fn.isFunction = true)
      (hargs : evaluateArgs (evaluateWith alive limit) ((held.enter scope).keep fn) scope
        args t = .ok values u) :
      Passes ⟨limit + 1, held, scope, .list (head :: args), s⟩
        ⟨((held.enter scope).keep fn).keepAll values, u⟩
  /-- A value is bound, and it is still to be decided whether the scope is retained. -/
  | binds {limit : Nat} {held : Held} {scope : ScopeId} {head target e value : Term}
      {name : Symbol} {s t : Store} (hk : Keyword.ofTerm? head = some .bind)
      (hname : target.symbol? = some name)
      (hvalue : evaluateWith alive limit (held.enter scope) scope e s = .ok value t)
      (hnew : (t.frame scope).binds name = false) :
      Passes ⟨limit + 1, held, scope, .list [head, target, e], s⟩
        ⟨(held.enter scope).keep value, t.modify scope (·.extend name value)⟩
  /-- A named function is bound, and it is still to be decided whether the scope is retained. -/
  | defines {limit : Nat} {held : Held} {scope : ScopeId} {head target paramList body : Term}
      {name : Symbol} {params : List Symbol} {s : Store}
      (hk : Keyword.ofTerm? head = some .define) (hname : target.symbol? = some name)
      (hparams : paramNames paramList = .ok params) (hnew : (s.frame scope).binds name = false) :
      Passes ⟨limit + 1, held, scope, .list [head, target, paramList, body], s⟩
        ⟨(held.enter scope).keep (.named name params body scope),
          s.modify scope (·.extend name (.named name params body scope))⟩
  | ends {a : Activation} {value : Term} {t : Store} (h : a.run alive = .ok value t) :
      Passes a ⟨a.held.keep value, t⟩
  | fails {a : Activation} {fault : Fault} {t : Store} (h : a.run alive = .error fault t) :
      Passes a ⟨a.held, t⟩

/-- The arguments of a call are there, and it is asked whether the scope of the function lives. -/
inductive Asks : Activation → Moment → ScopeId → Prop
  | intro {limit : Nat} {held : Held} {scope o : ScopeId} {head body : Term}
      {args values : List Term} {name : Symbol} {params : List Symbol} {s t u : Store}
      (hk : Keyword.ofTerm? head = none)
      (hhead : evaluateWith alive limit (held.enter scope) scope head s =
        .ok (.named name params body o) t)
      (hargs : evaluateArgs (evaluateWith alive limit)
        ((held.enter scope).keep (.named name params body o)) scope args t = .ok values u) :
      Asks ⟨limit + 1, held, scope, .list (head :: args), s⟩
        ⟨((held.enter scope).keep (.named name params body o)).keepAll values, u⟩ o

end Definitions

/-- An evaluation calls a function, and starts its body. -/
inductive Calls (alive : Liveness) (fn : Term) : Activation → Activation → Prop
  | intro {limit : Nat} {held : Held} {scope o : ScopeId} {head body : Term}
      {args values : List Term} {params : List Symbol} {s t u : Store}
      (hk : Keyword.ofTerm? head = none)
      (hhead : evaluateWith alive limit (held.enter scope) scope head s = .ok fn t)
      (hargs : evaluateArgs (evaluateWith alive limit) ((held.enter scope).keep fn) scope
        args t = .ok values u)
      (hcount : params.length = values.length)
      (henters : fn.Enters alive (((held.enter scope).keep fn).keepAll values) u params body o) :
      Calls alive fn ⟨limit + 1, held, scope, .list (head :: args), s⟩
        ⟨limit, ((held.enter scope).keep fn).keepAll values, u.size, body,
          u.push (Frame.ofRecords (params.zip values) (some o))⟩

/-- An evaluation fails by itself. -/
inductive Raises (alive : Liveness) : Activation → Fault → Prop
  | exhausted {held : Held} {scope : ScopeId} {e : Term} {s : Store} :
      Raises alive ⟨0, held, scope, e, s⟩ .exhausted
  /-- A term that no source text holds. -/
  | unsupported {limit : Nat} {held : Held} {scope : ScopeId} {e : Term} {s : Store}
      (he : e.isFunction = true ∨ e = .absent ∨ ∃ text, e = .text text) :
      Raises alive ⟨limit + 1, held, scope, e, s⟩ (.error .unsupported)
  | unbound {limit : Nat} {held : Held} {scope : ScopeId} {name : Symbol} {s : Store}
      (h : ∀ v, s.lookup scope name = some v → v = .absent) :
      Raises alive ⟨limit + 1, held, scope, .symbol name, s⟩ (.error (.unbound name))
  | emptyList {limit : Nat} {held : Held} {scope : ScopeId} {s : Store} :
      Raises alive ⟨limit + 1, held, scope, .list [], s⟩ (.error .emptyList)
  | shape {limit : Nat} {held : Held} {scope : ScopeId} {head : Term} {parts : List Term}
      {keyword : Keyword} {s : Store} (hk : Keyword.ofTerm? head = some keyword)
      (hparts : keyword.takes parts.length = false) :
      Raises alive ⟨limit + 1, held, scope, .list (head :: parts), s⟩ (.error (.formShape keyword))
  | bindTarget {limit : Nat} {held : Held} {scope : ScopeId} {head target e : Term} {s : Store}
      (hk : Keyword.ofTerm? head = some .bind) (hname : target.symbol? = none) :
      Raises alive ⟨limit + 1, held, scope, .list [head, target, e], s⟩ (.error .bindTarget)
  | bindTwice {limit : Nat} {held : Held} {scope : ScopeId} {head target e value : Term}
      {name : Symbol} {s t : Store} (hk : Keyword.ofTerm? head = some .bind)
      (hname : target.symbol? = some name)
      (hvalue : evaluateWith alive limit (held.enter scope) scope e s = .ok value t)
      (hold : (t.frame scope).binds name = true) :
      Raises alive ⟨limit + 1, held, scope, .list [head, target, e], s⟩ (.error (.duplicate name))
  | chooseTest {limit : Nat} {held : Held} {scope : ScopeId} {head test yes no value : Term}
      {s t : Store} (hk : Keyword.ofTerm? head = some .choose)
      (htest : evaluateWith alive limit (held.enter scope) scope test s = .ok value t)
      (hvalue : value.isBool = false) :
      Raises alive ⟨limit + 1, held, scope, .list [head, test, yes, no], s⟩ (.error .chooseTest)
  | defineTarget {limit : Nat} {held : Held} {scope : ScopeId} {head target list body : Term}
      {s : Store} (hk : Keyword.ofTerm? head = some .define) (hname : target.symbol? = none) :
      Raises alive ⟨limit + 1, held, scope, .list [head, target, list, body], s⟩
        (.error .defineTarget)
  | defineParams {limit : Nat} {held : Held} {scope : ScopeId} {head target list body : Term}
      {e : Error} {s : Store} (hk : Keyword.ofTerm? head = some .define)
      (hparams : paramNames list = .error e) :
      Raises alive ⟨limit + 1, held, scope, .list [head, target, list, body], s⟩ (.error e)
  | defineTwice {limit : Nat} {held : Held} {scope : ScopeId} {head target list body : Term}
      {name : Symbol} {s : Store} (hk : Keyword.ofTerm? head = some .define)
      (hname : target.symbol? = some name) (hold : (s.frame scope).binds name = true) :
      Raises alive ⟨limit + 1, held, scope, .list [head, target, list, body], s⟩
        (.error (.duplicate name))
  | lambdaParams {limit : Nat} {held : Held} {scope : ScopeId} {head list body : Term} {e : Error}
      {s : Store} (hk : Keyword.ofTerm? head = some .lambda)
      (hparams : paramNames list = .error e) :
      Raises alive ⟨limit + 1, held, scope, .list [head, list, body], s⟩ (.error e)
  | notFunction {limit : Nat} {held : Held} {scope : ScopeId} {head fn : Term} {args : List Term}
      {s t : Store} (hk : Keyword.ofTerm? head = none)
      (hhead : evaluateWith alive limit (held.enter scope) scope head s = .ok fn t)
      (hfn : fn.isFunction = false) :
      Raises alive ⟨limit + 1, held, scope, .list (head :: args), s⟩ (.error .notFunction)
  | refuses {limit : Nat} {held : Held} {scope : ScopeId} {head fn : Term} {args values : List Term}
      {e : Error} {s t u : Store} (hk : Keyword.ofTerm? head = none)
      (hhead : evaluateWith alive limit (held.enter scope) scope head s = .ok fn t)
      (hargs : evaluateArgs (evaluateWith alive limit) ((held.enter scope).keep fn) scope
        args t = .ok values u)
      (hfn : fn.Refuses alive (((held.enter scope).keep fn).keepAll values) u values e) :
      Raises alive ⟨limit + 1, held, scope, .list (head :: args), s⟩ (.error e)

variable {alive : Liveness} {a b : Activation} {fn : Term} {m : Moment} {o : ScopeId}

theorem Calls.starts (h : Calls alive fn a b) : Starts alive a b := by
  obtain ⟨hk, hhead, hargs, hcount, henters⟩ := h
  exact .body hk hhead hargs hcount henters

theorem Calls.call (h : Calls alive fn a b) :
    ∃ head args, a.term = .list (head :: args) ∧ Keyword.ofTerm? head = none := by
  obtain ⟨hk⟩ := h
  exact ⟨_, _, rfl, hk⟩

theorem Asks.call (h : Asks alive a m o) :
    ∃ head args, a.term = .list (head :: args) ∧ Keyword.ofTerm? head = none := by
  obtain ⟨hk⟩ := h
  exact ⟨_, _, rfl, hk⟩

theorem Asks.passes (h : Asks alive a m o) : Passes alive a m := by
  obtain ⟨hk, hhead, hargs⟩ := h
  exact .calls hk hhead rfl hargs

theorem Starts.limit_eq (h : Starts alive a b) : a.limit = b.limit + 1 := by
  cases h <;> rfl

end Activation

/-! ## Calls of functions -/

section Calls

variable {alive : Liveness} {ev : Evaluator} {held : Held} {s t : Store} {o : ScopeId} {fn : Term}
  {args : List Term}

theorem applyWith_of_alive (h : alive held s o = true)
    (name : Symbol) (params : List Symbol) (body : Term) (args : List Term) :
    applyWith alive ev held (.named name params body o) args s =
      applyWith alive ev held (.closure params body o) args s := by
  refine Eval.bind_congr rfl fun _ t ht => ?_
  obtain ⟨-, rfl⟩ := Eval.of_checkCount_eq_ok ht
  rw [Eval.bind_of_ok (a := true) (t := t) (by rw [Eval.isAlive, h]), if_pos rfl]

theorem Term.Enters.applyWith_eq {body : Term} {params : List Symbol}
    (h : fn.Enters alive held s params body o) (hcount : params.length = args.length) :
    applyWith alive ev held fn args s =
      ev held s.size body (s.push (Frame.ofRecords (params.zip args) (some o))) := by
  have hclosure : applyWith alive ev held (.closure params body o) args s =
      ev held s.size body (s.push (Frame.ofRecords (params.zip args) (some o))) := by
    rw [applyWith, checkCount, if_pos hcount]
    rfl
  cases h with
  | closure => exact hclosure
  | named name _ _ hlives => rw [applyWith_of_alive hlives, hclosure]

theorem applyWith_of_not_alive (h : alive held s o = false)
    (name : Symbol) (params : List Symbol) (body : Term) (args : List Term) :
    applyWith alive ev held (.named name params body o) args s =
      (checkCount params args >>= fun _ => Eval.fail (.scopeReclaimed name)) s := by
  refine Eval.bind_congr rfl fun _ t ht => ?_
  obtain ⟨-, rfl⟩ := Eval.of_checkCount_eq_ok ht
  rw [Eval.bind_of_ok (a := false) (t := t) (by rw [Eval.isAlive, h]), if_neg Bool.false_ne_true]

/-- **What a call of a function comes to**: a body is entered, a builtin function has a value, or
the function refuses the call and nothing has changed. -/
theorem Term.applyWith_cases (alive : Liveness) (ev : Evaluator) (held : Held) (s : Store)
    (args : List Term) (hfn : fn.isFunction = true) :
    (∃ params body o, params.length = args.length ∧ fn.Enters alive held s params body o ∧
        applyWith alive ev held fn args s =
          ev held s.size body (s.push (Frame.ofRecords (params.zip args) (some o)))) ∨
      (∃ b v, fn = .builtin b ∧ b.call args = .ok v ∧
        applyWith alive ev held fn args s = .ok v s) ∨
      ∃ e, fn.Refuses alive held s args e ∧
        applyWith alive ev held fn args s = .error (.error e) s := by
  have hcheck : ∀ params : List Symbol, params.length ≠ args.length → ∀ k : Unit → Eval Term,
      (checkCount params args >>= k) s =
        .error (.error (.argumentCount params.length args.length)) s := by
    intro params hcount k
    rw [checkCount, if_neg hcount]
    rfl
  cases fn with
  | builtin b =>
    cases hcall : b.call args with
    | ok v => exact .inr (.inl ⟨b, v, rfl, hcall, by rw [applyWith, hcall]; rfl⟩)
    | error e => exact .inr (.inr ⟨e, .builtin hcall, by rw [applyWith, hcall]; rfl⟩)
  | closure params body o =>
    by_cases hcount : params.length = args.length
    · have henters : (Term.closure params body o).Enters alive held s params body o := .closure ..
      exact .inl ⟨params, body, o, hcount, henters, henters.applyWith_eq hcount⟩
    · exact .inr (.inr ⟨_, .closure hcount, hcheck params hcount _⟩)
  | named name params body o =>
    by_cases hcount : params.length = args.length
    · cases hlives : alive held s o with
      | true =>
        have henters : (Term.named name params body o).Enters alive held s params body o :=
          .named _ _ _ hlives
        exact .inl ⟨params, body, o, hcount, henters, henters.applyWith_eq hcount⟩
      | false =>
        refine .inr (.inr ⟨_, .reclaimed hcount hlives, ?_⟩)
        rw [applyWith_of_not_alive hlives, checkCount, if_pos hcount]
        rfl
    · exact .inr (.inr ⟨_, .named hcount, hcheck params hcount _⟩)
  | _ => cases hfn

end Calls

/-! ## Evaluations that run alike -/

section Congruence

variable {ev ev' : Evaluator} {held held' : Held} {scope : ScopeId} {s : Store}

theorem evaluateArgs_congr {es : List Term}
    (h : ∀ before e after values t, es = before ++ e :: after →
      evaluateArgs ev held scope before s = .ok values t →
      ev' (held'.keepAll values.reverse) scope e t = ev (held.keepAll values.reverse) scope e t) :
    evaluateArgs ev' held' scope es s = evaluateArgs ev held scope es s := by
  induction es generalizing held held' s with
  | nil => rfl
  | cons e es ih =>
    refine Eval.bind_congr (h [] e es [] s rfl rfl) fun v t hv => ?_
    refine Eval.bind_congr (ih fun before e' after values u hes hvalues => ?_) fun _ _ _ => rfl
    have hargs : evaluateArgs ev held scope (e :: before) s = .ok (v :: values) u := by
      rw [evaluateArgs, Eval.bind_of_ok hv, Eval.bind_of_ok hvalues]
      rfl
    rw [Held.keepAll_keep, Held.keepAll_keep]
    exact h (e :: before) e' after (v :: values) u (by rw [hes]; rfl) hargs

theorem evaluateBlock_congr {last : Option Term} {first : Term} {rest : List Term}
    (hfirst : ev' (last.elim held' held'.keep) scope first s =
      ev (last.elim held held.keep) scope first s)
    (hrest : ∀ before e after value t, rest = before ++ e :: after →
      evaluateBlock ev held scope last first before s = .ok value t →
      ev' (held'.keep value) scope e t = ev (held.keep value) scope e t) :
    evaluateBlock ev' held' scope last first rest s =
      evaluateBlock ev held scope last first rest s := by
  induction rest generalizing last first s with
  | nil => exact hfirst
  | cons e es ih =>
    refine Eval.bind_congr hfirst fun v t hv => ?_
    refine ih (hrest [] e es v t rfl hv) fun before e' after value u hes hbefore => ?_
    refine hrest (e :: before) e' after value u (by rw [hes]; rfl) ?_
    rw [evaluateBlock, Eval.bind_of_ok hv]
    exact hbefore

theorem applyWith_congr {alive other : Liveness} {fn : Term} {args : List Term}
    (hrule : ∀ name params body o, fn = .named name params body o →
      other held' s o = alive held s o)
    (hbody : ∀ params body o, params.length = args.length →
      fn.Enters alive held s params body o →
      enterBody ev' held' params args body o s = enterBody ev held params args body o s) :
    applyWith other ev' held' fn args s = applyWith alive ev held fn args s := by
  cases fn with
  | closure params body o =>
    refine Eval.bind_congr rfl fun _ t ht => ?_
    obtain ⟨hcount, rfl⟩ := Eval.of_checkCount_eq_ok ht
    exact hbody params body o hcount (.closure params body o)
  | named name params body o =>
    refine Eval.bind_congr rfl fun _ t ht => ?_
    obtain ⟨hcount, rfl⟩ := Eval.of_checkCount_eq_ok ht
    have hasked : Eval.isAlive other held' o t = Eval.isAlive alive held o t := by
      rw [Eval.isAlive, Eval.isAlive, hrule name params body o rfl]
    refine Eval.bind_congr hasked fun lives u hu => ?_
    cases hu
    split_ifs with hlives
    · exact hbody params body o hcount (.named name params body hlives)
    · rfl
  | _ => rfl

end Congruence

namespace Activation

variable {alive other : Liveness} {limit : Nat} {held held' : Held} {scope : ScopeId} {s : Store}
  {ev : Evaluator}

/-- A call runs alike when the evaluations that it starts do, and the question whether the scope of
the function lives has the same answer. What else is in use may differ. -/
theorem evaluateCall_congr {head : Term} {args : List Term} (hk : Keyword.ofTerm? head = none)
    (hstarts : ∀ b values, Starts alive ⟨limit + 1, held, scope, .list (head :: args), s⟩ b →
      b.held = (held.enter scope).keepAll values →
      ev (held'.keepAll values) b.scope b.term b.store = b.run alive)
    (hrules : ∀ m values o, Asks alive ⟨limit + 1, held, scope, .list (head :: args), s⟩ m o →
      m.held = (held.enter scope).keepAll values →
      other (held'.keepAll values) m.store o = alive m.held m.store o) :
    evaluateCall other ev held' scope head args s =
      evaluateCall alive (evaluateWith alive limit) (held.enter scope) scope head args s := by
  refine Eval.bind_congr (hstarts _ [] (.head hk) rfl) fun fn t hhead => ?_
  split_ifs with hfn
  · refine Eval.bind_congr (evaluateArgs_congr fun before e after values u hargs hbefore => ?_)
      fun values u hargs => ?_
    · subst hargs
      rw [Held.keepAll_keep]
      exact hstarts _ _ (.arg hk hhead hfn hbefore) (Held.keepAll_keep ..)
    · rw [Held.keepAll_keep_eq held']
      refine applyWith_congr ?_ fun params body o hcount henters =>
        hstarts _ _ (.body hk hhead hargs hcount henters) (Held.keepAll_keep_eq ..)
      rintro name params body o rfl
      exact hrules _ _ o (.intro hk hhead hargs) (Held.keepAll_keep_eq ..)
  · rfl

theorem evaluateForm_congr {head : Term} {keyword : Keyword}
    (hk : Keyword.ofTerm? head = some keyword) {parts : List Term}
    (hstarts : ∀ b values, Starts alive ⟨limit + 1, held, scope, .list (head :: parts), s⟩ b →
      b.held = (held.enter scope).keepAll values →
      ev (held'.keepAll values) b.scope b.term b.store = b.run alive) :
    evaluateForm ev held' scope keyword parts s =
      evaluateForm (evaluateWith alive limit) (held.enter scope) scope keyword parts s := by
  unfold evaluateForm
  split
  · next first rest =>
    refine Eval.bind_congr rfl fun inner t ht => ?_
    cases ht
    refine evaluateBlock_congr (hstarts _ [] (.first hk) rfl) ?_
    intro before e after value u hrest hbefore
    subst hrest
    exact hstarts _ [value] (.part hk hbefore) rfl
  · next target e =>
    cases hname : target.symbol? with
    | none => rfl
    | some name => exact Eval.bind_congr (hstarts _ [] (.value hk hname) rfl) fun _ _ _ => rfl
  · next test yes no =>
    refine Eval.bind_congr (hstarts _ [] (.test hk) rfl) fun value t htest => ?_
    cases value with
    | bool b =>
      cases b with
      | true => exact hstarts _ [] (.branch hk htest) rfl
      | false => exact hstarts _ [] (.branch hk htest) rfl
    | _ => rfl
  · rfl
  · rfl
  · rfl

/-- **One evaluation runs like another one** of the same term in the same scope and store, if those
that they start do. -/
theorem run_congr_of_starts {a : Activation} {n m : Nat} (hlimit : a.limit = n + 1)
    (hstarts : ∀ b values, a.Starts alive b → b.held = (a.held.enter a.scope).keepAll values →
      evaluateWith other m ((held'.enter a.scope).keepAll values) b.scope b.term b.store =
        b.run alive)
    (hrules : ∀ m values o, a.Asks alive m o → m.held = (a.held.enter a.scope).keepAll values →
      other ((held'.enter a.scope).keepAll values) m.store o = alive m.held m.store o) :
    evaluateWith other (m + 1) held' a.scope a.term a.store = a.run alive := by
  obtain ⟨limit, held, scope, e, s⟩ := a
  subst hlimit
  unfold run
  dsimp only at hstarts hrules ⊢
  match e with
  | .list (head :: parts) =>
    cases hk : Keyword.ofTerm? head with
    | some keyword =>
      rw [evaluateWith_form hk, evaluateWith_form hk]
      exact evaluateForm_congr hk hstarts
    | none =>
      rw [evaluateWith_call hk, evaluateWith_call hk]
      exact evaluateCall_congr hk hstarts hrules
  | .list [] | .bool _ | .int _ | .symbol _ | .builtin _ | .closure .. | .named .. | .absent
  | .text _ => rfl

/-- **No evaluation and no question is missed**: two rules that give the same answers to all that is
asked in a run give the same run. -/
theorem run_congr {a : Activation}
    (hrules : ∀ b m o, a.Occurs alive b → b.Asks alive m o →
      other m.held m.store o = alive m.held m.store o) : a.run other = a.run alive := by
  -- on the limit: what is asked in an evaluation that is started is asked in the whole run
  induction hn : a.limit generalizing a with
  | zero =>
    obtain ⟨limit, held, scope, e, s⟩ := a
    cases hn
    rfl
  | succ n ih =>
    rw [run, hn]
    refine run_congr_of_starts hn (fun b values hb hheld => ?_) fun m values o hm hheld => ?_
    · have hlimit : b.limit = n := by have := hb.limit_eq; omega
      rw [← hheld, ← hlimit]
      exact ih (fun c m o hc => hrules c m o (.head hb hc)) hlimit
    · rw [← hheld]
      exact hrules a m o .refl hm

end Activation

end ScopedLisp
