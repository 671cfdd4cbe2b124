import Mathlib.Data.List.Induction
import ScopedLisp.Proofs.Activations

/-!
# The progress of an evaluation

An evaluation evaluates some parts of its term one after the other, and then it ends: with a value,
as the body of a function does, or with a fault. This is said once for all kinds of terms, so that
what holds of every evaluation need not be proved for each of them.

* `Term.position?`, `Term.kept`, `Term.answers`: the part that comes next, the values that are held
  by then, and the parts whose value is that of the whole;
* `Progress`, `Activation.Goes`, `Activation.Reaches`: how far an evaluation comes;
* `Activation.Returns`, `Activation.Stops`: how it ends;
* `Activation.Starts.progress`: every evaluation that is started is one of a part or of a body;
* **`Activation.exists_stops`**: every evaluation comes to where it ends, and ends so;
* **`Activation.exists_raises`**: every fault of a run is raised by an evaluation that occurs in it.
-/

namespace ScopedLisp

open Relation

namespace Term

/-- A part of a list, by its number. -/
def part? : Term → Nat → Option Term
  | list items, j => items[j]?
  | _, _ => none

/-- The number of the part that is evaluated after those with the given values. -/
def position? : Term → List Term → Option Nat
  | list (head :: parts), values =>
    match Keyword.ofTerm? head, parts, values with
    | none, _, _ => some values.length
    | some .block, _ :: _, _ => some (values.length + 1)
    | some .bind, [_, _], [] => some 2
    | some .choose, [_, _, _], [] => some 1
    | some .choose, [_, _, _], [bool b] => some (if b then 2 else 3)
    | _, _, _ => none
  | _, _ => none

/-- Those of the given values that are held while the next part is evaluated. -/
def kept : Term → List Term → List Term
  | list (head :: _), values =>
    match Keyword.ofTerm? head with
    | none => values.reverse
    | some .block => values.getLast?.toList
    | some _ => []
  | _, _ => []

/-- Whether the value of a part is that of the whole. -/
def answers : Term → Nat → Bool
  | list (head :: parts), j =>
    match Keyword.ofTerm? head with
    | some .block => j = parts.length
    | some .choose => 1 < j
    | _ => false
  | _, _ => false

theorem of_position?_eq_some {e : Term} {values : List Term} {j : Nat}
    (h : e.position? values = some j) : ∃ head parts, e = list (head :: parts) ∧
      ((Keyword.ofTerm? head = none ∧ j = values.length) ∨
        (Keyword.ofTerm? head = some .block ∧ parts ≠ [] ∧ j = values.length + 1) ∨
        (Keyword.ofTerm? head = some .bind ∧ (∃ target e, parts = [target, e]) ∧ values = [] ∧
          j = 2) ∨
        (Keyword.ofTerm? head = some .choose ∧ (∃ test yes no, parts = [test, yes, no]) ∧
          (values = [] ∧ j = 1 ∨ ∃ b, values = [bool b] ∧ j = if b then 2 else 3))) := by
  unfold position? at h
  split at h
  · refine ⟨_, _, rfl, ?_⟩
    split at h <;> cases h <;> simp_all
  · cases h

end Term

/-- How far an evaluation has come: the values of the parts that it has evaluated, and the store. -/
structure Progress where
  values : List Term
  store : Store

/-- One more part has a value. -/
def Progress.give (p : Progress) (v : Term) (t : Store) : Progress := ⟨p.values ++ [v], t⟩

namespace Activation

/-- Whether the parts of the term have a scope of their own. -/
def opens (a : Activation) : Bool :=
  match a.limit, a.term with
  | _ + 1, .list (head :: _ :: _) => Keyword.ofTerm? head = some .block
  | _, _ => false

/-- The scope in which the parts of the term are evaluated. -/
def inner (a : Activation) : ScopeId := if a.opens then a.store.size else a.scope

/-- The store in which the first part is evaluated. -/
def opened (a : Activation) : Store :=
  if a.opens then a.store.push { outer := some a.scope } else a.store

section Definitions

variable (alive : Liveness) (a : Activation)

/-- An evaluation that has come so far starts that of the part `j`. -/
structure StartsPart (p : Progress) (j : Nat) (b : Activation) : Prop where
  starts : a.Starts alive b
  position : a.term.position? p.values = some j
  part : a.term.part? j = some b.term
  scope : b.scope = a.inner
  held : b.held = (a.held.enter a.scope).keepAll (a.term.kept p.values)
  store : b.store = p.store

/-- An evaluation that has come so far starts that of the body of a function. -/
inductive StartsBody (p : Progress) (fn : Term) : Activation → Prop
  | intro {args : List Term} {params : List Symbol} {body : Term} {o : ScopeId}
      (hcalls : a.Calls alive fn ⟨a.limit - 1, ((a.held.enter a.scope).keep fn).keepAll args,
        p.store.size, body, p.store.push (Frame.ofRecords (params.zip args) (some o))⟩)
      (hvalues : p.values = fn :: args) (hcount : params.length = args.length)
      (henters : fn.Enters alive (((a.held.enter a.scope).keep fn).keepAll args) p.store params
        body o) :
      StartsBody p fn ⟨a.limit - 1, ((a.held.enter a.scope).keep fn).keepAll args, p.store.size,
        body, p.store.push (Frame.ofRecords (params.zip args) (some o))⟩

/-- An evaluation goes on by one part. -/
inductive Goes : Progress → Progress → Prop
  | intro {p : Progress} {j : Nat} {b : Activation} {v : Term} {t : Store}
      (hstart : a.StartsPart alive p j b) (hrun : b.run alive = .ok v t) : Goes p (p.give v t)

/-- An evaluation comes so far. -/
def Reaches : Progress → Prop := ReflTransGen (a.Goes alive) ⟨[], a.opened⟩

/-- An evaluation that has come so far gives a value. -/
inductive Returns (p : Progress) : Term → Store → Prop
  | atom (hterm : (∃ b, a.term = .bool b) ∨ ∃ n, a.term = .int n) (hvalues : p.values = []) :
      Returns p a.term p.store
  | found {name : Symbol} {v : Term} (hterm : a.term = .symbol name) (hvalues : p.values = [])
      (h : p.store.lookup a.scope name = some v) : Returns p v p.store
  | builtin {head : Term} {es args : List Term} {b : Builtin} {v : Term}
      (hk : Keyword.ofTerm? head = none) (hterm : a.term = .list (head :: es))
      (hvalues : p.values = .builtin b :: args) (h : b.call args = .ok v) : Returns p v p.store
  /-- The value of the last part. -/
  | last {before : List Term} {v : Term} {j : Nat} (hvalues : p.values = before ++ [v])
      (hposition : a.term.position? before = some j) (hanswers : a.term.answers j = true) :
      Returns p v p.store
  | bound {head target e v : Term} {name : Symbol} (hk : Keyword.ofTerm? head = some .bind)
      (hterm : a.term = .list [head, target, e]) (hname : target.symbol? = some name)
      (hvalues : p.values = [v]) (hnew : (p.store.frame a.scope).binds name = false) :
      Returns p v (p.store.bind a.scope name v)
  | defined {head target list body : Term} {name : Symbol} {params : List Symbol}
      (hk : Keyword.ofTerm? head = some .define) (hterm : a.term = .list [head, target, list, body])
      (hname : target.symbol? = some name) (hparams : paramNames list = .ok params)
      (hvalues : p.values = []) (hnew : (p.store.frame a.scope).binds name = false) :
      Returns p (.named name params body a.scope)
        (p.store.bind a.scope name (.named name params body a.scope))
  | made {head list body : Term} {params : List Symbol} (hk : Keyword.ofTerm? head = some .lambda)
      (hterm : a.term = .list [head, list, body]) (hparams : paramNames list = .ok params)
      (hvalues : p.values = []) : Returns p (.closure params body a.scope) p.store

/-- An evaluation that has come so far ends. -/
inductive Stops (p : Progress) : EStateM.Result Fault Store Term → Prop
  /-- It passes on the fault of a part. -/
  | fault {j : Nat} {b : Activation} {f : Fault} {t : Store} (hstart : a.StartsPart alive p j b)
      (hrun : b.run alive = .error f t) : Stops p (.error f t)
  /-- It ends as the body does. -/
  | body {fn : Term} {b : Activation} (hstart : a.StartsBody alive p fn b) :
      Stops p (b.run alive)
  | raises {f : Fault} (h : a.Raises alive f) : Stops p (.error f p.store)
  | returns {v : Term} {t : Store} (h : a.Returns p v t) : Stops p (.ok v t)

end Definitions

variable {alive : Liveness} {a b : Activation} {fault : Fault} {t : Store}

theorem opens_iff : a.opens = true ↔ ∃ n head first rest, a.limit = n + 1 ∧
    a.term = .list (head :: first :: rest) ∧ Keyword.ofTerm? head = some .block := by
  unfold opens
  split
  · next hlimit hterm => simp [hlimit, hterm]
  · next hne =>
    simp only [Bool.false_eq_true, false_iff]
    rintro ⟨n, head, first, rest, hlimit, hterm, -⟩
    exact hne n head first rest hlimit hterm

theorem opens_eq_false {head : Term} {parts : List Term} (hterm : a.term = .list (head :: parts))
    (hk : Keyword.ofTerm? head ≠ some .block) : a.opens = false := by
  rw [← Bool.not_eq_true, opens_iff]
  rintro ⟨n, head', first, rest, -, hterm', hk'⟩
  cases hterm.symm.trans hterm'
  exact hk hk'

theorem inner_of_opens (h : a.opens = true) : a.inner = a.store.size := if_pos h

theorem opened_of_opens (h : a.opens = true) :
    a.opened = a.store.push { outer := some a.scope } := if_pos h

theorem inner_of_not_opens (h : a.opens = false) : a.inner = a.scope := if_neg (by simp [h])

theorem opened_of_not_opens (h : a.opens = false) : a.opened = a.store := if_neg (by simp [h])

theorem opened_of_push {P : Store → Prop} (h : P a.store)
    (hpush : P (a.store.push { outer := some a.scope })) : P a.opened := by
  unfold opened
  split_ifs
  · exact hpush
  · exact h

theorem reaches_begin (h : a.opens = false) : a.Reaches alive ⟨[], a.store⟩ := by
  rw [Reaches, opened_of_not_opens h]

/-! ## What a started evaluation does to the whole -/

theorem Calls.run_eq {fn : Term} (h : a.Calls alive fn b) : a.run alive = b.run alive := by
  obtain ⟨hk, hhead, hargs, hcount, henters⟩ := h
  unfold run
  rw [evaluateWith_call hk, evaluateCall, Eval.bind_of_ok hhead, if_pos henters.isFunction,
    Eval.bind_of_ok hargs, henters.applyWith_eq hcount]

/-- **An evaluation passes on the fault of one that it has started.** Nothing that it does takes the
fault back or turns it into another one. -/
theorem Starts.run_eq_error (h : Starts alive a b) (hb : b.run alive = .error fault t) :
    a.run alive = .error fault t := by
  unfold run at hb ⊢
  cases h with
  | head hk =>
    rw [evaluateWith_call hk]
    exact Eval.bind_of_error hb
  | arg hk hhead hfn hbefore =>
    rw [evaluateWith_call hk, evaluateCall, Eval.bind_of_ok hhead, if_pos hfn]
    refine Eval.bind_of_error ((evaluateArgs_append hbefore _).trans ?_)
    exact Eval.bind_of_error (Eval.bind_of_error hb)
  | body hk hhead hargs hcount henters =>
    exact (Calls.run_eq (.intro hk hhead hargs hcount henters)).trans hb
  | first hk =>
    rw [evaluateWith_form hk]
    exact evaluateBlock_of_error hb
  | part hk hbefore =>
    rw [evaluateWith_form hk]
    exact (evaluateBlock_append hbefore).trans (evaluateBlock_of_error hb)
  | value hk hname =>
    rw [evaluateWith_form hk]
    simp only [evaluateForm, hname]
    exact Eval.bind_of_error hb
  | test hk =>
    rw [evaluateWith_form hk]
    exact Eval.bind_of_error hb
  | @branch n held scope head test yes no c s u hk htest =>
    rw [evaluateWith_form hk]
    refine (Eval.bind_of_ok htest).trans ?_
    cases c <;> exact hb

/-! ## Calls -/

section Call

variable {n : Nat} {held : Held} {scope : ScopeId} {head fn e : Term}
  {before after values : List Term} {s u : Store} (hk : Keyword.ofTerm? head = none)
include hk

theorem opens_call (args : List Term) :
    opens ⟨n + 1, held, scope, .list (head :: args), s⟩ = false :=
  opens_eq_false rfl (by simp [hk])

theorem startsPart_head (args : List Term) :
    StartsPart alive ⟨n + 1, held, scope, .list (head :: args), s⟩ ⟨[], s⟩ 0
      ⟨n, held.enter scope, scope, head, s⟩ where
  starts := .head hk
  position := by simp [Term.position?, hk]
  part := rfl
  scope := (inner_of_not_opens (opens_call hk _)).symm
  held := by simp [Term.kept, hk, Held.keepAll]
  store := rfl

variable (hhead : evaluateWith alive n (held.enter scope) scope head s = .ok fn t)
  (hfn : fn.isFunction = true)
  (hbefore : evaluateArgs (evaluateWith alive n) ((held.enter scope).keep fn) scope before t =
    .ok values u)
include hhead hfn hbefore

theorem startsPart_arg (e : Term) (after : List Term) :
    StartsPart alive ⟨n + 1, held, scope, .list (head :: (before ++ e :: after)), s⟩
      ⟨fn :: values, u⟩ (before.length + 1)
      ⟨n, ((held.enter scope).keep fn).keepAll values.reverse, scope, e, u⟩ where
  starts := .arg hk hhead hfn hbefore
  position := by simp [Term.position?, hk, length_of_evaluateArgs hbefore]
  part := by simp [Term.part?]
  scope := (inner_of_not_opens (opens_call hk _)).symm
  held := by simp only [Term.kept, hk, Held.keepAll_keep]
  store := rfl

theorem reaches_args (after : List Term) :
    Reaches alive ⟨n + 1, held, scope, .list (head :: (before ++ after)), s⟩ ⟨fn :: values, u⟩ := by
  induction before using List.reverseRecOn generalizing values u after with
  | nil =>
    cases hbefore
    exact (reaches_begin (opens_call hk _)).tail (.intro (startsPart_head hk _) hhead)
  | append_singleton before e ih =>
    obtain ⟨vs, v, w, rfl, hvs, hv⟩ := of_evaluateArgs_concat_eq_ok hbefore
    rw [List.append_assoc]
    exact (ih hvs (e :: after)).tail (.intro (startsPart_arg hk hhead hfn hvs e after) hv)

theorem stops_args (after : List Term) : ∃ q,
    ReflTransGen (Goes alive ⟨n + 1, held, scope, .list (head :: (before ++ after)), s⟩)
      ⟨fn :: values, u⟩ q ∧
    Stops alive ⟨n + 1, held, scope, .list (head :: (before ++ after)), s⟩ q
      (run alive ⟨n + 1, held, scope, .list (head :: (before ++ after)), s⟩) := by
  induction after generalizing before values u with
  | nil =>
    rw [List.append_nil]
    refine ⟨_, .refl, ?_⟩
    rcases Term.applyWith_cases alive (evaluateWith alive n)
      (((held.enter scope).keep fn).keepAll values) u values hfn with
      ⟨params, body, o, hcount, henters, -⟩ | ⟨b, v, rfl, hcall, happly⟩ | ⟨e, hrefuses, happly⟩
    · have hcalls : Calls alive fn ⟨n + 1, held, scope, .list (head :: before), s⟩ _ :=
        .intro hk hhead hbefore hcount henters
      rw [hcalls.run_eq]
      exact .body (.intro hcalls rfl hcount henters)
    all_goals
      unfold run
      rw [evaluateWith_call hk, evaluateCall, Eval.bind_of_ok hhead, if_pos hfn,
        Eval.bind_of_ok hbefore, happly]
    · exact .returns (.builtin hk rfl rfl hcall)
    · exact .raises (.refuses hk hhead hbefore hrefuses)
  | cons e after ih =>
    have hstart := startsPart_arg hk hhead hfn hbefore e after
    cases hv : evaluateWith alive n (((held.enter scope).keep fn).keepAll values.reverse) scope e
        u with
    | error fault w =>
      rw [hstart.starts.run_eq_error hv]
      exact ⟨_, .refl, .fault hstart hv⟩
    | ok v w =>
      obtain ⟨q, hgoes, hstops⟩ := ih (evaluateArgs_concat hbefore hv)
      rw [List.append_assoc] at hgoes hstops
      exact ⟨q, .head (.intro hstart hv) hgoes, hstops⟩

end Call

/-! ## Blocks -/

section Block

variable {n : Nat} {held : Held} {scope : ScopeId} {head first value : Term}
  {before : List Term} {s : Store} (hk : Keyword.ofTerm? head = some .block)
include hk

theorem opens_block (first : Term) (rest : List Term) :
    opens ⟨n + 1, held, scope, .list (head :: first :: rest), s⟩ = true :=
  opens_iff.2 ⟨n, head, first, rest, rfl, rfl, hk⟩

theorem startsPart_first (first : Term) (rest : List Term) :
    StartsPart alive ⟨n + 1, held, scope, .list (head :: first :: rest), s⟩
      ⟨[], s.push { outer := some scope }⟩ 1
      ⟨n, held.enter scope, s.size, first, s.push { outer := some scope }⟩ where
  starts := .first hk
  position := by simp [Term.position?, hk]
  part := rfl
  scope := (inner_of_opens (opens_block hk _ _)).symm
  held := by simp [Term.kept, hk, Held.keepAll]
  store := rfl

variable (hbefore : evaluateBlock (evaluateWith alive n) (held.enter scope) s.size none first before
    (s.push { outer := some scope }) = .ok value t)
include hbefore

theorem startsPart_part {values : List Term} (hlength : values.length = before.length) (e : Term)
    (after : List Term) :
    StartsPart alive ⟨n + 1, held, scope, .list (head :: first :: (before ++ e :: after)), s⟩
      ⟨values ++ [value], t⟩ (before.length + 2)
      ⟨n, (held.enter scope).keep value, s.size, e, t⟩ where
  starts := .part hk hbefore
  position := by simp [Term.position?, hk, hlength]
  part := by simp [Term.part?]
  scope := (inner_of_opens (opens_block hk _ _)).symm
  held := by simp [Term.kept, hk, Held.keepAll, Held.keep]
  store := rfl

theorem reaches_block (after : List Term) : ∃ values, values.length = before.length ∧
    Reaches alive ⟨n + 1, held, scope, .list (head :: first :: (before ++ after)), s⟩
      ⟨values ++ [value], t⟩ := by
  induction before using List.reverseRecOn generalizing value t after with
  | nil =>
    refine ⟨[], rfl, .single ?_⟩
    rw [opened_of_opens (opens_block hk _ _)]
    exact .intro (startsPart_first hk _ _) hbefore
  | append_singleton before e ih =>
    obtain ⟨v, u, hv, he⟩ := of_evaluateBlock_concat_eq_ok hbefore
    obtain ⟨values, hlength, hreaches⟩ := ih hv (e :: after)
    rw [List.append_assoc]
    refine ⟨values ++ [v], by simp [hlength], hreaches.tail ?_⟩
    exact .intro (startsPart_part hk hv hlength e after) he

theorem stops_block {values : List Term} (hlength : values.length = before.length)
    (after : List Term) : ∃ q,
    ReflTransGen (Goes alive ⟨n + 1, held, scope, .list (head :: first :: (before ++ after)), s⟩)
      ⟨values ++ [value], t⟩ q ∧
    Stops alive ⟨n + 1, held, scope, .list (head :: first :: (before ++ after)), s⟩ q
      (run alive ⟨n + 1, held, scope, .list (head :: first :: (before ++ after)), s⟩) := by
  induction after generalizing before value values t with
  | nil =>
    rw [List.append_nil]
    have hrun : run alive ⟨n + 1, held, scope, .list (head :: first :: before), s⟩ =
        .ok value t := by
      rw [run, evaluateWith_form hk]
      exact hbefore
    rw [hrun]
    refine ⟨_, .refl, .returns (.last rfl (j := before.length + 1) ?_ ?_)⟩
    · simp [Term.position?, hk, hlength]
    · simp [Term.answers, hk]
  | cons e after ih =>
    have hstart := startsPart_part hk hbefore hlength e after
    cases hv : evaluateWith alive n ((held.enter scope).keep value) s.size e t with
    | error fault w =>
      rw [hstart.starts.run_eq_error hv]
      exact ⟨_, .refl, .fault hstart hv⟩
    | ok v w =>
      have hlength' : (values ++ [value]).length = (before ++ [e]).length := by simp [hlength]
      obtain ⟨q, hgoes, hstops⟩ := ih (evaluateBlock_concat hbefore hv) hlength'
      rw [List.append_assoc] at hgoes hstops
      exact ⟨q, .head (.intro hstart hv) hgoes, hstops⟩

end Block

/-! ## Bindings and choices -/

section Form

variable {n : Nat} {held : Held} {scope : ScopeId} {head target e test yes no value : Term}
  {s : Store}

theorem opens_form {keyword : Keyword} (hk : Keyword.ofTerm? head = some keyword)
    (hne : keyword ≠ .block) (parts : List Term) :
    opens ⟨n + 1, held, scope, .list (head :: parts), s⟩ = false :=
  opens_eq_false rfl (by simp [hk, hne])

theorem startsPart_value (hk : Keyword.ofTerm? head = some .bind) {name : Symbol}
    (hname : target.symbol? = some name) :
    StartsPart alive ⟨n + 1, held, scope, .list [head, target, e], s⟩ ⟨[], s⟩ 2
      ⟨n, held.enter scope, scope, e, s⟩ where
  starts := .value hk hname
  position := by simp [Term.position?, hk]
  part := rfl
  scope := (inner_of_not_opens (opens_form hk (by decide) _)).symm
  held := by simp [Term.kept, hk, Held.keepAll]
  store := rfl

theorem reaches_value (hk : Keyword.ofTerm? head = some .bind) {name : Symbol}
    (hname : target.symbol? = some name)
    (hvalue : evaluateWith alive n (held.enter scope) scope e s = .ok value t) :
    Reaches alive ⟨n + 1, held, scope, .list [head, target, e], s⟩ ⟨[value], t⟩ :=
  (reaches_begin (opens_form hk (by decide) _)).tail (.intro (startsPart_value hk hname) hvalue)

theorem stops_value (hk : Keyword.ofTerm? head = some .bind) {name : Symbol}
    (hname : target.symbol? = some name)
    (hvalue : evaluateWith alive n (held.enter scope) scope e s = .ok value t) :
    Stops alive ⟨n + 1, held, scope, .list [head, target, e], s⟩ ⟨[value], t⟩
      (run alive ⟨n + 1, held, scope, .list [head, target, e], s⟩) := by
  unfold run
  rw [evaluateWith_form hk]
  simp only [evaluateForm, hname]
  rw [Eval.bind_of_ok hvalue]
  cases hdefine : Eval.define scope name value t with
  | ok v u =>
    obtain ⟨hnew, rfl, rfl⟩ := Eval.of_define_eq_ok hdefine
    exact .returns (.bound hk rfl hname rfl hnew)
  | error fault u =>
    obtain ⟨rfl, hold, rfl⟩ := Eval.of_define_eq_error hdefine
    exact .raises (.bindTwice hk hname hvalue hold)

variable (hk : Keyword.ofTerm? head = some .choose)
include hk

theorem startsPart_test :
    StartsPart alive ⟨n + 1, held, scope, .list [head, test, yes, no], s⟩ ⟨[], s⟩ 1
      ⟨n, held.enter scope, scope, test, s⟩ where
  starts := .test hk
  position := by simp [Term.position?, hk]
  part := rfl
  scope := (inner_of_not_opens (opens_form hk (by decide) _)).symm
  held := by simp [Term.kept, hk, Held.keepAll]
  store := rfl

theorem startsPart_branch (yes no : Term) {c : Bool}
    (htest : evaluateWith alive n (held.enter scope) scope test s = .ok (.bool c) t) :
    StartsPart alive ⟨n + 1, held, scope, .list [head, test, yes, no], s⟩ ⟨[.bool c], t⟩
      (if c then 2 else 3) ⟨n, held.enter scope, scope, if c then yes else no, t⟩ where
  starts := .branch hk htest
  position := by simp [Term.position?, hk]
  part := by cases c <;> rfl
  scope := (inner_of_not_opens (opens_form hk (by decide) _)).symm
  held := by simp [Term.kept, hk, Held.keepAll]
  store := rfl

theorem reaches_test
    (htest : evaluateWith alive n (held.enter scope) scope test s = .ok value t) :
    Reaches alive ⟨n + 1, held, scope, .list [head, test, yes, no], s⟩ ⟨[value], t⟩ :=
  (reaches_begin (opens_form hk (by decide) _)).tail (.intro (startsPart_test hk) htest)

theorem stops_branch {c : Bool} {u : Store}
    (htest : evaluateWith alive n (held.enter scope) scope test s = .ok (.bool c) t)
    (hbranch : evaluateWith alive n (held.enter scope) scope (if c then yes else no) t =
      .ok value u) :
    Stops alive ⟨n + 1, held, scope, .list [head, test, yes, no], s⟩ ⟨[.bool c, value], u⟩
      (run alive ⟨n + 1, held, scope, .list [head, test, yes, no], s⟩) := by
  have hrun : run alive ⟨n + 1, held, scope, .list [head, test, yes, no], s⟩ = .ok value u := by
    rw [run, evaluateWith_form hk]
    refine (Eval.bind_of_ok htest).trans ?_
    cases c <;> exact hbranch
  rw [hrun]
  have hvalues : [.bool c, value] = [.bool c] ++ [value] := rfl
  refine .returns (.last hvalues (j := if c then 2 else 3) ?_ ?_)
  · simp [Term.position?, hk]
  · cases c <;> simp [Term.answers, hk]

theorem stops_test
    (htest : evaluateWith alive n (held.enter scope) scope test s = .ok value t) : ∃ q,
    ReflTransGen (Goes alive ⟨n + 1, held, scope, .list [head, test, yes, no], s⟩) ⟨[value], t⟩ q ∧
    Stops alive ⟨n + 1, held, scope, .list [head, test, yes, no], s⟩ q
      (run alive ⟨n + 1, held, scope, .list [head, test, yes, no], s⟩) := by
  by_cases hbool : value.isBool = true
  · obtain ⟨c, rfl⟩ : ∃ c, value = .bool c := by cases value <;> simp_all [Term.isBool]
    have hstart := startsPart_branch hk yes no htest
    cases hv : evaluateWith alive n (held.enter scope) scope (if c then yes else no) t with
    | error fault u =>
      rw [hstart.starts.run_eq_error hv]
      exact ⟨_, .refl, .fault hstart hv⟩
    | ok v u => exact ⟨_, .single (.intro hstart hv), stops_branch hk htest hv⟩
  · have hrun : run alive ⟨n + 1, held, scope, .list [head, test, yes, no], s⟩ =
        .error (.error .chooseTest) t := by
      rw [run, evaluateWith_form hk]
      refine (Eval.bind_of_ok htest).trans ?_
      cases value <;> first | rfl | exact absurd rfl hbool
    rw [hrun]
    exact ⟨_, .refl, .raises (.chooseTest hk htest (by simpa using hbool))⟩

end Form

/-! ## Every evaluation -/

/-- **Every evaluation that is started is one of a part or of a body**, at a point that the whole
evaluation reaches; and once a part has a value, the whole goes on from there to its end. -/
theorem Starts.progress (h : a.Starts alive b) :
    (∃ p j, a.Reaches alive p ∧ a.StartsPart alive p j b ∧ ∀ v t, b.run alive = .ok v t →
      ∃ q, ReflTransGen (a.Goes alive) (p.give v t) q ∧ a.Stops alive q (a.run alive)) ∨
    ∃ p fn, a.Reaches alive p ∧ a.StartsBody alive p fn b := by
  cases h with
  | @head n held scope head args s hk =>
    refine .inl ⟨_, _, reaches_begin (opens_call hk _), startsPart_head hk args, ?_⟩
    intro fn t hhead
    by_cases hfn : fn.isFunction = true
    · have hnil : evaluateArgs (evaluateWith alive n) ((held.enter scope).keep fn) scope [] t =
          .ok [] t := rfl
      exact stops_args hk hhead hfn hnil args
    · have hrun : run alive ⟨n + 1, held, scope, .list (head :: args), s⟩ =
          .error (.error .notFunction) t := by
        rw [run, evaluateWith_call hk, evaluateCall, Eval.bind_of_ok hhead, if_neg hfn]
        rfl
      rw [hrun]
      exact ⟨_, .refl, .raises (.notFunction hk hhead (by simpa using hfn))⟩
  | @arg n held scope head fn e before after values s t u hk hhead hfn hbefore =>
    refine .inl ⟨_, _, reaches_args hk hhead hfn hbefore _,
      startsPart_arg hk hhead hfn hbefore e after, fun v w hv => ?_⟩
    have hrest := stops_args hk hhead hfn (evaluateArgs_concat hbefore hv) after
    rwa [List.append_assoc] at hrest
  | body hk hhead hargs hcount henters =>
    have hreaches := reaches_args hk hhead henters.isFunction hargs []
    rw [List.append_nil] at hreaches
    exact .inr ⟨_, _, hreaches, .intro (.intro hk hhead hargs hcount henters) rfl hcount henters⟩
  | @first n held scope head e after s hk =>
    have hbegin : Reaches alive ⟨n + 1, held, scope, .list (head :: e :: after), s⟩
        ⟨[], s.push { outer := some scope }⟩ := by
      rw [Reaches, opened_of_opens (opens_block hk _ _)]
    refine .inl ⟨_, _, hbegin, startsPart_first hk e after, fun v t hv => ?_⟩
    have hfirst : evaluateBlock (evaluateWith alive n) (held.enter scope) s.size none e []
        (s.push { outer := some scope }) = .ok v t := hv
    exact stops_block hk hfirst rfl after
  | @part n held scope head first e value before after s t hk hbefore =>
    obtain ⟨values, hlength, hreaches⟩ := reaches_block hk hbefore (e :: after)
    refine .inl ⟨_, _, hreaches, startsPart_part hk hbefore hlength e after, fun v u hv => ?_⟩
    have hlength' : (values ++ [value]).length = (before ++ [e]).length := by simp [hlength]
    have hrest := stops_block hk (evaluateBlock_concat hbefore hv) hlength' after
    rwa [List.append_assoc] at hrest
  | value hk hname =>
    exact .inl ⟨_, _, reaches_begin (opens_form hk (by decide) _), startsPart_value hk hname,
      fun v t hv => ⟨_, .refl, stops_value hk hname hv⟩⟩
  | test hk =>
    exact .inl ⟨_, _, reaches_begin (opens_form hk (by decide) _), startsPart_test hk,
      fun v t hv => stops_test hk hv⟩
  | branch hk htest =>
    exact .inl ⟨_, _, reaches_test hk htest, startsPart_branch hk _ _ htest, fun v t hv =>
      ⟨_, .refl, stops_branch hk htest hv⟩⟩

theorem Starts.exists_stops (h : a.Starts alive b) :
    ∃ q, a.Reaches alive q ∧ a.Stops alive q (a.run alive) := by
  rcases h.progress with ⟨p, j, hreaches, hstart, hgoes⟩ | ⟨p, fn, hreaches, hstart⟩
  · cases hrun : b.run alive with
    | error fault t =>
      rw [h.run_eq_error hrun]
      exact ⟨p, hreaches, .fault hstart hrun⟩
    | ok v t =>
      obtain ⟨q, hq, hstops⟩ := hgoes v t hrun
      exact ⟨q, (hreaches.tail (.intro hstart hrun)).trans hq, hstops⟩
  · have hend : a.Stops alive p (b.run alive) := .body hstart
    obtain ⟨hcalls, -, -, -⟩ := hstart
    exact ⟨p, hreaches, hcalls.run_eq ▸ hend⟩

section Form

variable {n : Nat} {held : Held} {scope : ScopeId} {head : Term} {s : Store}

theorem stops_define (hk : Keyword.ofTerm? head = some .define) (target list body : Term) :
    Stops alive ⟨n + 1, held, scope, .list [head, target, list, body], s⟩ ⟨[], s⟩
      (run alive ⟨n + 1, held, scope, .list [head, target, list, body], s⟩) := by
  rw [run, evaluateWith_form hk]
  cases hname : target.symbol? with
  | none =>
    simp only [evaluateForm, hname]
    exact .raises (.defineTarget hk hname)
  | some name =>
    cases hparams : paramNames list with
    | error e =>
      simp only [evaluateForm, hname, hparams]
      exact .raises (.defineParams hk hparams)
    | ok params =>
      rw [evaluateForm_define hname hparams]
      cases hdefine : Eval.define scope name (.named name params body scope) s with
      | ok v u =>
        obtain ⟨hnew, rfl, rfl⟩ := Eval.of_define_eq_ok hdefine
        exact .returns (.defined hk rfl hname hparams rfl hnew)
      | error fault u =>
        obtain ⟨rfl, hold, rfl⟩ := Eval.of_define_eq_error hdefine
        exact .raises (.defineTwice hk hname hold)

theorem stops_lambda (hk : Keyword.ofTerm? head = some .lambda) (list body : Term) :
    Stops alive ⟨n + 1, held, scope, .list [head, list, body], s⟩ ⟨[], s⟩
      (run alive ⟨n + 1, held, scope, .list [head, list, body], s⟩) := by
  rw [run, evaluateWith_form hk]
  cases hparams : paramNames list with
  | error e =>
    simp only [evaluateForm, hparams]
    exact .raises (.lambdaParams hk hparams)
  | ok params =>
    rw [evaluateForm_lambda hparams]
    exact .returns (.made hk rfl hparams rfl)

theorem exists_stops_form {keyword : Keyword} (hk : Keyword.ofTerm? head = some keyword)
    (parts : List Term) : ∃ q,
    Reaches alive ⟨n + 1, held, scope, .list (head :: parts), s⟩ q ∧
    Stops alive ⟨n + 1, held, scope, .list (head :: parts), s⟩ q
      (run alive ⟨n + 1, held, scope, .list (head :: parts), s⟩) := by
  match keyword, parts with
  | .block, first :: rest => exact (Starts.first hk).exists_stops
  | .bind, [target, e] =>
    cases hname : target.symbol? with
    | none =>
      refine ⟨_, reaches_begin (opens_form hk (by decide) _), ?_⟩
      rw [run, evaluateWith_form hk]
      simp only [evaluateForm, hname]
      exact .raises (.bindTarget hk hname)
    | some name => exact (Starts.value hk hname).exists_stops
  | .choose, [test, yes, no] => exact (Starts.test hk).exists_stops
  | .define, [target, list, body] =>
    exact ⟨_, reaches_begin (opens_form hk (by decide) _), stops_define hk target list body⟩
  | .lambda, [list, body] =>
    exact ⟨_, reaches_begin (opens_form hk (by decide) _), stops_lambda hk list body⟩
  | .block, [] | .bind, [] | .bind, [_] | .bind, _ :: _ :: _ :: _ | .choose, [] | .choose, [_]
  | .choose, [_, _] | .choose, _ :: _ :: _ :: _ :: _ | .define, [] | .define, [_] | .define, [_, _]
  | .define, _ :: _ :: _ :: _ :: _ | .lambda, [] | .lambda, [_] | .lambda, _ :: _ :: _ :: _ =>
    refine ⟨_, reaches_begin (by simp [opens, hk]), ?_⟩
    rw [run, evaluateWith_form hk]
    exact .raises (.shape hk (by simp [Keyword.takes]))

end Form

/-- **Every evaluation comes to where it ends.** -/
theorem exists_stops (alive : Liveness) (a : Activation) :
    ∃ q, a.Reaches alive q ∧ a.Stops alive q (a.run alive) := by
  obtain ⟨limit, held, scope, e, s⟩ := a
  cases limit with
  | zero => exact ⟨_, reaches_begin rfl, .raises .exhausted⟩
  | succ n =>
    match e with
    | .bool c => exact ⟨_, reaches_begin rfl, .returns (.atom (.inl ⟨c, rfl⟩) rfl)⟩
    | .int k => exact ⟨_, reaches_begin rfl, .returns (.atom (.inr ⟨k, rfl⟩) rfl)⟩
    | .symbol name =>
      refine ⟨_, reaches_begin rfl, ?_⟩
      change Stops alive _ _ (Eval.lookup scope name s)
      cases hl : Eval.lookup scope name s with
      | ok v t =>
        obtain ⟨hv, rfl⟩ := Eval.of_lookup_eq_ok hl
        exact .returns (.found rfl rfl hv)
      | error fault t =>
        obtain ⟨rfl, habsent, rfl⟩ := Eval.of_lookup_eq_error hl
        exact .raises (.unbound habsent)
    | .list [] => exact ⟨_, reaches_begin rfl, .raises .emptyList⟩
    | .list (head :: parts) =>
      cases hk : Keyword.ofTerm? head with
      | some keyword => exact exists_stops_form hk parts
      | none => exact (Starts.head hk).exists_stops
    | .builtin _ | .closure .. | .named .. =>
      exact ⟨_, reaches_begin rfl, .raises (.unsupported (.inl rfl))⟩
    | .absent => exact ⟨_, reaches_begin rfl, .raises (.unsupported (.inr (.inl rfl)))⟩
    | .text text =>
      exact ⟨_, reaches_begin rfl, .raises (.unsupported (.inr (.inr ⟨text, rfl⟩)))⟩

theorem Asks.reaches {m : Moment} {o : ScopeId} (h : a.Asks alive m o) :
    ∃ name params body values, a.Reaches alive ⟨.named name params body o :: values, m.store⟩ ∧
      m.held = ((a.held.enter a.scope).keep (.named name params body o)).keepAll values := by
  obtain ⟨hk, hhead, hargs⟩ := h
  have hreaches := reaches_args hk hhead rfl hargs []
  rw [List.append_nil] at hreaches
  exact ⟨_, _, _, _, hreaches, rfl⟩

/-! ## Origins of faults -/

/-- **What one evaluation does with a fault**: it raises it, or passes on that of an evaluation that
it has started, in the same store. -/
theorem raises_or_starts (h : a.run alive = .error fault t) :
    a.Raises alive fault ∨ ∃ b, a.Starts alive b ∧ b.run alive = .error fault t := by
  obtain ⟨q, -, hstops⟩ := a.exists_stops alive
  generalize a.run alive = r at h hstops
  cases hstops with
  | fault hstart hrun =>
    cases h
    exact .inr ⟨_, hstart.starts, hrun⟩
  | body hstart =>
    obtain ⟨hcalls, -, -, -⟩ := hstart
    exact .inr ⟨_, hcalls.starts, h⟩
  | raises hraises =>
    cases h
    exact .inl hraises
  | returns => cases h

/-- **Every fault of a run is raised by an evaluation that occurs in it**, and leaves the store as
it was there. -/
theorem exists_raises (h : a.run alive = .error fault t) :
    ∃ b, a.Occurs alive b ∧ b.Raises alive fault ∧ b.run alive = .error fault t := by
  -- on the limit: an evaluation that is started has one level less
  induction hn : a.limit generalizing a with
  | zero =>
    rcases raises_or_starts h with hraises | ⟨b, hstart, -⟩
    · exact ⟨a, .refl, hraises, h⟩
    · have := hstart.limit_eq
      omega
  | succ n ih =>
    rcases raises_or_starts h with hraises | ⟨b, hstart, hb⟩
    · exact ⟨a, .refl, hraises, h⟩
    · have := hstart.limit_eq
      obtain ⟨c, hoccurs, hraises, hc⟩ := ih hb (by omega)
      exact ⟨c, .head hstart hoccurs, hraises, hc⟩

end Activation

end ScopedLisp
