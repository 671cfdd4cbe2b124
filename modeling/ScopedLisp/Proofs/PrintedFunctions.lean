import ScopedLisp.Proofs.Values

/-!
# Printed functions

A function of a program is printed as the form that makes it, so what a session shows of a function
can be typed in again.

* `Term.lambdaForm`, `Term.defineForm`: the forms that make closures and named functions;
* `Term.render_lambdaForm`, `Term.render_defineForm`: functions are printed as these forms;
* `evaluateWith_lambdaForm`, `evaluateWith_defineForm`: what the forms make;
* `Session.Gives`: the values that a session returns or binds;
* **`Session.Initial.parse_render_function`**: functions that a session gives are read back.
-/

namespace ScopedLisp

namespace Term

/-- The form that makes a closure. -/
def lambdaForm (params : List Symbol) (body : Term) : Term :=
  .list [Keyword.lambda.term, .list (params.map .symbol), body]

/-- The form that defines a named function. -/
def defineForm (name : Symbol) (params : List Symbol) (body : Term) : Term :=
  .list [Keyword.define.term, .symbol name, .list (params.map .symbol), body]

theorem render_params (params : List Symbol) :
    (list (params.map .symbol)).render = renderParams params := by
  rw [render, renderAll_eq_map, List.map_map]
  rfl

theorem render_lambdaForm (params : List Symbol) (body : Term) (scope : ScopeId) :
    (lambdaForm params body).render = (closure params body scope).render := by
  rw [lambdaForm, render, renderAll_eq_map, List.map_cons, List.map_cons, render_params]
  rfl

theorem render_defineForm (name : Symbol) (params : List Symbol) (body : Term) (scope : ScopeId) :
    (defineForm name params body).render = (named name params body scope).render := by
  rw [defineForm, render, renderAll_eq_map, List.map_cons, List.map_cons, List.map_cons,
    render_params]
  rfl

/-! ## Forms of functions are read -/

theorem readable_keyword (k : Keyword) : k.term.Readable := by
  cases k <;> exact .symbol rfl

theorem readable_form (k : Keyword) {parts : List Term} (h : ∀ e ∈ parts, e.Readable) :
    (list (k.term :: parts)).Readable :=
  readable_list_iff.2 (List.forall_mem_cons.2 ⟨readable_keyword k, h⟩)

theorem readable_params {params : List Symbol}
    (h : ∀ p ∈ params, ∃ source, parse source = .ok (.symbol p)) :
    (list (params.map .symbol)).Readable :=
  readable_list_iff.2 (List.forall_mem_map.2 fun p hp => readable_iff_exists_parse.2 (h p hp))

theorem IsResult.parse_render_closure {params : List Symbol} {body : Term} {scope : ScopeId}
    (h : (Term.closure params body scope).IsResult) :
    parse (Term.closure params body scope).render = .ok (lambdaForm params body) := by
  obtain ⟨⟩ | ⟨⟩ | ⟨⟩ | ⟨-, hparams, hbody⟩ := h
  have hform : (lambdaForm params body).Readable := by
    refine readable_form .lambda ?_
    simp only [List.forall_mem_cons, List.not_mem_nil, false_implies, implies_true, and_true]
    exact ⟨readable_params hparams, readable_iff_exists_parse.2 hbody⟩
  rw [← render_lambdaForm, parse_render hform]

theorem IsResult.parse_render_named {name : Symbol} {params : List Symbol} {body : Term}
    {scope : ScopeId} (h : (Term.named name params body scope).IsResult) :
    parse (Term.named name params body scope).render = .ok (defineForm name params body) := by
  obtain ⟨⟩ | ⟨⟩ | ⟨⟩ | ⟨⟩ | ⟨-, hname, hparams, hbody⟩ := h
  have hform : (defineForm name params body).Readable := by
    refine readable_form .define ?_
    simp only [List.forall_mem_cons, List.not_mem_nil, false_implies, implies_true, and_true]
    exact ⟨readable_iff_exists_parse.2 hname, readable_params hparams,
      readable_iff_exists_parse.2 hbody⟩
  rw [← render_defineForm, parse_render hform]

end Term

/-! ## What the forms make -/

theorem paramNames_map_symbol (names : List Symbol) :
    paramNames (.list (names.map .symbol)) = .ok names := by
  have hnames : (names.map Term.symbol).mapM Term.symbol? = some names := by
    induction names with
    | nil => rfl
    | cons name names ih => simp [ih, Term.symbol?]
  rw [paramNames, hnames]

section Making

variable (alive : Liveness) (limit : Nat) (held : Held) (scope : ScopeId) (params : List Symbol)
  (body : Term)

theorem evaluateWith_lambdaForm (s : Store) :
    evaluateWith alive (limit + 1) held scope (Term.lambdaForm params body) s =
      .ok (.closure params body scope) s := by
  rw [Term.lambdaForm, evaluateWith_form (Keyword.ofTerm?_term .lambda),
    evaluateForm_lambda (paramNames_map_symbol params)]
  rfl

theorem evaluateWith_defineForm {name : Symbol} {s : Store}
    (h : (s.frame scope).binds name = false) :
    evaluateWith alive (limit + 1) held scope (Term.defineForm name params body) s =
      .ok (.named name params body scope) (s.bind scope name (.named name params body scope)) := by
  rw [Term.defineForm, evaluateWith_form (Keyword.ofTerm?_term .define),
    evaluateForm_define rfl (paramNames_map_symbol params), Eval.define, h]
  rfl

end Making

namespace Session

variable {session : Session} {limit : Nat} {sources : List String} {v : Term}

/-- A value that a session comes to. -/
inductive Gives (session : Session) (limit : Nat) (sources : List String) (v : Term) : Prop
  /-- A program has the value. -/
  | returned (h : .ok v ∈ (session.run limit sources).1)
  /-- Some evaluation gives the value. -/
  | evaluated {a : Activation} {t : Store} (ha : session.Evaluates limit sources a)
      (h : a.run Held.keepsAlive = .ok v t)
  /-- A name is bound to the value at some moment, in any scope. -/
  | bound {m : Moment} {i : ScopeId} {name : Symbol} (hm : session.Passes limit sources m)
      (h : (name, v) ∈ (m.store.frame i).bindings)

theorem exists_evaluates_of_mem_run (h : .ok v ∈ (session.run limit sources).1) :
    ∃ a t, session.Evaluates limit sources a ∧ a.run Held.keepsAlive = .ok v t := by
  obtain ⟨n, hn⟩ := List.mem_iff_getElem?.1 h
  rw [getElem?_run] at hn
  obtain ⟨source, hsource, heval⟩ := Option.map_eq_some_iff.1 hn
  obtain ⟨e, t, hparse, hrun, -⟩ := exists_of_eval_ok heval
  exact ⟨_, t, ⟨n, source, e, hsource, hparse, .refl⟩, hrun⟩

theorem Gives.isResult (h : session.Gives limit sources v) (hs : session.Initial) : v.IsResult := by
  obtain ⟨hmoments, hevaluations⟩ := hs.isResult limit sources
  cases h with
  | returned h =>
    obtain ⟨a, t, ha, hrun⟩ := exists_evaluates_of_mem_run h
    exact (hevaluations a ha).2 v t hrun
  | evaluated ha h => exact (hevaluations _ ha).2 v _ h
  | bound hm h => exact hmoments _ hm _ _ h

/-- **Printed functions are read back as the forms that make them.** Evaluating the form makes a
function that is printed alike in any scope, which for a named function must not bind the name
itself. -/
theorem Initial.parse_render_function (hs : session.Initial) (h : session.Gives limit sources v) :
    (∀ params body o, v = .closure params body o →
      Term.parse v.render = .ok (Term.lambdaForm params body) ∧
      ∀ levels held scope s,
        ScopedLisp.evaluate (levels + 1) held scope (Term.lambdaForm params body) s =
          .ok (.closure params body scope) s ∧
        (Term.closure params body scope).render = v.render) ∧
    ∀ name params body o, v = .named name params body o →
      Term.parse v.render = .ok (Term.defineForm name params body) ∧
      ∀ levels held scope s, (s.frame scope).binds name = false →
        ScopedLisp.evaluate (levels + 1) held scope (Term.defineForm name params body) s =
          .ok (.named name params body scope)
            (s.bind scope name (.named name params body scope)) ∧
        (Term.named name params body scope).render = v.render := by
  have hv := h.isResult hs
  constructor
  · rintro params body o rfl
    refine ⟨hv.parse_render_closure, fun levels held scope s => ⟨?_, ?_⟩⟩
    · exact evaluateWith_lambdaForm Held.keepsAlive levels held scope params body s
    · rw [← Term.render_lambdaForm, ← Term.render_lambdaForm]
  · rintro name params body o rfl
    refine ⟨hv.parse_render_named, fun levels held scope s hname => ⟨?_, ?_⟩⟩
    · exact evaluateWith_defineForm Held.keepsAlive levels held scope params body hname
    · rw [← Term.render_defineForm, ← Term.render_defineForm]

/-- A named function with a closure in its body, and a closure with a named function in its body. -/
theorem parse_render_function_nested :
    ∃ (sources : List String) (name : Symbol) (params params' : List Symbol) (body body' : Term)
      (o o' : ScopeId),
      sources = ["(defn twice (f) (fn (x) (f (f x))))", "(fn (n) (do (defn h (k) n) h))"] ∧
      start.Gives 9 sources (.named name params body o) ∧
      start.Gives 9 sources (.closure params' body' o') ∧
      Term.parse (Term.named name params body o).render = .ok (Term.defineForm name params body) ∧
      ScopedLisp.evaluate 1 {} 0 (Term.defineForm name params body) bare.store =
        .ok (.named name params body 0) (bare.store.bind 0 name (.named name params body 0)) ∧
      Term.parse (Term.closure params' body' o').render = .ok (Term.lambdaForm params' body') ∧
      ScopedLisp.evaluate 1 {} 0 (Term.lambdaForm params' body') bare.store =
        .ok (.closure params' body' 0) bare.store := by
  obtain ⟨sources, hsources⟩ : ∃ sources, sources =
    ["(defn twice (f) (fn (x) (f (f x))))", "(fn (n) (do (defn h (k) n) h))"] := ⟨_, rfl⟩
  have hkinds : ((start.run 9 sources).1.map fun
      | .ok (.named ..) => 1
      | .ok (.closure ..) => 2
      | .ok (.bool _) | .ok (.int _) | .ok (.symbol _) | .ok (.list _) | .ok (.builtin _)
      | .ok .absent | .ok (.text _) | .error _ => 0) = [1, 2] := by
    rw [hsources]
    decide +kernel
  have hone : 1 ∈ [1, 2] := by decide
  have htwo : 2 ∈ [1, 2] := by decide
  rw [← hkinds, List.mem_map] at hone htwo
  obtain ⟨r, hr, hkind⟩ := hone
  obtain ⟨r', hr', hkind'⟩ := htwo
  split at hkind <;> cases hkind
  split at hkind' <;> cases hkind'
  next name params body o _ params' body' o' =>
    obtain ⟨hparse, hmade⟩ := (start_initial.parse_render_function (.returned hr)).2 _ _ _ _ rfl
    obtain ⟨hparse', hmade'⟩ := (start_initial.parse_render_function (.returned hr')).1 _ _ _ rfl
    exact ⟨sources, name, params, params', body, body', o, o', hsources, .returned hr,
      .returned hr', hparse, (hmade 0 {} 0 bare.store rfl).1, hparse',
      (hmade' 0 {} 0 bare.store).1⟩

end Session

end ScopedLisp
