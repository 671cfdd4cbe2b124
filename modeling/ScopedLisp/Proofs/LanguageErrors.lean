import ScopedLisp.Proofs.OverlongNumerals
import ScopedLisp.Workspace

/-!
# Errors of the language

A session whose source texts have no overlong numerals fails in no other way than by errors of the
language or for lack of levels. The branches that are there for other terms, for other functions and
for names that are no symbols are never taken.

* `Activation.Raises.kind_mem`: the kinds of errors that evaluation raises;
* `Fallbacks`, `evaluateOr`: evaluation with other branches in their place;
* `Activation.Proper.evaluateOr_eq`: evaluation does not come to them;
* **`Session.Sound.language_errors`**: how the steps of a session end.
-/

namespace ScopedLisp

/-! ## Kinds of errors -/

/-- The kinds of errors that come out of evaluation. -/
def ErrorKind.ofEvaluation : List ErrorKind :=
  [.unbound, .duplicate, .form, .type, .arity, .scope, .arithmetic]

theorem Term.Readable.not_unsupported {e : Term} (he : e.Readable) :
    ¬ (e.isFunction = true ∨ e = .absent ∨ ∃ text, e = .text text) := by
  cases he <;> simp [Term.isFunction]

theorem Activation.Raises.kind_mem {alive : Liveness} {a : Activation} {e : Error}
    (ha : a.Proper) (h : a.Raises alive (.error e)) : e.kind ∈ ErrorKind.ofEvaluation := by
  cases h with
  | unsupported he => exact absurd he ha.readable.not_unsupported
  | defineParams _ hparams | lambdaParams _ hparams =>
    have hsub : [ErrorKind.type] ⊆ ErrorKind.ofEvaluation := by decide
    exact hsub (failsIn_paramNames _ _ hparams)
  | refuses _ _ _ hfn =>
    have hsub : [.type, .arity, .scope, .arithmetic] ⊆ ErrorKind.ofEvaluation := by decide
    exact hsub hfn.kind_mem
  | _ => simp [Error.kind, ErrorKind.ofEvaluation]

/-! ## Branches that are never taken -/

/-- What is done with a term that no source text holds, in a call with something that is no
function, with a term that is to be bound and is no symbol, and about a frame whose names are not
all symbols. -/
structure Fallbacks where
  term : Term → Eval Term
  call : Term → List Term → Eval Term
  target : Term → Eval Term
  records : Error → Eval Frame

/-- The fallbacks of evaluation. -/
def Fallbacks.standard : Fallbacks where
  term _ := Eval.fail .unsupported
  call _ _ := Eval.fail .notFunction
  target name := Eval.fail (.notSymbol name)
  records := Eval.fail

section Definitions

variable (fallbacks : Fallbacks) (alive : Liveness)

/-- Binds a term, which has to be a symbol. -/
def defineOr (scope : ScopeId) (name value : Term) : Eval Term :=
  match name.symbol? with
  | some name => Eval.define scope name value
  | none => fallbacks.target name

/-- The frame with the given pairs; every name has to be a symbol. -/
def frameOr (records : List (Term × Term)) (outer : Option ScopeId) : Eval Frame :=
  match Frame.ofTerms records outer with
  | .ok f => pure f
  | .error e => fallbacks.records e

/-- Evaluates the body of a function, with other fallbacks. -/
def enterBodyOr (ev : Evaluator) (held : Held) (params : List Symbol) (args : List Term)
    (body : Term) (scope : ScopeId) : Eval Term := do
  let f ← frameOr fallbacks ((params.map .symbol).zip args) (some scope)
  let inner ← Eval.newScope f
  ev held inner body

/-- Calls a function, with other fallbacks. -/
def applyOr (ev : Evaluator) (held : Held) (fn : Term) (args : List Term) : Eval Term :=
  match fn with
  | .builtin b => Eval.ofExcept (b.call args)
  | .closure params body scope => do
    checkCount params args
    enterBodyOr fallbacks ev held params args body scope
  | .named name params body scope => do
    checkCount params args
    if ← Eval.isAlive alive held scope then
      enterBodyOr fallbacks ev held params args body scope
    else Eval.fail (.scopeReclaimed name)
  | _ => fallbacks.call fn args

/-- Evaluates a call, with other fallbacks. -/
def evaluateCallOr (ev : Evaluator) (held : Held) (scope : ScopeId) (head : Term)
    (args : List Term) : Eval Term := do
  let fn ← ev held scope head
  if fn.isFunction then
    let values ← evaluateArgs ev (held.keep fn) scope args
    applyOr fallbacks alive ev ((held.keep fn).keepAll values) fn values
  else Eval.fail .notFunction

/-- Evaluates a form, with other fallbacks where a term is bound. -/
def evaluateFormOr (ev : Evaluator) (held : Held) (scope : ScopeId) :
    Keyword → List Term → Eval Term
  | .bind, [target, e] =>
    match target.symbol? with
    | some _ => do
      let value ← ev held scope e
      defineOr fallbacks scope target value
    | none => Eval.fail .bindTarget
  | .define, [target, params, body] =>
    match target.symbol? with
    | some name => do
      let params ← Eval.ofExcept (paramNames params)
      defineOr fallbacks scope target (.named name params body scope)
    | none => Eval.fail .defineTarget
  | keyword, parts => evaluateForm ev held scope keyword parts

/-- Evaluates a term in a scope, with other fallbacks. -/
def evaluateOr : (limit : Nat) → Evaluator
  | 0, _, _, _ => throw .exhausted
  | limit + 1, held, scope, e =>
    match e with
    | .bool _ | .int _ => pure e
    | .symbol name => Eval.lookup scope name
    | .list [] => Eval.fail .emptyList
    | .list (head :: rest) =>
      match Keyword.ofTerm? head with
      | some keyword =>
        evaluateFormOr fallbacks (evaluateOr limit) (held.enter scope) scope keyword rest
      | none => evaluateCallOr fallbacks alive (evaluateOr limit) (held.enter scope) scope head rest
    | e => fallbacks.term e

end Definitions

section Parts

variable {fallbacks : Fallbacks} {alive : Liveness} {ev : Evaluator} {held : Held}
  {scope : ScopeId}

theorem frameOr_params (params : List Symbol) (args : List Term) (outer : Option ScopeId) :
    frameOr fallbacks ((params.map .symbol).zip args) outer =
      pure (Frame.ofRecords (params.zip args) outer) := by
  have hzip : (params.map Term.symbol).zip args =
      (params.zip args).map fun record => (.symbol record.1, record.2) := by
    rw [List.zip_map_left]
    rfl
  have hfind : ((params.map Term.symbol).zip args).find? (fun record => record.1.symbol?.isNone) =
      none := by
    rw [hzip, List.find?_eq_none]
    intro record hrecord
    obtain ⟨r, -, rfl⟩ := List.mem_map.1 hrecord
    exact Bool.false_ne_true
  have hrecords : (((params.map Term.symbol).zip args).filterMap fun record =>
      record.1.symbol?.map (·, record.2)) = params.zip args := by
    rw [hzip, List.filterMap_map]
    exact List.filterMap_some
  rw [frameOr, Frame.ofTerms, hfind]
  exact congrArg (fun records => pure (Frame.ofRecords records outer)) hrecords

theorem enterBodyOr_eq (params : List Symbol) (args : List Term) (body : Term) :
    enterBodyOr fallbacks ev held params args body scope =
      enterBody ev held params args body scope := by
  rw [enterBodyOr, frameOr_params]
  rfl

theorem evaluateCallOr_eq (head : Term) (args : List Term) :
    evaluateCallOr fallbacks alive ev held scope head args =
      evaluateCall alive ev held scope head args := by
  funext s
  refine Eval.bind_congr rfl fun fn t _ => ?_
  split_ifs with hfn
  · refine Eval.bind_congr rfl fun values u _ => ?_
    cases fn with
    | builtin => rfl
    | closure | named => simp only [applyOr, applyWith, enterBodyOr_eq]
    | _ => cases hfn
  · rfl

theorem evaluateFormOr_eq (keyword : Keyword) (parts : List Term) :
    evaluateFormOr fallbacks ev held scope keyword parts =
      evaluateForm ev held scope keyword parts := by
  unfold evaluateFormOr
  split
  · next target e =>
    cases hname : target.symbol? with
    | none => simp only [evaluateForm, hname]
    | some name => simp only [evaluateForm, defineOr, hname]
  · next target params body =>
    cases hname : target.symbol? with
    | none => simp only [evaluateForm, hname]
    | some name => simp only [evaluateForm, defineOr, hname]
  · rfl

end Parts

variable {fallbacks : Fallbacks} {alive : Liveness}

theorem evaluateOr_standard (alive : Liveness) (limit : Nat) :
    evaluateOr .standard alive limit = evaluateWith alive limit := by
  induction limit with
  | zero => rfl
  | succ limit ih =>
    funext held scope e
    match e with
    | .list (head :: rest) =>
      unfold evaluateOr evaluateWith
      dsimp only
      cases Keyword.ofTerm? head with
      | some keyword => dsimp only; rw [ih, evaluateFormOr_eq]
      | none => dsimp only; rw [ih, evaluateCallOr_eq]
    | .list [] | .bool _ | .int _ | .symbol _ | .builtin _ | .closure .. | .named .. | .absent
    | .text _ => rfl

/-- **Evaluation does not come to the fallbacks**, so it does not matter what they are. -/
theorem Activation.Proper.evaluateOr_eq {a : Activation} (ha : a.Proper) :
    evaluateOr fallbacks alive a.limit a.held a.scope a.term a.store = a.run alive := by
  -- on the limit: the evaluations that are started have readable terms, too
  obtain ⟨limit, held, scope, e, s⟩ := a
  induction limit generalizing held scope e s with
  | zero => rfl
  | succ limit ih =>
    have hstarts : ∀ b values, Starts alive ⟨limit + 1, held, scope, e, s⟩ b →
        b.held = (held.enter scope).keepAll values →
        evaluateOr fallbacks alive limit ((held.enter scope).keepAll values) b.scope b.term
          b.store = b.run alive := by
      intro b values hb hheld
      obtain rfl : limit = b.limit := Nat.succ.inj hb.limit_eq
      rw [← hheld]
      exact ih b.held b.scope b.term b.store (hb.proper ha).1
    unfold run
    dsimp only
    match e with
    | .list (head :: parts) =>
      unfold evaluateOr
      dsimp only
      cases hk : Keyword.ofTerm? head with
      | some keyword =>
        rw [evaluateWith_form hk]
        dsimp only
        rw [evaluateFormOr_eq]
        exact evaluateForm_congr hk hstarts
      | none =>
        rw [evaluateWith_call hk]
        dsimp only
        rw [evaluateCallOr_eq]
        exact evaluateCall_congr hk hstarts fun m values o _ hheld => by rw [hheld]
    | .list [] | .bool _ | .int _ | .symbol _ => rfl
    | .builtin _ | .closure .. | .named .. =>
      exact absurd (.inl rfl) ha.readable.not_unsupported
    | .absent => exact absurd (.inr (.inl rfl)) ha.readable.not_unsupported
    | .text text => exact absurd (.inr (.inr ⟨text, rfl⟩)) ha.readable.not_unsupported

/-! ## Sessions -/

namespace Session

variable {session : Session} {limit : Nat}

theorem Sound.kind_of_eval (hs : session.Sound) {source : String} {fault : Fault}
    (hshort : Term.ShortNumerals (Token.scan source))
    (h : (session.eval limit source).1 = .error fault) :
    fault = .exhausted ∨
      ∃ e, fault = .error e ∧ e.kind ∈ .reading :: ErrorKind.ofEvaluation := by
  rcases exists_of_eval_error h with hparse | ⟨e, t, hparse, hrun⟩
  · rcases Term.parse_of_shortNumerals hshort with ⟨e, he⟩ | ⟨e, he, hkind⟩
    · rw [he] at hparse
      cases hparse
    · rw [he] at hparse
      cases hparse
      exact .inr ⟨e, rfl, hkind ▸ List.mem_cons_self⟩
  · obtain ⟨b, hoccurs, hraises, -⟩ := Activation.exists_raises hrun
    have hb := (hoccurs.proper (hs.activation_proper hparse limit)).1
    cases fault with
    | error e => exact .inr ⟨e, rfl, List.mem_cons_of_mem _ (hraises.kind_mem hb)⟩
    | word f => exact absurd rfl (hraises.ne_word f)
    | exhausted => exact .inl rfl

/-- **How the steps of a session end**, if no source text has an overlong numeral: with a value, for
lack of levels, or with an error of one of eight kinds. The fallbacks of evaluation, of calls and of
bindings are never reached: a session that does anything else there runs alike. -/
theorem Sound.language_errors (hs : session.Sound) (limit : Nat) {sources : List String}
    (hshort : ∀ source ∈ sources, Term.ShortNumerals (Token.scan source)) :
    (∀ n < sources.length, ∃ r, (session.run limit sources).1[n]? = some r ∧
      ((∃ v, r = .ok v) ∨ r = .error .exhausted ∨
        ∃ e, r = .error (.error e) ∧ e.kind ∈ [.reading, .unbound, .duplicate, .form, .type,
          .arity, .scope, .arithmetic])) ∧
    (∀ alive limit, evaluateOr .standard alive limit = ScopedLisp.evaluateWith alive limit) ∧
    ∀ fallbacks, session.runWith (evaluateOr fallbacks Held.keepsAlive limit) sources =
      session.run limit sources := by
  refine ⟨fun n hn => ?_, evaluateOr_standard,
    fun _ => Sound.runWith_eq (fun _ ha => ha.evaluateOr_eq) hs sources⟩
  rw [getElem?_run, List.getElem?_eq_getElem hn]
  refine ⟨_, rfl, ?_⟩
  dsimp only
  cases hr : ((session.run limit (sources.take n)).2.eval limit sources[n]).1 with
  | ok v => exact .inl ⟨v, rfl⟩
  | error fault =>
    rcases (hs.run limit _).kind_of_eval (hshort _ (List.getElem_mem hn)) hr with
      rfl | ⟨e, rfl, hkind⟩
    · exact .inr (.inl rfl)
    · exact .inr (.inr ⟨e, rfl, hkind⟩)

/-- A session that comes to all eight kinds, and to an exhausted step. -/
theorem language_errors_all :
    ∃ sources, sources = ["(add", "x", "(let a 1)", "(let a 2)", "()", "(add true 1)", "(add 1)",
        "((do (defn g () 1) g))", "(div 1 0)", "(defn f () (f))", "(f)"] ∧
      (∀ source ∈ sources, Term.ShortNumerals (Token.scan source)) ∧
      ((start.run 12 sources).1.map fun
        | .error (.error e) => some e.kind
        | _ => none) = [some .reading, some .unbound, none, some .duplicate, some .form,
          some .type, some .arity, some .scope, some .arithmetic, none, none] ∧
      start.runWith (evaluateOr ⟨pure, fun fn _ => pure fn, pure, fun _ => pure {}⟩ Held.keepsAlive
        12) sources = start.run 12 sources := by
  obtain ⟨sources, hsources⟩ : ∃ sources, sources = ["(add", "x", "(let a 1)", "(let a 2)", "()",
    "(add true 1)", "(add 1)", "((do (defn g () 1) g))", "(div 1 0)", "(defn f () (f))", "(f)"] :=
    ⟨_, rfl⟩
  have hshort : ∀ source ∈ sources, Term.ShortNumerals (Token.scan source) := by
    rw [hsources]
    decide +kernel
  refine ⟨sources, hsources, hshort, ?_, (start_fresh.toSound.language_errors 12 hshort).2.2 _⟩
  rw [hsources]
  decide +kernel

end Session

end ScopedLisp
