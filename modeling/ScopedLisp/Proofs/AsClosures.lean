import ScopedLisp.Proofs.Simulation

/-!
# Named functions as closures

A named function and a closure differ only in whether they keep their scope. So a program in which
every definition of a named function binds a closure instead gives the same results, as long as no
named function has lost its scope.

* `Term.asClosures`: the program with closures in the place of named functions;
* `Simulation.closures`, `Simulation.closures_lawful`: it is followed step by step, with one more
  level of nesting, because the closure is evaluated inside of its binding;
* `Outcome.Corresponds`: the outcomes that correspond;
* **`Session.evaluateAll_asClosures`**: the outcomes of a session correspond to those of the session
  with closures, and both bind the same names.
-/

namespace ScopedLisp

/-! ## The translation -/

namespace Term

/-- The name and the parameters of a well-formed definition: the name is a symbol, and so are the
parameters. -/
def definition? : List Term → Option (Term × Term)
  | [head, target, params, _] =>
    if Keyword.ofTerm? head = some .define ∧ target.symbol?.isSome ∧ (paramNames params).isOk then
      some (target, params)
    else none
  | _ => none

mutual

/-- The term in which every well-formed definition binds its name to a closure. -/
def asClosures : Term → Term
  | list items =>
    match definition? items, asClosuresOfAll items with
    | some (target, params), [_, _, _, body] =>
      list [Keyword.bind.term, target, list [Keyword.lambda.term, params, body]]
    | _, parts => list parts
  | t => t

/-- The terms of a list, with closures in the place of named functions. -/
def asClosuresOfAll : List Term → List Term
  | [] => []
  | t :: ts => t.asClosures :: asClosuresOfAll ts

end

theorem asClosuresOfAll_eq_map (ts : List Term) : asClosuresOfAll ts = ts.map asClosures := by
  induction ts with
  | nil => rfl
  | cons t ts ih => rw [asClosuresOfAll, ih, List.map_cons]

theorem asClosures_of_definition {head target params body : Term}
    (h : definition? [head, target, params, body] = some (target, params)) :
    (list [head, target, params, body]).asClosures =
      list [Keyword.bind.term, target, list [Keyword.lambda.term, params, body.asClosures]] := by
  simp only [asClosures, h, asClosuresOfAll]

theorem asClosures_of_no_definition {items : List Term} (h : definition? items = none) :
    (list items).asClosures = list (items.map asClosures) := by
  simp only [asClosures, h, asClosuresOfAll_eq_map]

theorem definition?_eq_some {items : List Term} {d : Term × Term} (h : definition? items = some d) :
    ∃ head body name names, items = [head, d.1, d.2, body] ∧ Keyword.ofTerm? head = some .define ∧
      d.1.symbol? = some name ∧ paramNames d.2 = .ok names := by
  unfold definition? at h
  split at h
  · next head target params body =>
    split_ifs at h with hwf
    cases h
    obtain ⟨hk, hname, hparams⟩ := hwf
    obtain ⟨name, hname⟩ := Option.isSome_iff_exists.1 hname
    cases hp : paramNames params with
    | error e => rw [hp] at hparams; cases hparams
    | ok names => exact ⟨head, body, name, names, rfl, hk, hname, rfl⟩
  · cases h

theorem exists_asClosures_list (items : List Term) :
    ∃ parts, (list items).asClosures = list parts := by
  rw [asClosures]
  split <;> exact ⟨_, rfl⟩

theorem symbol?_asClosures (t : Term) : t.asClosures.symbol? = t.symbol? := by
  cases t with
  | list items =>
    obtain ⟨parts, hparts⟩ := exists_asClosures_list items
    rw [hparts]
    rfl
  | _ => rfl

theorem symbol?_eq_none_of_paramNames {t : Term} {names : List Symbol}
    (h : paramNames t = .ok names) : t.symbol? = none := by
  cases t with
  | list items => rfl
  | _ => cases h

theorem paramNames_eq_paramName {items : List Term} {t : Term} (ht : t ∈ items)
    (hs : t.symbol? = none) : paramNames (list items) = .error .paramName := by
  have hnone : items.mapM symbol? = none := by
    induction items with
    | nil => cases ht
    | cons u us ih =>
      rw [List.mapM_cons]
      rcases List.mem_cons.1 ht with rfl | ht
      · rw [hs]
        rfl
      · rw [ih ht]
        cases u.symbol? <;> rfl
  rw [paramNames, hnone]

/-- The parameters that a list of terms gives are not changed: a definition inside it has a list of
its own, so it gives none before and after. -/
theorem paramNames_asClosures (t : Term) : paramNames t.asClosures = paramNames t := by
  cases t with
  | list items =>
    cases hd : definition? items with
    | none =>
      have hmap : (items.map asClosures).mapM symbol? = items.mapM symbol? := by
        rw [List.mapM_map]
        exact congrArg (List.mapM · items) (funext symbol?_asClosures)
      rw [asClosures_of_no_definition hd, paramNames, paramNames, hmap]
    | some d =>
      obtain ⟨head, body, name, names, hitems, -, -, hparams⟩ := definition?_eq_some hd
      subst hitems
      have hbefore : paramNames (list [head, d.1, d.2, body]) = .error .paramName :=
        paramNames_eq_paramName (t := d.2) (by simp) (symbol?_eq_none_of_paramNames hparams)
      rw [asClosures_of_definition hd, hbefore]
      exact paramNames_eq_paramName (List.mem_of_getLast? rfl) rfl
  | _ => rfl

end Term

/-! ## Stores with closures -/

/-- Scopes stay as they are, and closures stand for named functions. -/
def Translation.closures : Translation where
  scope := id
  term := Term.asClosures
  asClosures := true

/-- The same scopes with closures in the place of named functions. What they retain may differ. -/
structure Store.WithClosures (s s' : Store) : Prop where
  size_eq : s'.size = s.size
  outer_eq : ∀ i, (s'.frame i).outer = (s.frame i).outer
  bindings_eq : ∀ i, (s'.frame i).bindings = Translation.closures.bindings (s.frame i).bindings

namespace Store.WithClosures

variable {s s' : Store} (h : s.WithClosures s')
include h

theorem get?_eq (i : ScopeId) (name : Symbol) :
    (s'.frame i).get? name = ((s.frame i).get? name).map Translation.closures.value := by
  rw [Frame.get?, h.bindings_eq, Translation.lookup_bindings]
  rfl

theorem binds_eq (i : ScopeId) (name : Symbol) :
    (s'.frame i).binds name = (s.frame i).binds name := by
  rw [Frame.binds, h.get?_eq, Option.isSome_map]
  rfl

theorem chain_eq (i : ScopeId) : s'.chain i = s.chain i := by
  have hfrom : ∀ steps i, s'.chainFrom steps i = s.chainFrom steps i := by
    intro steps
    induction steps with
    | zero => exact fun _ => rfl
    | succ steps ih =>
      intro i
      rw [chainFrom, chainFrom, h.outer_eq]
      cases (s.frame i).outer with
      | none => rfl
      | some o => exact congrArg (i :: ·) (ih o)
  rw [chain, chain, h.size_eq, hfrom]

theorem lookup_eq (i : ScopeId) (name : Symbol) :
    s'.lookup i name = (s.lookup i name).map Translation.closures.value := by
  have hfind : s'.find? i name = s.find? i name := by
    rw [find?, find?, h.chain_eq]
    exact congrArg (List.find? · _) (funext fun j => h.binds_eq j name)
  rw [lookup, lookup, hfind]
  cases s.find? i name with
  | none => rfl
  | some j => exact h.get?_eq j name

theorem push {records : List (Symbol × Term)} {o : ScopeId} :
    (s.push (Frame.ofRecords records (some o))).WithClosures
      (s'.push (Frame.ofRecords (Translation.closures.bindings records) (some o))) := by
  refine ⟨by rw [size_push, size_push, h.size_eq], fun i => ?_, fun i => ?_⟩
  · rw [frame_push, frame_push, h.size_eq]
    split_ifs
    · rfl
    · exact h.outer_eq i
  · rw [frame_push, frame_push, h.size_eq]
    split_ifs
    · exact Translation.bindings_ofRecords records _ _
    · exact h.bindings_eq i

theorem bind {scope : Nat} (hscope : scope < s.size) (name : Symbol) (v : Term) :
    (s.bind scope name v).WithClosures
      (s'.bind scope name (Translation.closures.value v)) := by
  refine ⟨by rw [size_bind, size_bind, h.size_eq], fun i => ?_, fun i => ?_⟩
  · rw [outer_bind, outer_bind, h.outer_eq]
  · rw [bindings_bind (by rwa [h.size_eq]), bindings_bind hscope, h.bindings_eq,
      Translation.bindings, Translation.bindings, List.map_append]
    split_ifs <;> rfl

end Store.WithClosures

/-! ## The simulation -/

/-- Whether an outcome is neither a lost scope nor an exhausted evaluation. -/
def Outcome.settled : Except Fault Term → Bool
  | .error .exhausted => false
  | .error (.error e) => e.kind != .scope
  | _ => true

/-- Evaluation with closures in the place of named functions. Nothing is said after a named function
has lost its scope. -/
def Simulation.closures : Simulation where
  toTranslation := .closures
  extra := 1
  Stores := Store.WithClosures
  Helds := fun _ _ => True
  Waived := fun fault => Outcome.settled (.error fault) = false
  Names := fun _ => True

namespace Simulation

theorem closures_lookup {s s' : Store} {scope : Nat} (name : Symbol) (h : s.WithClosures s')
    (hs : s.Sound) :
    closures.Matches closures.value (Eval.lookup scope name) s (Eval.lookup scope name) s' := by
  refine matches_lookup h hs (fun v hv => ?_) fun hnone => .inr ?_
  · rw [h.lookup_eq, hv]
    rfl
  · rw [h.lookup_eq, hnone]
    rfl

theorem closures_bind {s s' : Store} {scope : Nat} (name : Symbol) {v : Term}
    (h : s.WithClosures s') (hscope : scope < s.size) :
    closures.Matches closures.value (Eval.define scope name v) s
      (Eval.define scope name (closures.value v)) s' := by
  refine matches_define h (fun hb => .inr ?_) fun hb => ⟨?_, h.bind hscope name v⟩
  · rw [h.binds_eq, hb]
  · rw [h.binds_eq, hb]

theorem closures_define {limit : Nat} {held held' : Held} {scope : Nat} {head : Term}
    {parts : List Term} {s s' : Store} (hk : Keyword.ofTerm? head = some .define)
    (h : s.WithClosures s') (hscope : scope < s.size) :
    closures.Matches closures.value (evaluate (limit + 1) held scope (.list (head :: parts))) s
      (evaluate (limit + 2) held' scope (Term.asClosures (.list (head :: parts)))) s' := by
  have hst : closures.Stores s s' := h
  unfold evaluate
  rw [evaluateWith_form hk]
  cases hd : Term.definition? (head :: parts) with
  | some d =>
    obtain ⟨head', body, name, names, hitems, -, hname, hparams⟩ := Term.definition?_eq_some hd
    cases hitems
    rw [Term.asClosures_of_definition hd, evaluateWith_form (Keyword.ofTerm?_term .bind)]
    rw [evaluateForm_define hname hparams]
    have hright : evaluateForm (evaluateWith Held.keepsAlive (limit + 1)) (held'.enter scope) scope
        .bind [d.1, .list [Keyword.lambda.term, d.2, body.asClosures]] s' =
          Eval.define scope name (.closure names body.asClosures scope) s' := by
      simp only [evaluateForm, hname, evaluateWith_form (Keyword.ofTerm?_term .lambda), hparams]
      rfl
    exact Matches.congr (closures_bind name h hscope) rfl hright
  | none =>
    have hk' : Keyword.ofTerm? head.asClosures = some .define := by
      unfold Keyword.ofTerm?
      rw [Term.symbol?_asClosures]
      exact hk
    rw [Term.asClosures_of_no_definition hd, List.map_cons, evaluateWith_form hk']
    rcases parts with _ | ⟨target, _ | ⟨params, _ | ⟨body, _ | ⟨more, rest⟩⟩⟩⟩
    · exact matches_fail hst _
    · exact matches_fail hst _
    · exact matches_fail hst _
    · simp only [evaluateForm, List.map_cons, List.map_nil, Term.symbol?_asClosures,
        Term.paramNames_asClosures]
      cases hname : target.symbol? with
      | none => exact matches_fail hst _
      | some name =>
        -- the name is a symbol, so it is the parameters that are not well-formed
        cases hparams : paramNames params with
        | error e => exact matches_fail hst e
        | ok names =>
          rw [Term.definition?, if_pos ⟨hk, by rw [hname]; rfl, by rw [hparams]; rfl⟩] at hd
          cases hd
    · exact matches_fail hst _

theorem closures_lawful : closures.Lawful where
  exhausted := .inl rfl
  symbol? := Term.symbol?_asClosures
  paramNames := Term.paramNames_asClosures
  bool _ := rfl
  int _ := rfl
  list_nil := rfl
  list_cons head parts hk := by
    refine Term.asClosures_of_no_definition ?_
    unfold Term.definition?
    split
    · next h =>
      cases h
      rw [if_neg fun hwf => hk hwf.1]
    · rfl
  define hk _ h _ hscope _ := closures_define hk h hscope
  lookup _ h hs _ := closures_lookup _ h hs
  bind _ h _ hscope _ := closures_bind _ h hscope
  push h _ _ _ := ⟨h.size_eq.symm, h.push⟩
  enter _ _ := trivial
  keepAll _ _ := trivial
  alive _ _ _ _ h := nomatch h
  reclaimed name _ _ _ _ _ := .inl rfl

end Simulation

/-! ## Sessions -/

/-- The parameters and the body of a function that is no builtin one. -/
def Term.code? : Term → Option (List Symbol × Term)
  | closure params body _ | named _ params body _ => some (params, body)
  | _ => none

/-- An outcome and the one with closures in the place of named functions. -/
inductive Outcome.Corresponds : Except Fault Term → Except Fault Term → Prop
  | bool (b : Bool) : Corresponds (.ok (.bool b)) (.ok (.bool b))
  | int (n : Int) : Corresponds (.ok (.int n)) (.ok (.int n))
  | builtin (b : Builtin) : Corresponds (.ok (.builtin b)) (.ok (.builtin b))
  | function {v v' : Term} {params : List Symbol} {body : Term}
      (h : v.code? = some (params, body)) (h' : v'.code? = some (params, body.asClosures)) :
      Corresponds (.ok v) (.ok v')
  /-- The same fault: the same kind of error with the same report. -/
  | fault (f : Fault) : Corresponds (.error f) (.error f)

theorem Outcome.corresponds_value {v : Term} {n : Nat} (hv : v.IsValue n) :
    Corresponds (.ok v) (.ok (Translation.closures.value v)) := by
  cases v with
  | bool b => exact .bool b
  | int k => exact .int k
  | builtin b => exact .builtin b
  | closure params body o => exact .function rfl rfl
  | named name params body o => exact .function rfl rfl
  | _ => exact hv.elim

namespace Session

/-- Evaluates terms one after the other. -/
def evaluateAll (limit : Nat) (s : Session) : List Term → List (Except Fault Term) × Session
  | [] => ([], s)
  | e :: es =>
    let (result, s) := s.evaluate limit e
    let (results, s) := s.evaluateAll limit es
    (result :: results, s)

theorem evaluate_asClosures {s s' : Session} (hs : s.Sound) (hroot : s'.root = s.root)
    (hst : s.store.WithClosures s'.store) {e : Term} (he : e.Readable) {limit : Nat}
    (hok : Outcome.settled (s.evaluate limit e).1 = true) :
    Outcome.Corresponds (s.evaluate limit e).1 (s'.evaluate (limit + 1) e.asClosures).1 ∧
      (s.evaluate limit e).2.Sound ∧
      (s'.evaluate (limit + 1) e.asClosures).2.root = (s.evaluate limit e).2.root ∧
      (s.evaluate limit e).2.store.WithClosures (s'.evaluate (limit + 1) e.asClosures).2.store := by
  have hlt : s.root < s.store.size := by rw [hs.root_eq]; exact hs.store.nonempty
  have hproper : (s.activation limit e).Proper :=
    ⟨⟨hlt, he, hs.store⟩, by rw [activation, hs.root_eq]; exact List.mem_cons_self⟩
  have hmatch : Simulation.closures.Matches Simulation.closures.value
      (ScopedLisp.evaluate limit { scopes := [s.root] } s.root e) s.store
      (ScopedLisp.evaluate (limit + 1) { scopes := [s.root] } s.root e.asClosures) s'.store :=
    Simulation.closures_lawful.followed hproper (fun _ _ _ _ => trivial) _ _ trivial hst
  have hyields := hproper.yields Held.keepsAlive
  have hrun : ∀ r, ScopedLisp.evaluate (limit + 1) { scopes := [s.root] } s.root e.asClosures
      s'.store = r → ScopedLisp.evaluate (limit + 1) { scopes := [s'.root] } s'.root e.asClosures
      s'.store = r := fun r hr => by rw [hroot, hr]
  cases hx : ScopedLisp.evaluate limit { scopes := [s.root] } s.root e s.store with
  | ok v t =>
    obtain ⟨t', hx', htt⟩ := hmatch.of_ok hx
    obtain ⟨hevolves, hval⟩ := hyields.of_ok hx
    rw [evaluate_of_ok hx, evaluate_of_ok (hrun _ hx')]
    exact ⟨Outcome.corresponds_value hval, ⟨hs.root_eq, hevolves.sound hs.store⟩, hroot, htt⟩
  | error fault t =>
    rw [evaluate_of_error hx] at hok ⊢
    have hfault : ¬ Simulation.closures.Waived fault := fun hwaived =>
      Bool.noConfusion (hok.symm.trans hwaived)
    obtain ⟨t', hx', htt⟩ := hmatch.of_error hx hfault
    have hevolves := hyields.of_error hx
    rw [evaluate_of_error (hrun _ hx')]
    exact ⟨.fault fault, ⟨hs.root_eq, hevolves.sound hs.store⟩, hroot, htt⟩

theorem evaluateAll_withClosures {s s' : Session} (hs : s.Sound) (hroot : s'.root = s.root)
    (hst : s.store.WithClosures s'.store) {programs : List Term}
    (hread : ∀ e ∈ programs, e.Readable) {limit : Nat}
    (hok : ∀ r ∈ (s.evaluateAll limit programs).1, Outcome.settled r = true) :
    List.Forall₂ Outcome.Corresponds (s.evaluateAll limit programs).1
        (s'.evaluateAll (limit + 1) (programs.map Term.asClosures)).1 ∧
      (s'.evaluateAll (limit + 1) (programs.map Term.asClosures)).2.root =
        (s.evaluateAll limit programs).2.root ∧
      (s.evaluateAll limit programs).2.store.WithClosures
        (s'.evaluateAll (limit + 1) (programs.map Term.asClosures)).2.store := by
  induction programs generalizing s s' with
  | nil => exact ⟨.nil, hroot, hst⟩
  | cons e es ih =>
    obtain ⟨hout, hsound, hroot', hst'⟩ := evaluate_asClosures hs hroot hst
      (hread e List.mem_cons_self) (hok _ List.mem_cons_self)
    obtain ⟨houts, hend⟩ := ih hsound hroot' hst'
      (fun e' he' => hread e' (List.mem_cons_of_mem _ he'))
      fun r hr => hok r (List.mem_cons_of_mem _ hr)
    exact ⟨.cons hout houts, hend⟩

theorem start_withClosures : start.store.WithClosures start.store := by
  refine ⟨rfl, fun _ => rfl, fun i => ?_⟩
  by_cases hi : i = 0
  · subst hi
    rfl
  · have hempty : start.store.frame i = {} :=
      Store.frame_of_size_le (by rw [start_fresh.size_eq]; exact Nat.pos_of_ne_zero hi)
    rw [hempty]
    rfl

/-- **Named functions are closures that do not keep their scope.** If no program of a session fails
by a lost scope or is given up, then with a closure in the place of every named function, and with
one more level of nesting, each program has the corresponding outcome, and the session comes to bind
the same names in the same order. -/
theorem evaluateAll_asClosures {programs : List Term}
    (hread : ∀ e ∈ programs, ∃ source, Term.parse source = .ok e) {limit : Nat}
    (hok : ∀ r ∈ (start.evaluateAll limit programs).1, Outcome.settled r = true) :
    List.Forall₂ Outcome.Corresponds (start.evaluateAll limit programs).1
        (start.evaluateAll (limit + 1) (programs.map Term.asClosures)).1 ∧
      (start.evaluateAll (limit + 1) (programs.map Term.asClosures)).2.frame.names =
        (start.evaluateAll limit programs).2.frame.names := by
  have hreadable : ∀ e ∈ programs, e.Readable := fun e he =>
    (hread e he).elim fun _ => Term.readable_of_parse
  obtain ⟨houts, hroot, hst⟩ := evaluateAll_withClosures start_fresh.toSound rfl start_withClosures
    hreadable hok
  refine ⟨houts, ?_⟩
  rw [Session.frame, Session.frame, hroot, Frame.names, hst.bindings_eq,
    Translation.map_fst_bindings]
  rfl

/-- A recursive function is defined, called and defined again, which is an error. -/
theorem evaluateAll_asClosures_recursive :
    ∃ e₁ e₂ e₃, Term.parse "(defn down (n) (if (lte n 0) down (down (sub n 1))))" = .ok e₁ ∧
      Term.parse "(let g (down 2))" = .ok e₂ ∧ Term.parse "(do (defn down () g) (down))" = .ok e₃ ∧
      (∀ r ∈ (start.evaluateAll 20 [e₁, e₂, e₃, e₁]).1, Outcome.settled r = true) ∧
      List.Forall₂ Outcome.Corresponds (start.evaluateAll 20 [e₁, e₂, e₃, e₁]).1
        (start.evaluateAll 21 [e₁.asClosures, e₂.asClosures, e₃.asClosures, e₁.asClosures]).1 := by
  obtain ⟨e₁, e₂, e₃, h₁, h₂, h₃, hok⟩ : ∃ e₁ e₂ e₃,
      Term.parse "(defn down (n) (if (lte n 0) down (down (sub n 1))))" = .ok e₁ ∧
      Term.parse "(let g (down 2))" = .ok e₂ ∧ Term.parse "(do (defn down () g) (down))" = .ok e₃ ∧
      ∀ r ∈ (start.evaluateAll 20 [e₁, e₂, e₃, e₁]).1, Outcome.settled r = true :=
    ⟨_, _, _, rfl, rfl, rfl, by decide +kernel⟩
  refine ⟨e₁, e₂, e₃, h₁, h₂, h₃, hok, (evaluateAll_asClosures (fun e he => ?_) hok).1⟩
  simp only [List.mem_cons, List.not_mem_nil, or_false] at he
  rcases he with rfl | rfl | rfl | rfl
  · exact ⟨_, h₁⟩
  · exact ⟨_, h₂⟩
  · exact ⟨_, h₃⟩
  · exact ⟨_, h₁⟩

end Session

end ScopedLisp
