import ScopedLisp.Proofs.AsClosures
import ScopedLisp.Proofs.OverlongNumerals
import ScopedLisp.Proofs.OwnScope

/-!
# A discipline for named functions

A named function can be called for as long as its scope lives, and this is so where its name is in
sight. So a program that defines named functions as statements, and does nothing with their names
but call them, never finds the scope of a function gone.

* `Role`, `Term.roleOf`: what becomes of the parts of a program;
* `Term.obeys`, `Term.disciplined`: the programs that keep to the discipline;
* `Store.Tidy`: a scope binds named functions only if they were defined in it;
* `Activation.keepsTidy`: disciplined programs keep stores tidy;
* `Activation.Disciplined.kind_ne`: they find no scope gone;
* **`Session.Initial.kind_ne_scope`**: nor does any session of them.
-/

namespace ScopedLisp

/-! ## The discipline -/

/-- What becomes of a part of a program. -/
inductive Role where
  /-- Its value is used. -/
  | value
  /-- It is evaluated, and nothing else uses its value. -/
  | statement
  /-- It is the head of a call or of a form. -/
  | head
  /-- It is not evaluated: a name to be bound, or a list of parameters. -/
  | binder
deriving DecidableEq, Repr

namespace Term

/-- What becomes of the part `j` of a list. -/
def roleOf (items : List Term) (j : Nat) : Role :=
  if j = 0 then .head
  else
    match items.head?.bind Keyword.ofTerm? with
    | some .block => if j + 1 = items.length then .value else .statement
    | some .bind | some .lambda => if j = 1 then .binder else .value
    | some .define => if j ≤ 2 then .binder else .value
    | some .choose | none => .value

mutual

/-- Whether the definitions of named functions in a term are statements, and no name in `defined` is
used as a value. -/
def obeys (defined : List Symbol) (role : Role) : Term → Bool
  | symbol name => decide (role = .value → name ∉ defined)
  | list items =>
    role == .binder ||
      (role == .statement || (definition? items).isNone) &&
        obeysAll defined (roleOf items) items
  | _ => true

/-- Whether the terms keep to the discipline, each in its role. -/
def obeysAll (defined : List Symbol) (roles : Nat → Role) : List Term → Bool
  | [] => true
  | e :: es => e.obeys defined (roles 0) && obeysAll defined (fun j => roles (j + 1)) es

end

mutual

/-- The names of the functions that are defined anywhere in a term. -/
def definedNames : Term → List Symbol
  | list items => ((definition? items).bind (·.1.symbol?)).toList ++ definedNamesOfAll items
  | _ => []

/-- The names of the functions that are defined anywhere in the terms. -/
def definedNamesOfAll : List Term → List Symbol
  | [] => []
  | e :: es => e.definedNames ++ definedNamesOfAll es

end

/-- Whether the programs define named functions only as statements, and use the names of all these
functions for nothing but calls and further bindings. -/
def disciplined (programs : List Term) : Bool :=
  programs.all (·.obeys (programs.flatMap definedNames) .statement)

variable {defined : List Symbol} {role : Role} {items : List Term} {e : Term} {j : Nat}

theorem obeysAll_iff {roles : Nat → Role} {es : List Term} :
    obeysAll defined roles es = true ↔
      ∀ (j : Nat) (e : Term), es[j]? = some e → e.obeys defined (roles j) = true := by
  induction es generalizing roles with
  | nil => simp [obeysAll]
  | cons e es ih =>
    rw [obeysAll, Bool.and_eq_true, ih]
    constructor
    · rintro ⟨hfirst, hrest⟩ j e' hj
      cases j with
      | zero => cases hj; exact hfirst
      | succ j => exact hrest j e' hj
    · intro h
      exact ⟨h 0 e rfl, fun j e' hj => h (j + 1) e' hj⟩

theorem definedNames_subset {es : List Term} (h : e ∈ es) :
    e.definedNames ⊆ definedNamesOfAll es := by
  induction es with
  | nil => cases h
  | cons e' es ih =>
    rw [definedNamesOfAll]
    rcases List.mem_cons.1 h with rfl | h
    · exact List.subset_append_left _ _
    · exact List.Subset.trans (ih h) (List.subset_append_right _ _)

/-- A term keeps to the discipline in its role, and `defined` has all names that it defines. -/
structure Behaves (defined : List Symbol) (role : Role) (e : Term) : Prop where
  obeys : e.obeys defined role = true
  names : e.definedNames ⊆ defined

namespace Behaves

theorem statement (h : e.Behaves defined role) (hrole : role ≠ .binder) :
    e.Behaves defined .statement := by
  refine ⟨?_, h.names⟩
  have hobeys := h.obeys
  cases e with
  | symbol name => simp [Term.obeys]
  | list items =>
    rw [Term.obeys] at hobeys ⊢
    simp_all
  | _ => rfl

theorem part (h : (list items).Behaves defined role) (hrole : role ≠ .binder)
    (hj : items[j]? = some e) : e.Behaves defined (roleOf items j) := by
  have hobeys := h.obeys
  have hnames := h.names
  rw [Term.obeys] at hobeys
  rw [definedNames] at hnames
  refine ⟨obeysAll_iff.1 (by simp_all) j e hj, ?_⟩
  exact List.Subset.trans (definedNames_subset (List.mem_of_getElem? hj))
    (List.append_subset.1 hnames).2

theorem not_mem {name : Symbol} (h : (symbol name).Behaves defined .value) : name ∉ defined := by
  have hobeys := h.obeys
  rw [Term.obeys] at hobeys
  simpa using hobeys

theorem definition (h : (list items).Behaves defined role) (hrole : role ≠ .binder)
    {d : Term × Term} (hd : definition? items = some d) {name : Symbol}
    (hname : d.1.symbol? = some name) : role = .statement ∧ name ∈ defined := by
  have hobeys := h.obeys
  rw [Term.obeys, hd] at hobeys
  refine ⟨by simp_all, h.names ?_⟩
  rw [definedNames, hd, Option.bind_some, hname]
  exact List.mem_cons_self

end Behaves

/-! ## Values and stores -/

/-- No named function, and the body of a function keeps to the discipline. -/
def Unnamed (defined : List Symbol) : Term → Prop
  | named .. => False
  | closure _ body _ => body.Behaves defined .value
  | _ => True

/-- No named function but those that were defined in the scope. -/
def OwnedBy (defined : List Symbol) (scope : ScopeId) (v : Term) : Prop :=
  v.Unnamed defined ∨
    ∃ name params body, v = .named name params body scope ∧ body.Behaves defined .value

theorem OwnedBy.of_closure {params : List Symbol} {body : Term} {o scope : ScopeId}
    (h : (closure params body o).OwnedBy defined scope) : body.Behaves defined .value := by
  rcases h with hun | ⟨_, _, _, heq, -⟩
  · exact hun
  · cases heq

theorem OwnedBy.of_named {name : Symbol} {params : List Symbol} {body : Term} {o scope : ScopeId}
    (h : (named name params body o).OwnedBy defined scope) :
    o = scope ∧ body.Behaves defined .value := by
  rcases h with hun | ⟨_, _, _, heq, hbehaves⟩
  · exact hun.elim
  · cases heq
    exact ⟨rfl, hbehaves⟩

theorem unnamed_of_isValue_zero {v : Term} (hv : v.IsValue 0) (defined : List Symbol) :
    v.Unnamed defined := by
  cases v with
  | closure | named => exact absurd hv.2 (Nat.not_lt_zero _)
  | _ => trivial

end Term

/-- Named functions are bound in the scopes where they were defined, to names in `defined`. -/
def Store.Tidy (defined : List Symbol) (s : Store) : Prop :=
  ∀ i, ∀ b ∈ (s.frame i).bindings,
    b.2.OwnedBy defined i ∧ (b.1 ∉ defined → b.2.Unnamed defined)

namespace Store.Tidy

variable {defined : List Symbol} {s : Store} {f : Frame} {scope : Nat} {name : Symbol} {v : Term}

theorem push (h : s.Tidy defined) (hf : ∀ b ∈ f.bindings, b.2.Unnamed defined) :
    (s.push f).Tidy defined := by
  intro i b hb
  rw [frame_push] at hb
  split_ifs at hb
  · exact ⟨.inl (hf b hb), fun _ => hf b hb⟩
  · exact h i b hb

theorem bind (h : s.Tidy defined) (hscope : scope < s.size) (hown : v.OwnedBy defined scope)
    (hname : name ∉ defined → v.Unnamed defined) : (s.bind scope name v).Tidy defined := by
  intro i b hb
  rw [bindings_bind hscope] at hb
  rcases List.mem_append.1 hb with hb | hb
  · exact h i b hb
  · split_ifs at hb with hi
    · rw [List.mem_singleton.1 hb, hi]
      exact ⟨hown, hname⟩
    · cases hb

end Store.Tidy

/-- What can be said of the value of a term in a role, evaluated in a scope. -/
def Role.Admits (defined : List Symbol) (s : Store) (scope : ScopeId) : Role → Term → Prop
  | .value, v => v.Unnamed defined
  | .head, v => ∃ i ∈ s.chain scope, v.OwnedBy defined i
  | .statement, _ | .binder, _ => True

theorem Term.Unnamed.admits {defined : List Symbol} {s : Store} {scope : Nat} {v : Term}
    (h : v.Unnamed defined) (hscope : scope < s.size) (role : Role) :
    role.Admits defined s scope v := by
  cases role with
  | value => exact h
  | head =>
    obtain ⟨rest, hrest⟩ := Store.chain_eq_cons hscope
    exact ⟨scope, hrest ▸ List.mem_cons_self, .inl h⟩
  | statement | binder => trivial

theorem Role.Admits.of_chain_eq {defined : List Symbol} {s t : Store} {scope : ScopeId}
    {role : Role} {v : Term} (h : role.Admits defined t scope v)
    (hchain : t.chain scope = s.chain scope) : role.Admits defined s scope v := by
  cases role with
  | head =>
    rw [Admits, ← hchain]
    exact h
  | value | statement | binder => exact h

theorem Store.Tidy.admits_of_lookup {defined : List Symbol} {s : Store} {scope : ScopeId}
    {name : Symbol} {v : Term} {role : Role} (h : s.Tidy defined)
    (hl : s.lookup scope name = some v) (hbehaves : (Term.symbol name).Behaves defined role) :
    role.Admits defined s scope v := by
  obtain ⟨i, hi, hmem⟩ := exists_mem_of_lookup hl
  obtain ⟨hown, hname⟩ := h i _ hmem
  cases role with
  | value => exact hname hbehaves.not_mem
  | head => exact ⟨i, hi, hown⟩
  | statement | binder => trivial

/-! ## Evaluation -/

namespace Term

variable {defined : List Symbol} {e : Term} {values : List Term} {j : Nat}

theorem roleOf_ne_binder (h : e.position? values = some j) : roleOf e.items j ≠ .binder := by
  obtain ⟨head, parts, rfl, ⟨hk, rfl⟩ | ⟨hk, -, rfl⟩ | ⟨hk, -, -, rfl⟩ | ⟨hk, -, hj⟩⟩ :=
    of_position?_eq_some h
  all_goals simp only [items, roleOf, List.head?_cons, Option.bind_some, hk]
  all_goals grind

theorem roleOf_of_answers (h : e.position? values = some j) (hanswers : e.answers j = true) :
    roleOf e.items j = .value := by
  obtain ⟨head, parts, rfl, ⟨hk, rfl⟩ | ⟨hk, -, rfl⟩ | ⟨hk, -, -, rfl⟩ | ⟨hk, -, hj⟩⟩ :=
    of_position?_eq_some h
  all_goals simp only [answers, hk] at hanswers
  all_goals simp only [items, roleOf, List.head?_cons, Option.bind_some, hk]
  all_goals grind

end Term

namespace Activation

/-- The term of an evaluation keeps to the discipline, and the store is tidy. -/
structure Disciplined (defined : List Symbol) (a : Activation) : Prop extends a.WellFormed where
  tidy : a.store.Tidy defined
  behaves : a.term.Behaves defined .statement

/-- The store is tidy, and of the values so far can be said what their roles admit. -/
structure KeepsTidy (defined : List Symbol) (a : Activation) (p : Progress) : Prop where
  tidy : p.store.Tidy defined
  admits : ∀ before v after j, p.values = before ++ v :: after →
    a.term.position? before = some j →
    (Term.roleOf a.term.items j).Admits defined a.opened a.inner v

variable {defined : List Symbol} {alive : Liveness} {a b : Activation} {p : Progress} {j : Nat}
  {fn v : Term}

theorem WellFormed.chain_eq (ha : a.WellFormed) (h : a.Reaches alive p) :
    p.store.chain a.inner = a.opened.chain a.inner := by
  have hevolves := (ha.reaches h).evolves
  exact ha.opened.1.chain_congr ((ha.reaches h).sound ha) hevolves.size_le
    (fun i hi => hevolves.outer_eq hi) ha.opened.2.1

theorem Disciplined.part (ha : a.Disciplined defined) (hpart : a.term.part? j = some v) :
    v.Behaves defined (Term.roleOf a.term.items j) := by
  have hbehaves := ha.behaves
  obtain ⟨hlist, -⟩ := Term.mem_items_of_part? hpart
  rw [hlist] at hbehaves hpart
  exact hbehaves.part nofun hpart

namespace KeepsTidy

theorem call {head : Term} {es args : List Term} (hp : a.KeepsTidy defined p)
    (hterm : a.term = .list (head :: es)) (hk : Keyword.ofTerm? head = none)
    (hvalues : p.values = fn :: args) :
    (∃ i ∈ a.store.chain a.scope, fn.OwnedBy defined i) ∧ ∀ v ∈ args, v.Unnamed defined := by
  have ho : a.opens = false := opens_eq_false hterm (by simp [hk])
  have hposition : ∀ before, a.term.position? before = some before.length := by
    intro before
    simp [hterm, Term.position?, hk]
  constructor
  · have hfn := hp.admits [] fn args 0 hvalues (hposition [])
    rwa [inner_of_not_opens ho, opened_of_not_opens ho] at hfn
  · intro v hv
    obtain ⟨before, after, rfl⟩ := List.append_of_mem hv
    have harg := hp.admits (fn :: before) v after _ hvalues (hposition _)
    have hrole : Term.roleOf a.term.items (fn :: before).length = .value := by
      simp [Term.roleOf, hterm, Term.items, hk]
    rwa [hrole] at harg

theorem body (hp : a.KeepsTidy defined p) (hstart : a.StartsBody alive p fn b) :
    b.store.Tidy defined ∧ b.term.Behaves defined .value := by
  obtain ⟨hcalls, hvalues, -, henters⟩ := hstart
  obtain ⟨head, es, hterm, hk⟩ := hcalls.call
  obtain ⟨⟨i, -, hown⟩, hargs⟩ := hp.call hterm hk hvalues
  refine ⟨hp.tidy.push fun b => ?_, ?_⟩
  · exact Frame.snd_of_mem_ofRecords fun r hr => hargs r.2 (List.of_mem_zip hr).2
  · cases henters with
    | closure => exact hown.of_closure
    | named => exact hown.of_named.2

theorem returns {t : Store} {role : Role} (hp : a.KeepsTidy defined p) (ha : a.Disciplined defined)
    (hreaches : a.Reaches alive p) (hreturns : a.Returns p v t) (hrole : role ≠ .binder)
    (hbehaves : a.term.Behaves defined role) :
    t.Tidy defined ∧ role.Admits defined a.store a.scope v := by
  have hunnamed : v.Unnamed defined → role.Admits defined a.store a.scope v := fun h =>
    h.admits ha.scope_lt role
  have hscope := (ha.reaches hreaches).scope_lt ha.toWellFormed
  cases hreturns with
  | atom hterm _ =>
    exact ⟨hp.tidy, hunnamed (Term.unnamed_of_isValue_zero (ha.isValue_of_atom hterm 0) defined)⟩
  | @found name v hterm _ h =>
    have ho : a.opens = false := by simp [opens, hterm]
    have hchain := ha.chain_eq hreaches
    rw [inner_of_not_opens ho, opened_of_not_opens ho] at hchain
    rw [hterm] at hbehaves
    exact ⟨hp.tidy, (hp.tidy.admits_of_lookup h hbehaves).of_chain_eq hchain⟩
  | builtin _ _ _ h =>
    exact ⟨hp.tidy, hunnamed (Term.unnamed_of_isValue_zero (Builtin.isValue_of_call h 0) defined)⟩
  | last hvalues hposition hanswers =>
    have hlast := hp.admits _ v [] _ hvalues hposition
    rw [Term.roleOf_of_answers hposition hanswers] at hlast
    exact ⟨hp.tidy, hunnamed hlast⟩
  | @bound head target e v name hk hterm _ hvalues _ =>
    have hun := hp.admits [] v [] 2 hvalues (by simp [hterm, Term.position?, hk])
    have hvalue : Term.roleOf a.term.items 2 = .value := by
      simp [hterm, Term.items, Term.roleOf, hk]
    rw [hvalue] at hun
    exact ⟨hp.tidy.bind hscope (.inl hun) fun _ => hun, hunnamed hun⟩
  | @defined head target list body name params hk hterm hname hparams _ _ =>
    have hd : Term.definition? [head, target, list, body] = some (target, list) := by
      simp [Term.definition?, hk, hname, hparams, Except.isOk, Except.toBool]
    have hbody := ha.part (j := 3) (v := body) (by simp [hterm, Term.part?])
    simp only [hterm, Term.items, Term.roleOf, List.head?_cons, Option.bind_some, hk] at hbody
    rw [hterm] at hbehaves
    obtain ⟨rfl, hmem⟩ := hbehaves.definition hrole hd hname
    exact ⟨hp.tidy.bind hscope (.inr ⟨name, params, body, rfl, hbody⟩)
      fun hnot => absurd hmem hnot, trivial⟩
  | @made head list body params hk hterm _ _ =>
    have hbody := ha.part (j := 2) (v := body) (by simp [hterm, Term.part?])
    simp only [hterm, Term.items, Term.roleOf, List.head?_cons, Option.bind_some, hk] at hbody
    exact ⟨hp.tidy, hunnamed hbody⟩

end KeepsTidy

/-- **The steps of a disciplined evaluation keep the store tidy**, and what its parts give has what
their roles admit. -/
theorem keepsTidy (alive : Liveness) (defined : List Symbol) :
    Invariant alive (Disciplined defined) (KeepsTidy defined) fun a r =>
      ∀ role, role ≠ .binder → a.term.Behaves defined role →
        Leaves (Store.Tidy defined) (fun v _ => role.Admits defined a.store a.scope v) r where
  begins ha := ⟨opened_of_push ha.tidy (ha.tidy.push (by simp)), by simp⟩
  part := by
    intro a b p j ha hreaches hp hstart
    refine ⟨(ha.reaches hreaches).part ha.toWellFormed hstart, ?_, ?_⟩
    · rw [hstart.store]
      exact hp.tidy
    · exact (ha.part hstart.part).statement (Term.roleOf_ne_binder hstart.position)
  gives := by
    intro a b p j v t ha hreaches hp hstart hb
    obtain ⟨htidy, hadmits⟩ := hb _ (Term.roleOf_ne_binder hstart.position) (ha.part hstart.part)
    refine ⟨htidy, fun before w after k hvalues hposition => ?_⟩
    rcases List.eq_nil_or_concat after with rfl | ⟨after, v', rfl⟩
    · obtain ⟨rfl, hw⟩ := List.append_inj' hvalues rfl
      cases hw
      cases hstart.position.symm.trans hposition
      rw [hstart.store, hstart.scope] at hadmits
      exact hadmits.of_chain_eq (ha.chain_eq hreaches)
    · rw [List.concat_eq_append, ← List.cons_append, ← List.append_assoc] at hvalues
      exact hp.admits before w after k (List.append_inj' hvalues rfl).1 hposition
  faults := by
    intro a b p j f t ha _ hp hstart hb role _ _
    exact hb _ (Term.roleOf_ne_binder hstart.position) (ha.part hstart.part)
  body := by
    intro a b p fn ha hreaches hp hstart
    obtain ⟨htidy, hbehaves⟩ := hp.body hstart
    have hbody := ((ha.reaches hreaches).body ha.toWellFormed hstart).1
    exact ⟨hbody, htidy, hbehaves.statement nofun⟩
  ends := by
    intro a b p fn r ha hreaches hp hstart hb role _ _
    refine (hb .value nofun (hp.body hstart).2).mono (fun _ ht => ht) fun v t _ hv => ?_
    exact Term.Unnamed.admits hv ha.scope_lt role
  raises _ _ _ hp _ _ _ := hp.tidy
  returns ha hreaches hp hreturns _ _ hrole hbehaves :=
    hp.returns ha hreaches hreturns hrole hbehaves

theorem Raises.asks {name : Symbol} (h : a.Raises alive (.error (.scopeReclaimed name))) :
    ∃ m o, a.Asks alive m o ∧ alive m.held m.store o = false := by
  obtain ⟨n, head, args, params, body, o, values, t, u, hlimit, hterm, hk, hhead, hargs, hgone⟩ :=
    h.of_reclaimed
  obtain ⟨limit, held, scope, term, store⟩ := a
  cases hlimit
  cases hterm
  exact ⟨_, o, .intro hk hhead hargs, hgone⟩

/-- **A disciplined evaluation finds no scope gone**: a function is called where its name is in
sight, so its scope is one of those around the call. -/
theorem Disciplined.kind_ne (ha : a.Disciplined defined) {e : Error} {t : Store}
    (h : a.run Held.keepsAlive = .error (.error e) t) : e.kind ≠ .scope := by
  intro hkind
  obtain ⟨name, rfl⟩ : ∃ name, e = .scopeReclaimed name := by
    cases e <;> simp_all [Error.kind]
  obtain ⟨b, hoccurs, hraises, -⟩ := exists_raises h
  have hinv := keepsTidy Held.keepsAlive defined
  have hb := hinv.occurs ha hoccurs
  obtain ⟨m, o, hasks, hgone⟩ := hraises.asks
  obtain ⟨name, params, body, values, hreaches, hheld⟩ := hasks.reaches
  obtain ⟨head, es, hterm, hk⟩ := hasks.call
  obtain ⟨⟨i, hi, hown⟩, -⟩ := (hinv.reaches hb hreaches).call hterm hk rfl
  obtain rfl : o = i := hown.of_named.1
  have ho : b.opens = false := opens_eq_false hterm (by simp [hk])
  have hchain := hb.chain_eq hreaches
  rw [inner_of_not_opens ho, opened_of_not_opens ho] at hchain
  have hevolving := hb.reaches hreaches
  have hmem : b.scope ∈ m.held.scopes := hheld ▸ List.mem_cons_self
  have hlives := Held.keepsAlive_of_mem_chain (hevolving.sound hb.toWellFormed)
    (hevolving.scope_lt hb.toWellFormed) hmem (hchain ▸ hi)
  cases hlives.symm.trans hgone

end Activation

/-! ## Sessions -/

theorem behaves_of_disciplined {sources : List String}
    (h : Term.disciplined (programs sources) = true) {source : String} (hsource : source ∈ sources)
    {e : Term} (hparse : Term.parse source = .ok e) :
    e.Behaves ((programs sources).flatMap Term.definedNames) .statement := by
  have hmem : e ∈ programs sources := mem_programs.2 ⟨source, hsource, hparse⟩
  refine ⟨List.all_eq_true.1 h e hmem, fun name hname => ?_⟩
  exact List.mem_flatMap.2 ⟨e, hmem, hname⟩

namespace Session

variable {defined : List Symbol} {session : Session} {source : String} {sources : List String}

theorem Initial.tidy (hs : session.Initial) (defined : List Symbol) :
    session.store.Tidy defined := by
  intro i b hb
  have hun := Term.unnamed_of_isValue_zero (hs.holds i b hb) defined
  exact ⟨.inl hun, fun _ => hun⟩

theorem Sound.eval_tidy (hs : session.Sound) (htidy : session.store.Tidy defined)
    (h : ∀ e, Term.parse source = .ok e → e.Behaves defined .statement) (limit : Nat) :
    (session.eval limit source).2.store.Tidy defined ∧
      ∀ e, (session.eval limit source).1 = .error (.error e) → e.kind ≠ .scope := by
  cases hparse : Term.parse source with
  | error fault =>
    rw [eval_of_parse_error hparse]
    refine ⟨htidy, ?_⟩
    rintro e ⟨⟩
    simp [Term.kind_of_parse hparse]
  | ok e =>
    have ha : Activation.Disciplined defined
        ⟨limit, { scopes := [session.root] }, session.root, e, session.store⟩ :=
      ⟨(hs.activation_proper hparse limit).toWellFormed, htidy, h e hparse⟩
    refine ⟨?_, fun e' he' => ?_⟩
    · rw [eval_of_parse hparse]
      exact Leaves.storeAfter ((Activation.keepsTidy _ defined).run ha .statement nofun ha.behaves)
    · rw [eval_of_parse_ok hparse] at he'
      cases hx : ScopedLisp.evaluate limit { scopes := [session.root] } session.root e
        session.store with
      | ok v t =>
        rw [evaluate_of_ok hx] at he'
        cases he'
      | error fault t =>
        rw [evaluate_of_error hx] at he'
        cases he'
        exact ha.kind_ne hx

theorem Sound.run_tidy (hs : session.Sound) (htidy : session.store.Tidy defined)
    (h : ∀ source ∈ sources, ∀ e, Term.parse source = .ok e → e.Behaves defined .statement)
    (limit : Nat) :
    ∀ e, .error (.error e) ∈ (session.run limit sources).1 → e.kind ≠ .scope := by
  induction sources generalizing session with
  | nil => exact fun e he => nomatch he
  | cons source sources ih =>
    obtain ⟨hfirst, hrest⟩ := List.forall_mem_cons.1 h
    obtain ⟨htidy', hresult⟩ := hs.eval_tidy htidy hfirst limit
    intro e he
    rcases List.mem_cons.1 he with heq | he
    · exact hresult e heq.symm
    · exact ih (hs.eval limit source) htidy' hrest e he

/-- **A session of disciplined programs never finds the scope of a function gone**: named functions
are defined only as statements, and their names are else only called or bound anew. -/
theorem Initial.kind_ne_scope (hs : session.Initial)
    (h : Term.disciplined (programs sources) = true) (limit : Nat) :
    ∀ e, .error (.error e) ∈ (session.run limit sources).1 → e.kind ≠ .scope :=
  hs.fresh.toSound.run_tidy (hs.tidy _) (fun _ hsource _ => behaves_of_disciplined h hsource) limit

/-- Two functions that call each other, and a closure over a function with one inside of it; a name
of a function is bound to another value in between. -/
theorem kind_ne_scope_mutual :
    let sources := ["(defn even (n) (if (eq n 0) true (odd (sub n 1))))",
      "(defn odd (n) (if (eq n 0) false (even (sub n 1))))",
      "(let h (do (defn f (x) (do (defn g (y) (if (eq y 0) x (g 0))) (g x))) (fn (x) (f x))))",
      "(h (do (let odd (fn (k) (add k 1))) (odd 3)))", "(odd 3)"]
    Term.disciplined (programs sources) = true ∧
      (start.run 30 sources).1.map (·.toOption.map Term.render) =
        [some "(defn even (n) (if (eq n 0) true (odd (sub n 1))))",
          some "(defn odd (n) (if (eq n 0) false (even (sub n 1))))", some "(fn (x) (f x))",
          some "4", some "true"] ∧
      ∀ e, .error (.error e) ∈ (start.run 30 sources).1 → e.kind ≠ .scope := by
  intro sources
  have hdisciplined : Term.disciplined (programs sources) = true := by decide +kernel
  exact ⟨hdisciplined, by decide +kernel, start_initial.kind_ne_scope hdisciplined 30⟩

/-- A function that leaves the block of its definition as a value finds its scope gone. -/
example :
    let sources := ["((do (defn f (x) x) f) 1)"]
    Term.disciplined (programs sources) = false ∧
      ((start.run 9 sources).1.any fun
        | .error (.error e) => e.kind == .scope
        | _ => false) = true := by
  decide +kernel

end Session

end ScopedLisp
