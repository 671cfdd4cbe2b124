import ScopedLisp.Proofs.Chains
import ScopedLisp.Proofs.Grounded
import ScopedLisp.Proofs.InUse
import ScopedLisp.Proofs.PrintedFunctions

/-!
# Immediate calls

A closure that is called where it is made binds its parameters all at once, in a scope of their own.
A block that starts with bindings makes the same scope, one binding after the other. So the two come
to the same evaluation of the body; that more is in use in the call makes no difference, since the
new scope keeps it as well.

* `Frame.ofRecords_of_nodup`: a frame of different names has its records as bindings;
* `Store.Sound.bind_push`: a binding in the newest scope of a store;
* `Term.IsOperand`, `Store.operand`: literals and names, and their values;
* `Term.immediateCall`, `Term.bindingBlock`: the two forms;
* `evaluateBlock_bindings`: what a block of bindings comes to;
* `Eval.EndAlike`: two computations end alike;
* **`endAlike_immediateCall`**: an immediate call ends like the block.
-/

namespace ScopedLisp

/-! ## Frames made at once and one binding after the other -/

namespace Frame

theorem put_of_not_mem {name : Symbol} {table : List (Symbol × Term)}
    (h : name ∉ table.map (·.1)) (value : Term) :
    put name value table = table ++ [(name, value)] := by
  induction table with
  | nil => rfl
  | cons b table ih =>
    rw [List.map_cons, List.mem_cons, not_or] at h
    rw [put, if_neg (Ne.symm h.1), ih h.2, List.cons_append]

theorem foldl_put_of_nodup {table records : List (Symbol × Term)}
    (h : ((table ++ records).map (·.1)).Nodup) :
    records.foldl (fun table record => put record.1 record.2 table) table = table ++ records := by
  induction records generalizing table with
  | nil => simp
  | cons b records ih =>
    have hb : b.1 ∉ table.map (·.1) := by
      rw [List.map_append, List.map_cons, List.nodup_append] at h
      exact fun hmem => h.2.2 _ hmem _ List.mem_cons_self rfl
    rw [List.foldl_cons, put_of_not_mem hb, ih (by simpa using h), List.append_assoc]
    rfl

theorem ofRecords_of_nodup {records : List (Symbol × Term)} (h : (records.map (·.1)).Nodup)
    (outer : Option ScopeId) :
    ofRecords records outer = { bindings := records, outer := outer } := by
  have hput : records.foldl (fun table record => put record.1 record.2 table) [] = records :=
    foldl_put_of_nodup h
  rw [ofRecords, hput]

theorem binds_eq_false_iff {f : Frame} {name : Symbol} :
    f.binds name = false ↔ name ∉ f.names := by
  rw [binds, get?, Option.isSome_eq_false_iff, Option.isNone_iff_eq_none, List.lookup_eq_none_iff]
  simp only [names, List.mem_map, not_exists, not_and, bne_iff_ne]
  exact ⟨fun h b hb heq => h b hb heq.symm, fun h b hb heq => h b hb heq.symm⟩

theorem names_extend (f : Frame) (name : Symbol) (value : Term) :
    (f.extend name value).names = f.names ++ [name] := by
  simp [names, extend]

end Frame

namespace Store

variable {s : Store} {f : Frame} {o : Nat}

theorem modify_push (s : Store) (f : Frame) (change : Frame → Frame) :
    (s.push f).modify s.size change = s.push (change f) := by
  simp only [push, modify, size, mk.injEq]
  apply Array.ext
  · simp
  · intro i hi hi'
    rw [Array.size_push] at hi'
    simp only [Array.getElem_modify, Array.getElem_push]
    split_ifs
    · omega
    · rfl
    · rfl
    · omega

theorem Sound.owns_push (hs : s.Sound) (f : Frame) {v : Term}
    (hv : ∀ i ∈ v.closureScope?, i < s.size) : (s.push f).owns s.size v = false := by
  unfold owns
  cases hstart : v.closureScope? with
  | none => rfl
  | some start =>
    -- a path that starts at an old scope stays among the old scopes
    have hold : ∀ i, Relation.ReflTransGen (fun i j => j ∈ (s.push f).ownershipLinks i) start i →
        i < s.size := by
      intro i hpath
      induction hpath with
      | refl => exact hv start hstart
      | tail _ hlink ih =>
        rw [ownershipLinks_push_of_ne f (Nat.ne_of_lt ih)] at hlink
        exact mem_ownershipLinks_lt hs hlink
    dsimp only
    rw [Bool.eq_false_iff, ne_eq, reaches_iff fun _ => ownershipLinks_eq_nil]
    rintro ⟨-, r, hr, hpath⟩
    rw [List.mem_singleton.1 hr] at hpath
    exact Nat.lt_irrefl _ (hold _ hpath)

theorem Sound.bind_push (hs : s.Sound) (f : Frame) (name : Symbol) {v : Term}
    (hv : ∀ i ∈ v.closureScope?, i < s.size) :
    (s.push f).bind s.size name v = s.push (f.extend name v) := by
  rw [Store.bind, modify_push, hs.owns_push _ hv]
  rfl

end Store

/-! ## Operands -/

/-- An integer, a boolean, or a symbol that is not among the names. -/
inductive Term.IsOperand (names : List Symbol) : Term → Prop
  | int (n : Int) : IsOperand names (.int n)
  | bool (b : Bool) : IsOperand names (.bool b)
  | symbol {name : Symbol} (h : name ∉ names) : IsOperand names (.symbol name)

/-- The value of an operand: that of a symbol is looked up, and all else is its own value. -/
def Store.operand (s : Store) (scope : ScopeId) : Term → Except Error Term
  | .symbol name =>
    match s.lookup scope name with
    | none | some .absent => .error (.unbound name)
    | some value => .ok value
  | e => .ok e

section Operands

variable {s : Store} {f : Frame} {o : Nat} {names : List Symbol} {e v : Term}

theorem evaluateWith_operand (h : e.IsOperand names) (alive : Liveness) (n : Nat) (held : Held)
    (scope : ScopeId) (s : Store) :
    evaluateWith alive (n + 1) held scope e s = Eval.ofExcept (s.operand scope e) s := by
  cases h with
  | int n => rfl
  | bool b => rfl
  | @symbol name h =>
    show Eval.lookup scope name s = _
    rw [Eval.lookup, Store.operand]
    cases s.lookup scope name with
    | none => rfl
    | some v => cases v <;> rfl

theorem evaluateArgs_operands {args : List Term} (h : ∀ e ∈ args, e.IsOperand names)
    (alive : Liveness) (n : Nat) (held : Held) (scope : ScopeId) (s : Store) :
    evaluateArgs (evaluateWith alive (n + 1)) held scope args s =
      Eval.ofExcept (args.mapM (s.operand scope)) s := by
  induction args generalizing held with
  | nil => rfl
  | cons e args ih =>
    have hfirst := evaluateWith_operand (h e List.mem_cons_self) alive n held scope s
    have hrest := fun held => ih (fun e he => h e (List.mem_cons_of_mem _ he)) held
    rw [evaluateArgs, List.mapM_cons]
    cases he : s.operand scope e with
    | error fault =>
      rw [he] at hfirst
      exact Eval.bind_of_error hfirst
    | ok v =>
      rw [he] at hfirst
      rw [Eval.bind_of_ok hfirst]
      cases hargs : args.mapM (s.operand scope) with
      | error fault =>
        have := hrest (held.keep v)
        rw [hargs] at this
        exact Eval.bind_of_error this
      | ok values =>
        have := hrest (held.keep v)
        rw [hargs] at this
        exact Eval.bind_of_ok this

theorem Store.Sound.operand_push (hs : s.Sound) (ho : f.outer = some o) (hlt : o < s.size)
    (hf : f.names ⊆ names) (h : e.IsOperand names) :
    (s.push f).operand s.size e = s.operand o e := by
  cases h with
  | int n => rfl
  | bool b => rfl
  | symbol h =>
    have hname := Frame.binds_eq_false_iff.2 (mt (hf ·) h)
    rw [Store.operand, Store.operand, Store.lookup_push_of_outer hs.grounded.outer_lt ho hlt hname]

theorem Store.Sound.closureScope_operand (hs : s.Sound) (h : e.IsOperand names)
    (hv : s.operand o e = .ok v) : ∀ i ∈ v.closureScope?, i < s.size := by
  intro i hi
  cases h with
  | int n => cases hv; cases hi
  | bool b => cases hv; cases hi
  | @symbol name h =>
    have hlookup : s.lookup o name = some v := by
      rw [Store.operand] at hv
      cases hl : s.lookup o name with
      | none => rw [hl] at hv; cases hv
      | some w => rw [hl] at hv; cases w <;> cases hv <;> rfl
    exact (hs.isValue_of_lookup hlookup).closureScope_lt hi

end Operands

/-! ## The two forms -/

namespace Term

/-- A closure that is called where it is made. -/
def immediateCall (params : List Symbol) (args : List Term) (body : Term) : Term :=
  .list (lambdaForm params body :: args)

/-- The form that binds a name. -/
def bindForm (name : Symbol) (e : Term) : Term := .list [Keyword.bind.term, .symbol name, e]

/-- A block that binds the parameters one after the other. -/
def bindingBlock (params : List Symbol) (args : List Term) (body : Term) : Term :=
  .list (Keyword.block.term :: ((params.zip args).map (fun b => bindForm b.1 b.2) ++ [body]))

end Term

section Bindings

variable {s : Store} {f : Frame} {o : Nat} {names : List Symbol}

theorem evaluateWith_bindForm (hs : s.Sound) (ho : f.outer = some o) (hlt : o < s.size)
    (hf : f.names ⊆ names) {e : Term} (he : e.IsOperand names) {name : Symbol}
    (hname : name ∉ f.names) (alive : Liveness) (n : Nat) (held : Held) :
    evaluateWith alive (n + 2) held s.size (Term.bindForm name e) (s.push f) =
      match s.operand o e with
      | .error e => .error (.error e) (s.push f)
      | .ok v => .ok v (s.push (f.extend name v)) := by
  have hvalue := evaluateWith_operand he alive n (held.enter s.size) s.size (s.push f)
  rw [hs.operand_push ho hlt hf he] at hvalue
  rw [Term.bindForm, evaluateWith_form (Keyword.ofTerm?_term .bind)]
  cases hoperand : s.operand o e with
  | error e =>
    rw [hoperand] at hvalue
    exact Eval.bind_of_error hvalue
  | ok v =>
    rw [hoperand] at hvalue
    refine (Eval.bind_of_ok hvalue).trans ?_
    rw [Eval.define, Store.frame_push_self, Frame.binds_eq_false_iff.2 hname,
      hs.bind_push f name (hs.closureScope_operand he hoperand)]
    rfl

/-- **A block that binds names to operands comes to its last part** in a scope that binds the values
of the operands, or it fails for the first operand that has none. -/
theorem evaluateBlock_bindings (hs : s.Sound) (hlt : o < s.size) (alive : Liveness) (held : Held)
    (body : Term) {pairs : List (Symbol × Term)} {n : Nat} (hn : pairs ≠ [] → 2 ≤ n)
    (hpairs : ∀ b ∈ pairs, b.2.IsOperand names) (ho : f.outer = some o)
    (hnames : f.names ++ pairs.map (·.1) ⊆ names) (hnodup : (f.names ++ pairs.map (·.1)).Nodup)
    (last : Option Term) {first : Term} {rest : List Term}
    (hparts : first :: rest = pairs.map (fun b => Term.bindForm b.1 b.2) ++ [body]) :
    match (pairs.map (·.2)).mapM (s.operand o) with
    | .error e => ∃ g, evaluateBlock (evaluateWith alive n) held s.size last first rest (s.push f) =
        .error (.error e) (s.push g)
    | .ok values =>
      evaluateBlock (evaluateWith alive n) held s.size last first rest (s.push f) =
        evaluateWith alive n ((values.getLast?.or last).elim held held.keep) s.size body
          (s.push { f with bindings := f.bindings ++ (pairs.map (·.1)).zip values }) := by
  -- by induction on the bindings: each adds one to the frame of the newest scope, and an operand
  -- has the value in it that it has in the scope around
  induction pairs generalizing f last first rest with
  | nil =>
    obtain ⟨rfl, rfl⟩ := List.cons.inj hparts
    show evaluateWith alive n (last.elim held held.keep) s.size first (s.push f) = _
    simp
  | cons b pairs ih =>
    obtain ⟨rfl, hrest⟩ := List.cons.inj hparts
    obtain ⟨k, rfl⟩ := Nat.exists_eq_add_of_le' (hn (List.cons_ne_nil b pairs))
    obtain ⟨e', rest, rfl⟩ : ∃ e' es, rest = e' :: es :=
      List.exists_cons_of_ne_nil (by rw [hrest]; simp)
    have hb : b.1 ∉ f.names := fun hmem =>
      (List.nodup_append.1 hnodup).2.2 _ hmem _ List.mem_cons_self rfl
    have hbound : f.names ⊆ names := List.Subset.trans (List.subset_append_left _ _) hnames
    have hstep := evaluateWith_bindForm hs ho hlt hbound (hpairs b List.mem_cons_self) hb alive k
      (last.elim held held.keep)
    rw [List.map_cons, List.mapM_cons]
    cases hoperand : s.operand o b.2 with
    | error e =>
      rw [hoperand] at hstep
      exact ⟨f, Eval.bind_of_error hstep⟩
    | ok v =>
      rw [hoperand] at hstep
      have hgoes := Eval.bind_of_ok (f := fun value =>
        evaluateBlock (evaluateWith alive (k + 2)) held s.size (some value) e' rest) hstep
      have hnext := ih (f := f.extend b.1 v) (fun _ => Nat.le_add_left 2 k)
        (fun c hc => hpairs c (List.mem_cons_of_mem _ hc)) ho
        (by simpa [Frame.names_extend] using hnames) (by simpa [Frame.names_extend] using hnodup)
        (some v) hrest
      cases hmap : (pairs.map (·.2)).mapM (s.operand o) with
      | error e =>
        rw [hmap] at hnext
        obtain ⟨g, hg⟩ := hnext
        exact ⟨g, hgoes.trans hg⟩
      | ok values =>
        rw [hmap] at hnext
        have hlast : (v :: values).getLast?.or last = values.getLast?.or (some v) := by
          rw [List.getLast?_cons]
          cases values.getLast? <;> rfl
        refine hgoes.trans (hnext.trans ?_)
        show _ = evaluateWith alive (k + 2) (((v :: values).getLast?.or last).elim held held.keep)
          s.size body _
        rw [hlast]
        simp [Frame.extend]

end Bindings

/-! ## Immediate calls and blocks -/

namespace Eval

variable {s : Store} {x y : Eval Term}

/-- Two computations end alike: they give the same value in the same store, or the same fault, and
they leave the scopes that were there alike. -/
structure EndAlike (s : Store) (x y : Eval Term) : Prop where
  ok_iff : ∀ v t, x s = .ok v t ↔ y s = .ok v t
  error_iff : ∀ fault, (∃ t, x s = .error fault t) ↔ ∃ t, y s = .error fault t
  frame_eq : ∀ i < s.size, (storeAfter x s).frame i = (storeAfter y s).frame i

theorem EndAlike.of_eq (h : x s = y s) : EndAlike s x y := by
  refine ⟨fun v t => ?_, fun fault => ?_, fun i _ => ?_⟩
  · rw [h]
  · rw [h]
  · rw [storeAfter, storeAfter, h]

theorem EndAlike.of_error {fault : Fault} {g : Frame} (hx : x s = .error fault s)
    (hy : y s = .error fault (s.push g)) : EndAlike s x y := by
  refine ⟨fun v t => ?_, fun fault' => ?_, fun i hi => ?_⟩
  · rw [hx, hy]
    exact ⟨nofun, nofun⟩
  · rw [hx, hy]
    constructor
    · rintro ⟨_, ⟨⟩⟩
      exact ⟨_, rfl⟩
    · rintro ⟨_, ⟨⟩⟩
      exact ⟨_, rfl⟩
  · rw [storeAfter_of_error hx, storeAfter_of_error hy, Store.frame_push_of_ne g (Nat.ne_of_lt hi)]

end Eval

section Agreement

variable {s : Store} {scope : Nat} {params : List Symbol} {args : List Term}

theorem evaluateWith_immediateCall (hparams : params.Nodup) (hlength : args.length = params.length)
    (hargs : ∀ e ∈ args, e.IsOperand params) (alive : Liveness) (n : Nat) (held : Held)
    (scope : ScopeId) (body : Term) (s : Store) :
    evaluateWith alive (n + 2) held scope (Term.immediateCall params args body) s =
      match args.mapM (s.operand scope) with
      | .error e => .error (.error e) s
      | .ok values =>
        evaluateWith alive (n + 1)
          (((held.enter scope).keep (.closure params body scope)).keepAll values) s.size body
          (s.push { bindings := params.zip values, outer := some scope }) := by
  have hhead := evaluateWith_lambdaForm alive n (held.enter scope) scope params body s
  have hvalues := evaluateArgs_operands hargs alive n
    ((held.enter scope).keep (.closure params body scope)) scope s
  rw [Term.immediateCall, evaluateWith_call rfl, evaluateCall, Eval.bind_of_ok hhead,
    if_pos (by rfl)]
  cases hmap : args.mapM (s.operand scope) with
  | error e =>
    rw [hmap] at hvalues
    exact Eval.bind_of_error hvalues
  | ok values =>
    rw [hmap] at hvalues
    have hcount : params.length = values.length := by
      rw [length_of_evaluateArgs hvalues, hlength]
    have hnames : ((params.zip values).map (·.1)).Nodup := by
      rwa [List.map_fst_zip (Nat.le_of_eq hcount)]
    rw [Eval.bind_of_ok hvalues, (Term.Enters.closure params body scope).applyWith_eq hcount,
      Frame.ofRecords_of_nodup hnames]

theorem evaluateWith_bindingBlock (hs : s.Sound) (hscope : scope < s.size) (hparams : params.Nodup)
    (hlength : args.length = params.length) (hargs : ∀ e ∈ args, e.IsOperand params)
    (alive : Liveness) {n : Nat} (hn : params ≠ [] → 1 ≤ n) (held : Held) (body : Term) :
    match args.mapM (s.operand scope) with
    | .error e =>
      ∃ g, evaluateWith alive (n + 2) held scope (Term.bindingBlock params args body) s =
        .error (.error e) (s.push g)
    | .ok values =>
      evaluateWith alive (n + 2) held scope (Term.bindingBlock params args body) s =
        evaluateWith alive (n + 1)
          (values.getLast?.elim (held.enter scope) (held.enter scope).keep) s.size body
          (s.push { bindings := params.zip values, outer := some scope }) := by
  obtain ⟨first, rest, hparts⟩ : ∃ first rest,
      (params.zip args).map (fun b => Term.bindForm b.1 b.2) ++ [body] = first :: rest :=
    List.exists_cons_of_ne_nil (by simp)
  have hblock : evaluateWith alive (n + 2) held scope (Term.bindingBlock params args body) s =
      evaluateBlock (evaluateWith alive (n + 1)) (held.enter scope) s.size none first rest
        (s.push { outer := some scope }) := by
    rw [Term.bindingBlock, hparts, evaluateWith_form (Keyword.ofTerm?_term .block)]
    rfl
  have hfst : (params.zip args).map (·.1) = params := List.map_fst_zip (Nat.le_of_eq hlength.symm)
  have hsnd : (params.zip args).map (·.2) = args := List.map_snd_zip (Nat.le_of_eq hlength)
  have hlevels : params.zip args ≠ [] → 2 ≤ n + 1 := by
    intro hne
    have := hn fun hnil => hne (by rw [hnil, List.zip_nil_left])
    omega
  have hbindings := evaluateBlock_bindings hs hscope alive (held.enter scope) body hlevels
    (fun b hb => hargs b.2 (List.of_mem_zip hb).2) (f := { outer := some scope }) rfl
    (by rw [hfst]; exact List.Subset.refl _) (by rwa [hfst]) none hparts.symm
  rw [hfst, hsnd] at hbindings
  cases hmap : args.mapM (s.operand scope) with
  | error e =>
    rw [hmap] at hbindings
    obtain ⟨g, hg⟩ := hbindings
    exact ⟨g, hblock.trans hg⟩
  | ok values =>
    rw [hmap] at hbindings
    simpa only [Option.or_none, List.nil_append] using hblock.trans hbindings

theorem evaluateWith_bindingBlock_two (hparams : params ≠ [])
    (hlength : args.length = params.length) (alive : Liveness) (held : Held) (body : Term) :
    ∃ t, evaluateWith alive 2 held scope (Term.bindingBlock params args body) s =
      .error .exhausted t := by
  obtain ⟨p, params, rfl⟩ := List.exists_cons_of_ne_nil hparams
  obtain ⟨a, args, rfl⟩ : ∃ a as, args = a :: as :=
    List.exists_cons_of_length_pos (by rw [hlength]; exact Nat.succ_pos _)
  refine ⟨s.push { outer := some scope }, ?_⟩
  rw [Term.bindingBlock, evaluateWith_form (Keyword.ofTerm?_term .block)]
  exact evaluateBlock_of_error rfl

variable {body : Term} {held : Held}

/-- The scope with the parameters reaches all that an immediate call uses beyond what a block
does. -/
theorem alike_immediateCall {values : List Term} (hlength : values.length = params.length)
    (hbody : ∀ i ∈ body.scopes, Reachable s.links (held.enter scope).references i) :
    Held.Alike (s.push { bindings := params.zip values, outer := some scope })
      ((((held.enter scope).keep (.closure params body scope)).keepAll values).enter s.size)
      ((values.getLast?.elim (held.enter scope) (held.enter scope).keep).enter s.size) := by
  intro t ht i
  have hold : ∀ j ∈ (held.enter scope).references,
      j ∈ ((values.getLast?.elim (held.enter scope) (held.enter scope).keep).enter
        s.size).references :=
    fun j hj => Held.mem_references_enter.2 (.inr (Held.mem_references_last.2 (.inr hj)))
  constructor
  · refine Reachable.of_roots fun r hr => ?_
    rw [Held.mem_references_enter, Held.mem_references_keepAll, Held.mem_references_keep] at hr
    have hnew : Reachable t.links ((values.getLast?.elim (held.enter scope)
        (held.enter scope).keep).enter s.size).references s.size :=
      .of_mem (Held.mem_references_enter.2 (.inl rfl))
    rcases hr with rfl | ⟨v, hv, hr⟩ | hr | hr
    · exact hnew
    · -- the new scope binds the value to a parameter
      rw [← List.map_snd_zip (Nat.le_of_eq hlength)] at hv
      obtain ⟨b, hb, rfl⟩ := List.mem_map.1 hv
      refine hnew.tail (ht s.size (Store.mem_links_iff.2 (.inr (.inl ⟨b, ?_, hr⟩))))
      rw [Store.frame_push_self]
      exact hb
    · rcases List.mem_cons.1 hr with rfl | hr
      · exact .of_mem (hold _ (Held.mem_references_enter.2 (.inl rfl)))
      · exact ((hbody r hr).of_links_subset ((s.grows_push _).trans ht)).mono hold
    · exact .of_mem (hold r hr)
  · refine Reachable.mono fun r hr => ?_
    rw [Held.mem_references_enter, Held.mem_references_last] at hr
    rw [Held.mem_references_enter, Held.mem_references_keepAll, Held.mem_references_keep]
    rcases hr with hr | ⟨v, hv, hr⟩ | hr
    · exact .inl hr
    · exact .inr (.inl ⟨v, List.mem_of_getLast? hv, hr⟩)
    · exact .inr (.inr (.inr hr))

theorem evaluate_immediateCall_cases (hs : s.Sound) (hscope : scope < s.size)
    (hparams : params.Nodup) (hlength : args.length = params.length)
    (hargs : ∀ e ∈ args, e.IsOperand params)
    (hbody : ∀ i ∈ body.scopes, Reachable s.links (held.enter scope).references i) {limit : Nat}
    (hcall : ∀ t, evaluate limit held scope (Term.immediateCall params args body) s ≠
      .error .exhausted t)
    (hblock : ∀ t, evaluate limit held scope (Term.bindingBlock params args body) s ≠
      .error .exhausted t) :
    evaluate limit held scope (Term.immediateCall params args body) s =
        evaluate limit held scope (Term.bindingBlock params args body) s ∨
      ∃ e g, evaluate limit held scope (Term.immediateCall params args body) s =
          .error (.error e) s ∧
        evaluate limit held scope (Term.bindingBlock params args body) s =
          .error (.error e) (s.push g) := by
  match limit with
  | 0 => exact absurd rfl (hcall s)
  | 1 => exact absurd rfl (hcall s)
  | n + 2 =>
    -- a block that binds a name is given up on two levels, while the call is not
    have hn : params ≠ [] → 1 ≤ n := by
      intro hne
      by_contra hzero
      obtain rfl : n = 0 := by omega
      obtain ⟨t, ht⟩ := evaluateWith_bindingBlock_two hne hlength Held.keepsAlive held body
      exact hblock t ht
    have hcalled := evaluateWith_immediateCall hparams hlength hargs Held.keepsAlive n held scope
      body s
    have hbound := evaluateWith_bindingBlock hs hscope hparams hlength hargs Held.keepsAlive hn held
      body
    cases hmap : args.mapM (s.operand scope) with
    | error e =>
      rw [hmap] at hcalled hbound
      obtain ⟨g, hg⟩ := hbound
      exact .inr ⟨e, g, hcalled, hg⟩
    | ok values =>
      rw [hmap] at hcalled hbound
      have hvalues := evaluateArgs_operands hargs Held.keepsAlive n held scope s
      rw [hmap] at hvalues
      have hcount : values.length = params.length := (length_of_evaluateArgs hvalues).trans hlength
      have hsame := evaluate_impartial (n + 1) body (alike_immediateCall hcount hbody)
      exact .inl (hcalled.trans (hsame.trans hbound.symm))

/-- **An immediate call agrees with a block of bindings.** Calling a closure where it is made, with
operands that name none of its parameters, ends like a block that binds the parameters to these
operands before the body, if neither is given up. -/
theorem endAlike_immediateCall {session : Session} (hsession : session.Fresh) {limit : Nat}
    {sources : List String} {m : Moment} (hm : session.Passes limit sources m)
    (hscope : scope < m.store.size) (hparams : params.Nodup)
    (hlength : args.length = params.length) (hargs : ∀ e ∈ args, e.IsOperand params)
    (hbody : ∀ i ∈ body.scopes, Reachable m.store.links (held.enter scope).references i)
    {levels : Nat}
    (hcall : ∀ t, evaluate levels held scope (Term.immediateCall params args body) m.store ≠
      .error .exhausted t)
    (hblock : ∀ t, evaluate levels held scope (Term.bindingBlock params args body) m.store ≠
      .error .exhausted t) :
    Eval.EndAlike m.store (evaluate levels held scope (Term.immediateCall params args body))
      (evaluate levels held scope (Term.bindingBlock params args body)) := by
  have hs := (hm.follows hsession.toSound).sound hsession.store
  rcases evaluate_immediateCall_cases hs hscope hparams hlength hargs hbody hcall hblock with
    heq | ⟨e, g, hcalled, hbound⟩
  · exact .of_eq heq
  · exact .of_error hcalled hbound

/-- The body defines a function that calls itself and refers to both parameters; the second operand
is a name that the session binds. -/
theorem endAlike_immediateCall_recursive :
    let store := (Session.start.run 9 ["(let y 5)"]).2.store
    ∃ (a b y : Symbol) (body : Term), [a.name, b.name, y.name] = ["a", "b", "y"] ∧
      Term.parse "(do (defn f (n) (if (lte n 0) b (f (sub n a)))) (f y))" = .ok body ∧
      (Term.immediateCall [a, b] [.int 2, .symbol y] body).render =
        "((fn (a b) (do (defn f (n) (if (lte n 0) b (f (sub n a)))) (f y))) 2 y)" ∧
      (Term.bindingBlock [a, b] [.int 2, .symbol y] body).render =
        "(do (let a 2) (let b y) (do (defn f (n) (if (lte n 0) b (f (sub n a)))) (f y)))" ∧
      Eval.EndAlike store (evaluate 30 {} 0 (Term.immediateCall [a, b] [.int 2, .symbol y] body))
        (evaluate 30 {} 0 (Term.bindingBlock [a, b] [.int 2, .symbol y] body)) := by
  intro store
  obtain ⟨a, ha⟩ : ∃ a : Symbol, a = ⟨"a", by decide⟩ := ⟨_, rfl⟩
  obtain ⟨b, hb⟩ : ∃ b : Symbol, b = ⟨"b", by decide⟩ := ⟨_, rfl⟩
  obtain ⟨y, hy⟩ : ∃ y : Symbol, y = ⟨"y", by decide⟩ := ⟨_, rfl⟩
  obtain ⟨body, hparse, hcalltext, hblocktext, hcall, hblock⟩ : ∃ body,
      Term.parse "(do (defn f (n) (if (lte n 0) b (f (sub n a)))) (f y))" = .ok body ∧
      (Term.immediateCall [a, b] [.int 2, .symbol y] body).render =
        "((fn (a b) (do (defn f (n) (if (lte n 0) b (f (sub n a)))) (f y))) 2 y)" ∧
      (Term.bindingBlock [a, b] [.int 2, .symbol y] body).render =
        "(do (let a 2) (let b y) (do (defn f (n) (if (lte n 0) b (f (sub n a)))) (f y)))" ∧
      (match evaluate 30 {} 0 (Term.immediateCall [a, b] [.int 2, .symbol y] body) store with
        | .ok v _ => v.render == "5"
        | _ => false) = true ∧
      (match evaluate 30 {} 0 (Term.bindingBlock [a, b] [.int 2, .symbol y] body) store with
        | .ok v _ => v.render == "5"
        | _ => false) = true := by
    subst ha hb hy
    exact ⟨_, rfl, by decide +kernel, by decide +kernel, by decide +kernel, by decide +kernel⟩
  have hm := Session.passes_run 9 Session.start ["(let y 5)"]
  have hscope : 0 < store.size := by decide +kernel
  have hparams : [a, b].Nodup := by
    subst ha hb
    decide
  have hargs : ∀ e ∈ [Term.int 2, .symbol y], e.IsOperand [a, b] := by
    subst ha hb hy
    simp only [List.forall_mem_cons, List.not_mem_nil, false_implies, implies_true, and_true]
    exact ⟨.int 2, .symbol (by decide)⟩
  have hbody : ∀ i ∈ body.scopes, Reachable store.links (Held.enter {} 0).references i := by
    rw [(Term.readable_of_parse hparse).scopes_eq_nil]
    intro i hi
    cases hi
  refine ⟨a, b, y, body, by simp [ha, hb, hy], hparse, hcalltext, hblocktext, ?_⟩
  refine endAlike_immediateCall Session.start_fresh hm hscope hparams rfl hargs hbody
    (fun t ht => ?_) fun t ht => ?_
  · rw [ht] at hcall
    cases hcall
  · rw [ht] at hblock
    cases hblock

end Agreement

end ScopedLisp
