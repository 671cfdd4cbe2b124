import ScopedLisp.Proofs.Grounded
import ScopedLisp.Proofs.ImmediateCall

/-!
# The frames of calls

A call binds the parameters of a function all at once, in a new scope inside the one of the
function. Parameters can repeat a name: it keeps the place where it stands first, and takes the
argument of the place where it stands last.

* `paramNames_eq_ok_iff`: the lists of parameters are the lists of symbols;
* `Frame.names_ofRecords`, `Frame.get?_ofRecords`: the names and the values of a frame that is made
  from pairs;
* `Frame.IsActivation`: the frames that calls make, by parameters and arguments;
* `Term.IsMade`: the functions of programs;
* **`applyWith_activation`**: what a call does before it evaluates the body.
-/

namespace ScopedLisp

/-! ## Frames made from pairs -/

namespace Frame

variable {name m : Symbol} {value : Term} {table records : List (Symbol × Term)}
  {outer : Option ScopeId}

theorem map_fst_put : (put name value table).map (·.1) =
    if name ∈ table.map (·.1) then table.map (·.1) else table.map (·.1) ++ [name] := by
  split_ifs with h
  · induction table with
    | nil => cases h
    | cons entry table ih =>
      rw [put]
      split_ifs with hentry
      · rfl
      · rw [List.map_cons, List.mem_cons] at h
        rw [List.map_cons, List.map_cons, ih (h.resolve_left fun heq => hentry heq.symm)]
  · rw [put_of_not_mem h, List.map_append]
    rfl

theorem lookup_cons_eq_ite (r : Symbol × Term) :
    (r :: table).lookup m = if m = r.1 then some r.2 else table.lookup m := by
  rw [List.lookup_cons]
  by_cases hm : m = r.1
  · rw [if_pos hm, beq_iff_eq.2 hm]
  · rw [if_neg hm, beq_eq_false_iff_ne.2 hm]

theorem lookup_put :
    (put name value table).lookup m = if m = name then some value else table.lookup m := by
  induction table with
  | nil => exact lookup_cons_eq_ite _
  | cons entry table ih =>
    rw [put, lookup_cons_eq_ite entry]
    by_cases hentry : entry.1 = name
    · rw [if_pos hentry, lookup_cons_eq_ite, hentry]
      split_ifs <;> rfl
    · rw [if_neg hentry, lookup_cons_eq_ite, ih]
      by_cases hm : m = name
      · rw [if_pos hm, if_neg fun h : m = entry.1 => hentry (h.symm.trans hm), if_pos hm]
      · rw [if_neg hm, if_neg hm]

theorem bindings_ofRecords_concat (records : List (Symbol × Term)) (r : Symbol × Term) :
    (ofRecords (records ++ [r]) outer).bindings = put r.1 r.2 (ofRecords records outer).bindings :=
  List.foldl_concat ..

/-- **A frame made from pairs binds each name once, in the order of the first places.** -/
theorem names_ofRecords (records : List (Symbol × Term)) (outer : Option ScopeId) :
    (ofRecords records outer).names = (records.map (·.1)).eraseDups := by
  induction records using List.reverseRecOn with
  | nil => rfl
  | append_singleton records r ih =>
    rw [names] at ih ⊢
    rw [bindings_ofRecords_concat, map_fst_put, ih, List.map_append, List.map_singleton,
      List.eraseDups_append]
    simp only [List.mem_eraseDups]
    split_ifs with hmem
    · simp [List.removeAll, hmem]
    · simp [List.removeAll, hmem, List.eraseDups_cons]

/-- **A frame made from pairs has the last value of each name.** -/
theorem get?_ofRecords (records : List (Symbol × Term)) (outer : Option ScopeId) (m : Symbol) :
    (ofRecords records outer).get? m = records.reverse.lookup m := by
  induction records using List.reverseRecOn with
  | nil => rfl
  | append_singleton records r ih =>
    rw [get?] at ih ⊢
    rw [bindings_ofRecords_concat, lookup_put, ih, List.reverse_concat, lookup_cons_eq_ite]

/-- The frame of a call inside the given scope: it binds the names of the parameters, each once and
in the order in which they first occur, to the arguments at the places where they last occur. -/
structure IsActivation (f : Frame) (params : List Symbol) (args : List Term) (scope : ScopeId) :
    Prop where
  outer_eq : f.outer = some scope
  retained_eq : f.retained = []
  names_eq : f.names = params.eraseDups
  get?_eq : ∀ (i : Nat) (name : Symbol) (value : Term), params[i]? = some name →
    args[i]? = some value → (∀ j : Nat, i < j → params[j]? ≠ some name) →
    f.get? name = some value

theorem isActivation_ofRecords {params : List Symbol} {args : List Term}
    (hcount : params.length = args.length) (scope : ScopeId) :
    (ofRecords (params.zip args) (some scope)).IsActivation params args scope where
  outer_eq := rfl
  retained_eq := rfl
  names_eq := by rw [names_ofRecords, List.map_fst_zip (Nat.le_of_eq hcount)]
  get?_eq := by
    intro i name value hname hvalue hlast
    have hi : (params.zip args)[i]? = some (name, value) :=
      List.getElem?_zip_eq_some.2 ⟨hname, hvalue⟩
    obtain ⟨hlt, hget⟩ := List.getElem?_eq_some_iff.1 hi
    have hsplit : params.zip args =
        (params.zip args).take i ++ (name, value) :: (params.zip args).drop (i + 1) := by
      rw [← hget, List.getElem_cons_drop, List.take_append_drop]
    -- read from the end, the pair comes before all others with its name
    rw [get?_ofRecords, List.lookup_eq_some_iff]
    refine ⟨((params.zip args).drop (i + 1)).reverse, ((params.zip args).take i).reverse, ?_, ?_⟩
    · exact (congrArg List.reverse hsplit).trans (by simp)
    · intro r hr
      obtain ⟨k, hk⟩ := List.mem_iff_getElem?.1 (List.mem_reverse.1 hr)
      rw [List.getElem?_drop, List.getElem?_zip_eq_some] at hk
      rw [bne_iff_ne]
      rintro rfl
      exact hlast _ (by omega) hk.1

end Frame

/-! ## Calls -/

/-- The function is one of a program, with the given parameters, body and scope. -/
inductive Term.IsMade : Term → List Symbol → Term → ScopeId → Prop
  | closure (params : List Symbol) (body : Term) (scope : ScopeId) :
      IsMade (.closure params body scope) params body scope
  | named (name : Symbol) (params : List Symbol) (body : Term) (scope : ScopeId) :
      IsMade (.named name params body scope) params body scope

theorem paramNames_eq_ok_iff {form : Term} {params : List Symbol} :
    paramNames form = .ok params ↔ form = .list (params.map .symbol) := by
  refine ⟨eq_list_of_paramNames, ?_⟩
  rintro rfl
  exact paramNames_map_symbol params

theorem checkCount_eq_ok_iff {params : List Symbol} {args : List Term} {s : Store} :
    checkCount params args s = .ok () s ↔ params.length = args.length := by
  refine ⟨fun h => (Eval.of_checkCount_eq_ok h).1, fun h => ?_⟩
  rw [checkCount, if_pos h]
  rfl

/-- The number of arguments is checked before all else, the scope of a named function included. -/
theorem Term.IsMade.applyWith_of_length_ne {params : List Symbol} {body fn : Term}
    {scope : ScopeId} {args : List Term} (h : fn.IsMade params body scope)
    (hcount : params.length ≠ args.length) (alive : Liveness) (ev : Evaluator) (held : Held)
    (s : Store) : applyWith alive ev held fn args s =
      .error (.error (.argumentCount params.length args.length)) s := by
  cases h with
  | closure =>
    rw [applyWith, checkCount, if_neg hcount]
    rfl
  | named =>
    rw [applyWith, checkCount, if_neg hcount]
    rfl

/-- **The frames of calls.** A call with as many arguments as there are parameters evaluates the
body, while the scope of the function lives, in one new scope inside of it that binds each parameter
to the argument at its last place; any other number of arguments is an error and changes nothing. -/
theorem applyWith_activation {s : Store} {scope : ScopeId}
    (hclosed : ∀ i o : Nat, (s.frame i).outer = some o → o < s.size) (hscope : scope < s.size)
    (params : List Symbol) (body : Term) (args : List Term) (alive : Liveness) (held : Held) :
    (∀ form, paramNames form = .ok params ↔ form = .list (params.map .symbol)) ∧
    (checkCount params args s = .ok () s ↔ params.length = args.length) ∧
    (params.length ≠ args.length → ∀ (fn : Term) (ev : Evaluator), fn.IsMade params body scope →
      applyWith alive ev held fn args s =
        .error (.error (.argumentCount params.length args.length)) s) ∧
    (params.length = args.length →
      (∀ (name : Symbol) (ev : Evaluator), alive held s scope = false →
        applyWith alive ev held (.named name params body scope) args s =
          .error (.error (.scopeReclaimed name)) s) ∧
      ∃ t : Store,
        (∀ (fn : Term) (ev : Evaluator), fn.Enters alive held s params body scope →
          applyWith alive ev held fn args s = ev held s.size body t) ∧
        t.size = s.size + 1 ∧
        (t.frame s.size).IsActivation params args scope ∧
        (∀ name, name ∉ params → t.lookup s.size name = s.lookup scope name) ∧
        ∀ i, i ≠ s.size → t.frame i = s.frame i) := by
  refine ⟨fun form => paramNames_eq_ok_iff, checkCount_eq_ok_iff,
    fun hcount fn ev hfn => hfn.applyWith_of_length_ne hcount alive ev held s,
    fun hcount => ⟨fun name ev hgone => ?_, ?_⟩⟩
  · rw [applyWith_of_not_alive hgone, Eval.bind_of_ok (checkCount_eq_ok_iff.2 hcount)]
    rfl
  · have hframe := Frame.isActivation_ofRecords hcount scope
    refine ⟨s.push (Frame.ofRecords (params.zip args) (some scope)),
      fun fn ev hfn => hfn.applyWith_eq hcount, Store.size_push .., ?_, fun name hname => ?_,
      fun i hi => Store.frame_push_of_ne _ hi⟩
    · rwa [Store.frame_push_self]
    · refine Store.lookup_push_of_outer hclosed rfl hscope (Frame.binds_eq_false_iff.2 ?_)
      rwa [hframe.names_eq, List.mem_eraseDups]

/-- A parameter that stands twice, around one that hides a builtin function. -/
theorem applyWith_activation_repeated :
    let x : Symbol := ⟨"x", by decide⟩
    let s := Session.start.store
    ∃ t : Store,
      (∀ ev, applyWith Held.keepsAlive ev {} (.closure [x, Builtin.add.symbol, x] (.symbol x) 0)
        [.int 1, .int 2, .int 3] s = ev {} s.size (.symbol x) t) ∧
      (t.frame s.size).names = [x, Builtin.add.symbol] ∧
      (t.frame s.size).get? x = some (.int 3) ∧
      (t.frame s.size).get? Builtin.add.symbol = some (.int 2) ∧
      t.lookup s.size Builtin.sub.symbol = some (.builtin .sub) ∧
      t.frame 0 = s.frame 0 := by
  intro x s
  have hzero : 0 < s.size := by decide
  obtain ⟨-, -, -, hpasses⟩ := applyWith_activation Session.start_fresh.store.grounded.outer_lt
    hzero [x, Builtin.add.symbol, x] (.symbol x) [.int 1, .int 2, .int 3] Held.keepsAlive {}
  obtain ⟨-, t, hcall, -, hframe, hlookup, hrest⟩ := hpasses rfl
  refine ⟨t, fun ev => hcall _ ev (.closure ..), hframe.names_eq.trans (by decide),
    hframe.get?_eq 2 x _ rfl rfl fun j hj => ?_,
    hframe.get?_eq 1 Builtin.add.symbol _ rfl rfl fun j hj => ?_, ?_, hrest 0 (by decide)⟩
  · match j, hj with
    | j + 3, _ => simp
  · match j, hj with
    | 2, _ => decide
    | j + 3, _ => simp
  · exact (hlookup _ (by decide)).trans rfl

end ScopedLisp
