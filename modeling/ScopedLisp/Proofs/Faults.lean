import ScopedLisp.Proofs.CheckedArithmetic
import ScopedLisp.Proofs.Occurrences

/-!
# Where faults come from

Every fault of a session has an origin: a program that is not read, or an evaluation that fails by
itself. There one of the rules of the language was broken.

* `FailsIn`: the kinds of errors that a computation can end with;
* `Builtin.failsIn_call`, `Term.Refuses.kind_mem`: those of calls;
* `Activation.Raises.of_unbound`: a name is reported as unbound where it is looked up;
* **`Session.exists_raises`**: a session fails to read a program, or an evaluation raises its fault.
-/

namespace ScopedLisp

/-! ## Kinds of errors -/

/-- All errors that can come out are of the given kinds. -/
def FailsIn (kinds : List ErrorKind) {α : Type} (r : Except Error α) : Prop :=
  ∀ e, r = .error e → e.kind ∈ kinds

section FailsIn

variable {kinds : List ErrorKind} {α : Type}

theorem FailsIn.ok (a : α) : FailsIn kinds (.ok a) := nofun

theorem FailsIn.error {e : Error} (he : e.kind ∈ kinds) :
    FailsIn kinds (.error e : Except Error α) := by
  rintro _ ⟨⟩
  exact he

end FailsIn

theorem Builtin.failsIn_call (b : Builtin) (args : List Term) :
    FailsIn [.type, .arity, .arithmetic] (b.call args) := by
  intro e he
  have hout := outcome_call b args
  rw [he] at hout
  cases hout with
  | count => simp [Error.kind]
  | kind => simp [Operands.kind_error]
  | arithmetic _ _ hkind => simp [hkind]

theorem failsIn_paramNames (list : Term) : FailsIn [.type] (paramNames list) := by
  unfold paramNames
  split
  · split
    · exact .ok _
    · exact .error (by decide)
  · exact .error (by decide)

/-! ## Origins -/

theorem Term.Refuses.kind_mem {alive : Liveness} {held : Held} {s : Store} {args : List Term}
    {fn : Term} {e : Error} (h : fn.Refuses alive held s args e) :
    e.kind ∈ [ErrorKind.type, .arity, .scope, .arithmetic] := by
  cases h with
  | builtin h =>
    have hsub : [ErrorKind.type, .arity, .arithmetic] ⊆ [.type, .arity, .scope, .arithmetic] := by
      decide
    exact hsub (Builtin.failsIn_call _ _ _ h)
  | closure | named | reclaimed => simp [Error.kind]

/-- A name is reported as unbound where it is looked up, and not otherwise. -/
theorem Activation.Raises.of_unbound {alive : Liveness} {a : Activation} {name : Symbol}
    (h : a.Raises alive (.error (.unbound name))) :
    a.term = .symbol name ∧ ∀ v, a.store.lookup a.scope name = some v → v = .absent := by
  cases h with
  | unbound h => exact ⟨rfl, h⟩
  | defineParams _ hparams | lambdaParams _ hparams =>
    exact absurd (failsIn_paramNames _ _ hparams) (by simp [Error.kind])
  | refuses _ _ _ hfn => exact absurd hfn.kind_mem (by simp [Error.kind])

/-! ## Faults of sessions -/

namespace Session

variable {limit : Nat} {session : Session} {sources : List String} {fault : Fault}

theorem getElem?_run (limit : Nat) (session : Session) (sources : List String) (n : Nat) :
    (session.run limit sources).1[n]? = sources[n]?.map fun source =>
      ((session.run limit (sources.take n)).2.eval limit source).1 := by
  induction sources generalizing session n with
  | nil => rfl
  | cons source sources ih =>
    cases n with
    | zero => rfl
    | succ n => exact ih (session.eval limit source).2 n

theorem exists_of_eval_error {source : String} (h : (session.eval limit source).1 = .error fault) :
    Term.parse source = .error fault ∨
      ∃ e t, Term.parse source = .ok e ∧
        (session.activation limit e).run Held.keepsAlive = .error fault t := by
  cases hparse : Term.parse source with
  | error fault' =>
    rw [eval_of_parse_error hparse] at h
    cases h
    exact .inl rfl
  | ok e =>
    rw [eval_of_parse_ok hparse] at h
    cases hx : ScopedLisp.evaluate limit { scopes := [session.root] } session.root e
        session.store with
    | ok v t =>
      rw [evaluate_of_ok hx] at h
      cases h
    | error fault' t =>
      rw [evaluate_of_error hx] at h
      cases h
      exact .inr ⟨e, t, rfl, hx⟩

/-- **Every fault of a session has an origin**: a program that is not read, or an evaluation that
raises it. -/
theorem exists_raises (h : .error fault ∈ (session.run limit sources).1) :
    (∃ source ∈ sources, Term.parse source = .error fault) ∨
      ∃ a, session.Evaluates limit sources a ∧ a.Raises Held.keepsAlive fault := by
  obtain ⟨n, hn⟩ := List.getElem?_of_mem h
  rw [getElem?_run] at hn
  obtain ⟨source, hsource, heval⟩ := Option.map_eq_some_iff.1 hn
  rcases exists_of_eval_error heval with hparse | ⟨e, t, hparse, hrun⟩
  · exact .inl ⟨source, List.mem_of_getElem? hsource, hparse⟩
  · obtain ⟨b, hoccurs, hraises, -⟩ := Activation.exists_raises hrun
    exact .inr ⟨b, ⟨n, source, e, hsource, hparse, hoccurs⟩, hraises⟩

end Session

end ScopedLisp
