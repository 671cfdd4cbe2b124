import Mathlib.Algebra.Group.Int.Defs
import ScopedLisp.Proofs.Chains
import ScopedLisp.Proofs.OverlongNumerals

/-!
# The values of a session

Whatever a session evaluates, what comes out and what is bound to names is of one of five kinds, and
never a term that stands for the lack of a value.

* `Term.IsResult`: the values, where functions of a program have been read from source texts;
* `Term.isResult_of_region?`: a form that makes a function makes a result;
* `Term.IsResult.exists_lookup`: a name that is bound to results is found;
* **`Session.Initial.results`**: all values of a session are results, at every moment, so no name
  that is bound around a scope is reported as unbound there.
-/

namespace ScopedLisp

namespace Term

/-- What evaluation can give: a boolean, an integer of 64 bits, a builtin function, or a function of
a program whose name, parameters and body have been read from source texts. -/
inductive IsResult : Term → Prop
  | bool (b : Bool) : IsResult (.bool b)
  | int {n : Int} (hmin : -2 ^ 63 ≤ n) (hmax : n ≤ 2 ^ 63 - 1) : IsResult (.int n)
  | builtin (b : Builtin) : IsResult (.builtin b)
  | closure {params : List Symbol} {body : Term} (scope : ScopeId)
      (hparams : ∀ p ∈ params, ∃ source, parse source = .ok (.symbol p))
      (hbody : ∃ source, parse source = .ok body) : IsResult (.closure params body scope)
  | named {name : Symbol} {params : List Symbol} {body : Term} (scope : ScopeId)
      (hname : ∃ source, parse source = .ok (.symbol name))
      (hparams : ∀ p ∈ params, ∃ source, parse source = .ok (.symbol p))
      (hbody : ∃ source, parse source = .ok body) : IsResult (.named name params body scope)

theorem isResult_of_isValue_zero {v : Term} (hv : v.IsValue 0) : v.IsResult := by
  cases v with
  | bool b => exact .bool b
  | int n =>
    obtain ⟨hmin, hmax⟩ := inRange_iff.1 hv
    exact .int hmin hmax
  | builtin b => exact .builtin b
  | closure | named => exact absurd hv.2 (Nat.not_lt_zero _)
  | _ => exact hv.elim

theorem isResult_of_region? {a : Activation} (ha : a.Proper) {alive : Liveness} {t : Store}
    {fn e : Term} {params : List Symbol} {j : Nat} (hrun : a.run alive = .ok fn t)
    (hregion : a.term.region? j = some (.body params e)) : fn.IsResult := by
  obtain ⟨head, list, hparams, hform⟩ := Activation.of_run_of_region? hrun hregion
  have hread : ∀ {u : Term}, u.Readable → ∃ source, parse source = .ok u :=
    readable_iff_exists_parse.1
  have hnames : list.Readable → ∀ p ∈ params, ∃ source, parse source = .ok (.symbol p) := by
    intro hlist p hp
    rw [eq_list_of_paramNames hparams, readable_list_iff] at hlist
    exact hread (hlist _ (List.mem_map_of_mem hp))
  rcases hform with ⟨-, hterm, -, rfl⟩ | ⟨target, name, -, hterm, -, hname, rfl⟩
  · have hparts := ha.part hterm
    exact .closure _ (hnames (hparts list (by simp))) (hread (hparts e (by simp)))
  · have hparts := ha.part hterm
    have htarget := hparts target (by simp)
    rw [eq_symbol_of_symbol? hname] at htarget
    exact .named _ (hread htarget) (hnames (hparts list (by simp))) (hread (hparts e (by simp)))

theorem IsResult.of_lookup {s : Store} (hs : s.Holds IsResult) {scope : ScopeId} {name : Symbol}
    {v : Term} (hv : s.lookup scope name = some v) : v.IsResult := by
  obtain ⟨j, -, hj⟩ := Store.exists_mem_of_lookup hv
  exact hs j _ hj

theorem IsResult.exists_lookup {s : Store} (hs : s.Holds IsResult) {scope i : ScopeId}
    {name : Symbol} (hi : i ∈ s.chain scope) (hbinds : (s.frame i).binds name = true) :
    ∃ v, v.IsResult ∧ Eval.lookup scope name s = .ok v s := by
  obtain ⟨v, hv⟩ := Store.exists_lookup_iff.2 ⟨i, hi, hbinds⟩
  have hresult := of_lookup hs hv
  refine ⟨v, hresult, Eval.lookup_of_some hv ?_⟩
  rintro rfl
  cases hresult

end Term

namespace Session

variable {session : Session}

theorem Initial.isResult (hs : session.Initial) (limit : Nat) (sources : List String) :
    (∀ m, session.Passes limit sources m → m.store.Holds Term.IsResult) ∧
      ∀ a, session.Evaluates limit sources a → a.store.Holds Term.IsResult ∧
        ∀ v t, a.run Held.keepsAlive = .ok v t → v.IsResult :=
  hs.tracked (fun _ => Term.isResult_of_isValue_zero) fun _ _ _ _ _ _ ha =>
    Term.isResult_of_region? (ha.proper hs.fresh.toSound)

/-- **All values of a session are results**, at every moment and whatever the programs do. So when a
name is reported as unbound, it has been looked up where no scope of the chain binds it. -/
theorem Initial.results (hs : session.Initial) (limit : Nat) (sources : List String) :
    (∀ m, session.Passes limit sources m →
      (∀ i, ∀ b ∈ (m.store.frame i).bindings, b.2.IsResult) ∧
        ∀ scope name i, i ∈ m.store.chain scope → (m.store.frame i).binds name = true →
          ∃ v, v.IsResult ∧ Eval.lookup scope name m.store = .ok v m.store) ∧
    (∀ a v t, session.Evaluates limit sources a → a.run Held.keepsAlive = .ok v t → v.IsResult) ∧
    ∀ name, .error (.error (.unbound name)) ∈ (session.run limit sources).1 →
      ∃ a, session.Evaluates limit sources a ∧ a.term = .symbol name ∧
        ∀ i ∈ a.store.chain a.scope, (a.store.frame i).binds name = false := by
  obtain ⟨hmoments, hevaluations⟩ := hs.isResult limit sources
  refine ⟨fun m hm => ⟨hmoments m hm, fun scope name i => Term.IsResult.exists_lookup
    (hmoments m hm)⟩, fun a v t ha => (hevaluations a ha).2 v t, fun name hname => ?_⟩
  rcases exists_raises hname with ⟨source, -, hparse⟩ | ⟨a, ha, hraises⟩
  · exact absurd (Term.kind_of_parse hparse) (by simp [Error.kind])
  · obtain ⟨hterm, hlookup⟩ := hraises.of_unbound
    refine ⟨a, ha, hterm, fun i hi => ?_⟩
    by_contra hbinds
    rw [Bool.not_eq_false] at hbinds
    obtain ⟨v, hv⟩ := Store.exists_lookup_iff.2 ⟨i, hi, hbinds⟩
    have hresult := Term.IsResult.of_lookup (hevaluations a ha).1 hv
    rw [hlookup v hv] at hresult
    cases hresult

/-- A function that is called where no scope binds a name of its body, after one that fails only
because its result leaves the range. -/
theorem results_unbound :
    ∃ (sources : List String) (h : Symbol), h.name = "h" ∧
      sources = ["(let f (fn (n) (add n 9223372036854775807)))", "(f 1)", "(defn g () h)", "(g)"] ∧
      ((start.run 9 sources).1.map fun
        | .ok _ => "value"
        | .error (.error (.unbound name)) => name.name
        | .error _ => "other") = ["value", "other", "value", "h"] ∧
      (∀ m, start.Passes 9 sources m → ∀ i, ∀ b ∈ (m.store.frame i).bindings, b.2.IsResult) ∧
      ∃ a, start.Evaluates 9 sources a ∧ a.term = .symbol h ∧
        ∀ i ∈ a.store.chain a.scope, (a.store.frame i).binds h = false := by
  obtain ⟨sources, hsources⟩ : ∃ sources, sources =
    ["(let f (fn (n) (add n 9223372036854775807)))", "(f 1)", "(defn g () h)", "(g)"] := ⟨_, rfl⟩
  have hresults : ((start.run 9 sources).1.map fun
      | .ok _ => "value"
      | .error (.error (.unbound name)) => name.name
      | .error _ => "other") = ["value", "other", "value", "h"] := by
    rw [hsources]
    decide +kernel
  have hreport : "h" ∈ ["value", "other", "value", "h"] := by decide
  rw [← hresults, List.mem_map] at hreport
  obtain ⟨r, hr, hname⟩ := hreport
  obtain ⟨hmoments, -, hunbound⟩ := start_initial.results 9 sources
  split at hname
  · exact absurd hname (by decide)
  · next h => exact ⟨sources, h, hname, hsources, hresults, fun m hm => (hmoments m hm).1,
      hunbound h hr⟩
  · exact absurd hname (by decide)

end Session

end ScopedLisp
