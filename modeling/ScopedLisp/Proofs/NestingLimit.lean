import ScopedLisp.Proofs.Moments

/-!
# The nesting limit

An evaluation that comes to an end within a nesting limit comes to the same end within every higher
one.

* `Activation.run_raise`: an evaluation that is not given up runs alike with more levels;
* `Session.run_raise`: so does a session in which no program is given up;
* **`run_eq_of_limit_le`**: both, for any two limits.
-/

namespace ScopedLisp

namespace Activation

theorem run_raise {alive : Liveness} {a : Activation} (extra : Nat)
    (h : ∀ t, a.run alive ≠ .error .exhausted t) :
    evaluateWith alive (a.limit + extra) a.held a.scope a.term a.store = a.run alive := by
  -- by induction on the levels: each evaluation that is started has one level less, and it is not
  -- given up either, for its fault would have been passed on
  induction hn : a.limit generalizing a with
  | zero =>
    obtain ⟨limit, held, scope, e, s⟩ := a
    cases hn
    exact absurd rfl (h s)
  | succ n ih =>
    rw [Nat.add_right_comm]
    refine run_congr_of_starts hn (fun b values hb hheld => ?_) fun m values o _ hheld => by
      rw [hheld]
    have hlimit : b.limit = n := by have := hb.limit_eq; omega
    rw [← hheld]
    exact ih (fun t ht => h t (hb.run_eq_error ht)) hlimit

end Activation

namespace Session

theorem eval_raise {limit : Nat} (extra : Nat) {s : Session} {source : String}
    (h : (s.eval limit source).1 ≠ .error .exhausted) :
    s.eval (limit + extra) source = s.eval limit source := by
  cases hparse : Term.parse source with
  | error fault => rw [eval_of_parse_error hparse, eval_of_parse_error hparse]
  | ok e =>
    rw [eval_of_parse_ok hparse] at h
    have hrun : ∀ t, (s.activation limit e).run Held.keepsAlive ≠ .error .exhausted t :=
      fun t ht => h (congrArg Prod.fst (evaluate_of_error ht))
    have hraise : ScopedLisp.evaluate (limit + extra) { scopes := [s.root] } s.root e s.store =
        ScopedLisp.evaluate limit { scopes := [s.root] } s.root e s.store :=
      Activation.run_raise extra hrun
    rw [eval_of_parse_ok hparse, eval_of_parse_ok hparse]
    exact evaluateWith_congr hraise

theorem run_raise {limit : Nat} (extra : Nat) {s : Session} {sources : List String}
    (h : .error .exhausted ∉ (s.run limit sources).1) :
    s.run (limit + extra) sources = s.run limit sources := by
  induction sources generalizing s with
  | nil => rfl
  | cons source sources ih =>
    have hcons : ∀ limit, s.run limit (source :: sources) =
        ((s.eval limit source).1 :: ((s.eval limit source).2.run limit sources).1,
          ((s.eval limit source).2.run limit sources).2) := fun _ => rfl
    rw [hcons, List.mem_cons, not_or] at h
    rw [hcons, hcons, eval_raise extra (Ne.symm h.1), ih h.2]

end Session

/-- **A higher limit changes no answer.** An evaluation that is not given up within a limit, and a
session in which no program is, ends alike and leaves the same store within every higher one. -/
theorem run_eq_of_limit_le {limit limit' : Nat} (hle : limit ≤ limit') :
    (∀ held scope e s, (∀ t, evaluate limit held scope e s ≠ .error .exhausted t) →
      evaluate limit' held scope e s = evaluate limit held scope e s) ∧
    ∀ (session : Session) (sources : List String),
      .error .exhausted ∉ (session.run limit sources).1 →
        session.run limit' sources = session.run limit sources := by
  obtain ⟨extra, rfl⟩ := Nat.exists_eq_add_of_le hle
  refine ⟨fun held scope e s h => ?_, fun session sources h => Session.run_raise extra h⟩
  exact Activation.run_raise (a := ⟨limit, held, scope, e, s⟩) extra h

/-- A function that calls itself, a name that is not bound, and a block that makes a closure; and a
call in the store of a new session. -/
theorem run_eq_of_limit_le_recursive :
    let sources := ["(defn down (n) (if (eq n 0) 0 (down (sub n 1))))", "(down 4)", "(down x)",
      "(let get (do (let k (down 2)) (fn () k)))"]
    .error .exhausted ∉ (Session.start.run 20 sources).1 ∧
      Session.start.run 5000 sources = Session.start.run 20 sources ∧
      ∃ e v t, Term.parse "((fn (x) (add x 1)) 2)" = .ok e ∧ v.render = "3" ∧
        evaluate 3 { scopes := [0] } 0 e Session.start.store = .ok v t ∧
        evaluate 5000 { scopes := [0] } 0 e Session.start.store = .ok v t := by
  intro sources
  have hsettled : ((Session.start.run 20 sources).1.all fun
      | .ok _ => true
      | .error (.error _) => true
      | .error (.word _) => true
      | .error .exhausted => false) = true := by decide +kernel
  have hrun : .error .exhausted ∉ (Session.start.run 20 sources).1 := by
    intro h
    cases List.all_eq_true.1 hsettled _ h
  have hvalue : (Session.start.eval 3 "((fn (x) (add x 1)) 2)").1.toOption.map Term.render =
      some "3" := by decide +kernel
  obtain ⟨v, hv, hrender⟩ : ∃ v, (Session.start.eval 3 "((fn (x) (add x 1)) 2)").1 = .ok v ∧
      v.render = "3" := by
    cases h : (Session.start.eval 3 "((fn (x) (add x 1)) 2)").1 with
    | error fault => rw [h] at hvalue; cases hvalue
    | ok v => rw [h] at hvalue; exact ⟨v, rfl, Option.some.inj hvalue⟩
  obtain ⟨e, t, hparse, he, -⟩ := Session.exists_of_eval_ok hv
  have hne : ∀ t, evaluate 3 { scopes := [0] } 0 e Session.start.store ≠ .error .exhausted t := by
    intro u hu
    cases he.symm.trans hu
  have hle : 20 ≤ 5000 := by decide
  have hle' : 3 ≤ 5000 := by decide
  exact ⟨hrun, (run_eq_of_limit_le hle).2 Session.start sources hrun, e, v, t, hparse, hrender, he,
    ((run_eq_of_limit_le hle').1 { scopes := [0] } 0 e Session.start.store hne).trans he⟩

end ScopedLisp
