import ScopedLisp.Proofs.Progress

/-!
# Invariants of evaluation

What every evaluation keeps follows from what it keeps in going on by one part, in entering a body
and in ending. The induction over nested evaluations is done here, once for all such properties.

* `Leaves`: what is said of the store and of the value that an evaluation leaves;
* `Activation.Invariant`: the steps of an evaluation keep a property;
* **`Activation.Invariant.run`**: so do whole evaluations, however they end;
* `Activation.Invariant.reaches`, `Activation.Invariant.starts`, `Activation.Invariant.occurs`: the
  property holds on the way, too.
-/

namespace ScopedLisp

/-- However an evaluation ends, the store has the property `S`; a value that it gives has the
property `V` in that store. -/
def Leaves (S : Store → Prop) (V : Term → Store → Prop) : EStateM.Result Fault Store Term → Prop
  | .ok v t => S t ∧ V v t
  | .error _ t => S t

namespace Leaves

variable {S : Store → Prop} {V : Term → Store → Prop} {r : EStateM.Result Fault Store Term}
  {x : Eval Term} {s t : Store}

theorem of_ok (h : Leaves S V r) {v : Term} (hr : r = .ok v t) : S t ∧ V v t := by
  rwa [hr] at h

theorem of_error (h : Leaves S V r) {fault : Fault} (hr : r = .error fault t) : S t := by
  rwa [hr] at h

theorem storeAfter (h : Leaves S V (x s)) : S (x.storeAfter s) := by
  cases hx : x s with
  | ok v t =>
    rw [Eval.storeAfter_of_ok hx]
    exact (h.of_ok hx).1
  | error fault t =>
    rw [Eval.storeAfter_of_error hx]
    exact h.of_error hx

theorem mono {S' : Store → Prop} {V' : Term → Store → Prop} (h : Leaves S V r)
    (hS : ∀ t, S t → S' t) (hV : ∀ v t, S t → V v t → V' v t) : Leaves S' V' r := by
  cases r with
  | ok v t => exact ⟨hS t h.1, hV v t h.1 h.2⟩
  | error fault t => exact hS t h

end Leaves

namespace Activation

/-- **What the steps of an evaluation keep.** An evaluation that starts with `Pre` has `Mid` as far
as it comes and ends with `Post`, if those that it starts end so. -/
structure Invariant (alive : Liveness) (Pre : Activation → Prop)
    (Mid : Activation → Progress → Prop)
    (Post : Activation → EStateM.Result Fault Store Term → Prop) : Prop where
  begins {a : Activation} : Pre a → Mid a ⟨[], a.opened⟩
  part {a b : Activation} {p : Progress} {j : Nat} : Pre a → a.Reaches alive p → Mid a p →
    a.StartsPart alive p j b → Pre b
  gives {a b : Activation} {p : Progress} {j : Nat} {v : Term} {t : Store} : Pre a →
    a.Reaches alive p → Mid a p → a.StartsPart alive p j b → Post b (.ok v t) → Mid a (p.give v t)
  faults {a b : Activation} {p : Progress} {j : Nat} {f : Fault} {t : Store} : Pre a →
    a.Reaches alive p → Mid a p → a.StartsPart alive p j b → Post b (.error f t) →
    Post a (.error f t)
  body {a b : Activation} {p : Progress} {fn : Term} : Pre a → a.Reaches alive p → Mid a p →
    a.StartsBody alive p fn b → Pre b
  ends {a b : Activation} {p : Progress} {fn : Term} {r : EStateM.Result Fault Store Term} : Pre a →
    a.Reaches alive p → Mid a p → a.StartsBody alive p fn b → Post b r → Post a r
  raises {a : Activation} {p : Progress} (f : Fault) : Pre a → a.Reaches alive p → Mid a p →
    Post a (.error f p.store)
  returns {a : Activation} {p : Progress} {v : Term} {t : Store} : Pre a → a.Reaches alive p →
    Mid a p → a.Returns p v t → a.run alive = .ok v t → Post a (.ok v t)

namespace Invariant

variable {alive : Liveness} {Pre : Activation → Prop} {Mid : Activation → Progress → Prop}
  {Post : Activation → EStateM.Result Fault Store Term → Prop} (inv : Invariant alive Pre Mid Post)
  {a b : Activation} {p : Progress}
include inv

theorem reaches_of_starts (ha : Pre a)
    (hstarts : ∀ b, a.Starts alive b → Pre b → Post b (b.run alive)) (h : a.Reaches alive p) :
    Mid a p := by
  induction h with
  | refl => exact inv.begins ha
  | tail hp hgoes ih =>
    obtain ⟨hstart, hrun⟩ := hgoes
    have hb := hstarts _ hstart.starts (inv.part ha hp ih hstart)
    exact inv.gives ha hp ih hstart (hrun ▸ hb)

/-- **What whole evaluations keep.** -/
theorem run (ha : Pre a) : Post a (a.run alive) := by
  -- on the limit: an evaluation that is started has one level less
  induction hn : a.limit using Nat.strongRecOn generalizing a with
  | _ n ih =>
  have hstarts : ∀ b, a.Starts alive b → Pre b → Post b (b.run alive) := by
    intro b hb hpre
    have := hb.limit_eq
    exact ih b.limit (by omega) hpre rfl
  obtain ⟨q, hq, hstops⟩ := a.exists_stops alive
  have hmid := inv.reaches_of_starts ha hstarts hq
  generalize hr : a.run alive = r at hstops
  cases hstops with
  | fault hstart hrun =>
    have hb := hstarts _ hstart.starts (inv.part ha hq hmid hstart)
    exact inv.faults ha hq hmid hstart (hrun ▸ hb)
  | body hstart =>
    have hcalls := hstart
    obtain ⟨hcalls, -, -, -⟩ := hcalls
    exact inv.ends ha hq hmid hstart (hstarts _ hcalls.starts (inv.body ha hq hmid hstart))
  | raises => exact inv.raises _ ha hq hmid
  | returns h => exact inv.returns ha hq hmid h hr

theorem reaches (ha : Pre a) (h : a.Reaches alive p) : Mid a p :=
  inv.reaches_of_starts ha (fun _ _ => inv.run) h

/-- **What every start keeps.** -/
theorem starts (ha : Pre a) (h : a.Starts alive b) : Pre b := by
  rcases h.progress with ⟨p, j, hp, hstart, -⟩ | ⟨p, fn, hp, hstart⟩
  · exact inv.part ha hp (inv.reaches ha hp) hstart
  · exact inv.body ha hp (inv.reaches ha hp) hstart

theorem occurs (ha : Pre a) (h : a.Occurs alive b) : Pre b := by
  induction h with
  | refl => exact ha
  | tail _ hstart ih => exact inv.starts ih hstart

end Invariant

end Activation

end ScopedLisp
