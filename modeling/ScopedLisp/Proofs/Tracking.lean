import ScopedLisp.Proofs.Regions

/-!
# What evaluation keeps of functions

A property of evaluations that every start hands on, and a property of values that every evaluation
with the first one gives to the functions that it makes: such properties hold throughout.

* `Store.Holds`: all that is bound has a property;
* `Activation.Tracks`: what one start hands on;
* `Activation.Tracks.invariant`: what the steps of an evaluation keep;
* **`Activation.Tracks.keeps`**, **`Activation.Tracks.starts`**: what whole evaluations keep;
* `Activation.Tracks.passes`: what their moments keep.
-/

namespace ScopedLisp

/-! ## What stores hold -/

/-- All that is bound has the property. -/
def Store.Holds (P : Term → Prop) (s : Store) : Prop := ∀ i, ∀ b ∈ (s.frame i).bindings, P b.2

namespace Store.Holds

variable {P : Term → Prop} {s : Store}

theorem push (h : s.Holds P) {f : Frame} (hf : ∀ b ∈ f.bindings, P b.2) : (s.push f).Holds P := by
  intro i b hb
  rw [frame_push] at hb
  split_ifs at hb
  · exact hf b hb
  · exact h i b hb

theorem extend (h : s.Holds P) {scope : Nat} (hscope : scope < s.size) {v : Term} (hv : P v)
    (name : Symbol) : (s.modify scope (·.extend name v)).Holds P := by
  intro i b hb
  rw [bindings_extend hscope] at hb
  rcases List.mem_append.1 hb with hb | hb
  · exact h i b hb
  · split_ifs at hb
    · rw [List.mem_singleton.1 hb]
      exact hv
    · cases hb

theorem bind (h : s.Holds P) {scope : Nat} (hscope : scope < s.size) {v : Term} (hv : P v)
    (name : Symbol) : (s.bind scope name v).Holds P := by
  intro i b hb
  rw [apply_frame_bind Frame.bindings fun _ _ => rfl] at hb
  exact h.extend hscope hv name i b hb

end Store.Holds

/-! ## What evaluations keep -/

namespace Activation

/-- **What one start hands on.** Evaluations with the property `L` start evaluations that have it,
as long as the functions that they call have the property `P`, and so have the functions that they
make. -/
structure Tracks (alive : Liveness) (L : Activation → Prop) (P : Term → Prop) : Prop where
  proper {a : Activation} : L a → a.Proper
  plain {v : Term} : v.IsValue 0 → P v
  part {a b : Activation} {items : List Term} : L a → a.Starts alive b → b.scope = a.scope →
    a.term = .list items → b.term ∈ items → L b
  block {a b : Activation} {head : Term} {parts : List Term} : L a → a.Starts alive b →
    Keyword.ofTerm? head = some .block → a.term = .list (head :: parts) → b.term ∈ parts → L b
  body {a b : Activation} {fn : Term} : L a → a.Calls alive fn b → P fn → L b
  made {a : Activation} {fn e : Term} {params : List Symbol} {t : Store} {j : Nat} : L a →
    a.run alive = .ok fn t → a.term.region? j = some (.body params e) → P fn

namespace Tracks

variable {alive : Liveness} {L : Activation → Prop} {P : Term → Prop} (law : Tracks alive L P)
  {a b : Activation} {p : Progress}
include law

theorem started (ha : L a) {j : Nat} (hstart : a.StartsPart alive p j b) : L b := by
  obtain ⟨hlist, hmem⟩ := Term.mem_items_of_part? hstart.part
  cases ho : a.opens with
  | true =>
    obtain ⟨n, head, first, rest, -, hterm, hk⟩ := opens_iff.1 ho
    refine law.block ha hstart.starts hk hterm ?_
    -- the parts of a block come after its head
    have hposition := hstart.position
    have hpart := hstart.part
    rw [hterm] at hposition hpart
    obtain rfl : p.values.length + 1 = j := by simpa [Term.position?, hk] using hposition
    exact List.mem_of_getElem? hpart
  | false => exact law.part ha hstart.starts (hstart.scope.trans (inner_of_not_opens ho)) hlist hmem

/-- **The steps of an evaluation keep the property.** -/
theorem invariant : Invariant alive (fun a => L a ∧ a.store.Holds P)
    (fun _ p => p.store.Holds P ∧ ∀ v ∈ p.values, P v)
    fun _ => Leaves (Store.Holds P) fun v _ => P v where
  begins ha := ⟨opened_of_push ha.2 (ha.2.push (by simp)), by simp⟩
  part := by
    rintro a b p j ⟨ha, -⟩ - ⟨hp, -⟩ hstart
    exact ⟨law.started ha hstart, hstart.store ▸ hp⟩
  gives := by
    rintro a b p j v t - - ⟨-, hvalues⟩ - ⟨ht, hv⟩
    exact ⟨ht, List.forall_mem_append.2 ⟨hvalues, by simpa using hv⟩⟩
  faults _ _ _ _ hb := hb
  body := by
    rintro a b p fn ⟨ha, -⟩ - ⟨hp, hvalues⟩ ⟨hcalls, hargs, -, -⟩
    rw [hargs] at hvalues
    obtain ⟨hfn, hargs⟩ := List.forall_mem_cons.1 hvalues
    refine ⟨law.body ha hcalls hfn, hp.push fun b => ?_⟩
    exact Frame.snd_of_mem_ofRecords fun r hr => hargs r.2 (List.of_mem_zip hr).2
  ends _ _ _ _ hb := hb
  raises _ _ _ hp := hp.1
  returns := by
    rintro a p v t ⟨ha, -⟩ hreaches ⟨hp, hvalues⟩ hreturns hrun
    have hproper := law.proper ha
    have hscope := (hproper.reaches hreaches).scope_lt hproper.toWellFormed
    cases hreturns with
    | atom hterm _ => exact ⟨hp, law.plain (hproper.isValue_of_atom hterm 0)⟩
    | found _ _ h =>
      obtain ⟨i, -, hi⟩ := Store.exists_mem_of_lookup h
      exact ⟨hp, hp i _ hi⟩
    | builtin _ _ _ h => exact ⟨hp, law.plain (Builtin.isValue_of_call h 0)⟩
    | last hlast _ _ => exact ⟨hp, hvalues _ (by simp [hlast])⟩
    | bound _ _ _ hvalue _ =>
      have hv : P v := hvalues v (by simp [hvalue])
      exact ⟨hp.bind hscope hv _, hv⟩
    | defined hk hterm _ _ _ _ =>
      have hv := law.made ha hrun (by rw [hterm]; exact Term.region?_define hk _ _ _)
      exact ⟨hp.bind hscope hv _, hv⟩
    | made hk hterm _ _ =>
      exact ⟨hp, law.made ha hrun (by rw [hterm]; exact Term.region?_lambda hk _ _)⟩

/-- **What a whole evaluation keeps.** -/
theorem keeps (ha : L a) (hs : a.store.Holds P) :
    Leaves (Store.Holds P) (fun v _ => P v) (a.run alive) :=
  law.invariant.run ⟨ha, hs⟩

/-- **What every start keeps**, given the store that it begins with. -/
theorem starts (ha : L a) (hs : a.store.Holds P) (h : a.Starts alive b) : L b ∧ b.store.Holds P :=
  law.invariant.starts ⟨ha, hs⟩ h

/-- **What every moment keeps.** -/
theorem passes {m : Moment} (ha : L a) (hs : a.store.Holds P) (h : a.Passes alive m) :
    m.store.Holds P := by
  have hproper := law.proper ha
  have hreaches : ∀ {p}, a.Reaches alive p → p.store.Holds P ∧ ∀ v ∈ p.values, P v := fun hp =>
    law.invariant.reaches ⟨ha, hs⟩ hp
  cases h with
  | begins => exact hs
  | calls hk hhead hfn hargs =>
    have hend := reaches_args hk hhead hfn hargs []
    rw [List.append_nil] at hend
    exact (hreaches hend).1
  | binds hk hname hvalue hnew =>
    have hend := reaches_value hk hname hvalue
    obtain ⟨ht, hv⟩ := hreaches hend
    exact ht.extend ((hproper.reaches hend).scope_lt hproper.toWellFormed) (hv _ (by simp)) _
  | @defines n held scope head target list body name params s hk hname hparams hnew =>
    have hrun : run alive ⟨n + 1, held, scope, .list [head, target, list, body], s⟩ =
        .ok (.named name params body scope)
          (s.bind scope name (.named name params body scope)) := by
      rw [run, evaluateWith_form hk, evaluateForm_define hname hparams, Eval.define,
        if_neg (by simp [hnew])]
    exact hs.extend hproper.scope_lt (law.made ha hrun (Term.region?_define hk _ _ _)) name
  | ends h => exact ((law.keeps ha hs).of_ok h).1
  | fails h => exact (law.keeps ha hs).of_error h

end Tracks

end Activation

end ScopedLisp
