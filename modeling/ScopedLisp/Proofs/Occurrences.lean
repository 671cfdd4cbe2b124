import ScopedLisp.Proofs.Tracking

/-!
# Occurrences of terms

Evaluation works on terms, and does not keep where they stand in the source texts. Here is the place
of what an evaluation evaluates: a part of a term stands inside of that term, and the body of a
function stands where the function was made, wherever it is called from.

* `programs`: the terms that the source texts stand for;
* `Occurrence`: a place in the source texts, with the term there and the regions around it;
* `Session.Evaluates`: the evaluations of a session;
* `Session.Locates`: the places of the term that an evaluation evaluates;
* `Session.Locates.term?_eq`: the term stands there;
* `Activation.Tracks.evaluates`, `Activation.Tracks.session_passes`: what whole sessions keep;
* `Session.Initial.tracked`: what all values of a session have;
* **`Session.Evaluates.located`**: no evaluation lacks a place.
-/

namespace ScopedLisp

/-- The terms that are read from source texts. -/
def programs (sources : List String) : List Term :=
  sources.filterMap fun source => (Term.parse source).toOption

theorem mem_programs {sources : List String} {e : Term} :
    e ∈ programs sources ↔ ∃ source ∈ sources, Term.parse source = .ok e := by
  rw [programs, List.mem_filterMap]
  refine exists_congr fun source => and_congr_right fun _ => ?_
  cases Term.parse source with
  | error fault => exact ⟨nofun, nofun⟩
  | ok e' => simp [Except.toOption]

/-- A place in the source texts: the whole of one of them, or a part of a term. -/
inductive Occurrence where
  | program (n : Nat)
  | part (o : Occurrence) (j : Nat)

namespace Occurrence

variable (sources : List String)

/-- The term at a place. -/
def term? : Occurrence → Option Term
  | program n => sources[n]?.bind fun source => (Term.parse source).toOption
  | part o j => (term? o).bind (·.part? j)

/-- The regions that a place lies in, the innermost first. -/
def regions : Occurrence → List Region
  | program _ => []
  | part o j => ((o.term? sources).bind (·.region? j)).toList ++ regions o

variable {sources}

theorem of_term? {P : Term → Prop} (hprograms : ∀ e ∈ programs sources, P e)
    (hpart : ∀ e part j, P e → e.part? j = some part → P part) {o : Occurrence} {e : Term}
    (h : o.term? sources = some e) : P e := by
  induction o generalizing e with
  | program n =>
    obtain ⟨source, hsource, hparse⟩ := Option.bind_eq_some_iff.1 h
    exact hprograms e (List.mem_filterMap.2 ⟨source, List.mem_of_getElem? hsource, hparse⟩)
  | part o j ih =>
    obtain ⟨whole, hwhole, hj⟩ := Option.bind_eq_some_iff.1 h
    exact hpart whole e j (ih hwhole) hj

end Occurrence

namespace Session

section Definitions

variable (limit : Nat) (session : Session) (sources : List String)

/-- The evaluation occurs when the session evaluates the source texts. -/
def Evaluates (a : Activation) : Prop :=
  ∃ n source e, sources[n]? = some source ∧ Term.parse source = .ok e ∧
    ((session.run limit (sources.take n)).2.activation limit e).Occurs Held.keepsAlive a

/-- The term of an evaluation stands at a place in the source texts. Equal parts of a term that are
evaluated in one scope are not told apart, nor are equal functions. -/
inductive Locates : Occurrence → Activation → Prop
  | program {n : Nat} {source : String} {e : Term} (hsource : sources[n]? = some source)
      (hparse : Term.parse source = .ok e) :
      Locates (.program n) ((session.run limit (sources.take n)).2.activation limit e)
  /-- A part that is evaluated in the scope of the whole. -/
  | part {o : Occurrence} {a b : Activation} {j : Nat} (ha : Locates o a)
      (hstart : a.Starts Held.keepsAlive b) (hscope : b.scope = a.scope)
      (hpart : a.term.part? j = some b.term) : Locates (o.part j) b
  /-- A part of a block. -/
  | block {o : Occurrence} {a b : Activation} {j : Nat} {parts : List Term} (ha : Locates o a)
      (hstart : a.Starts Held.keepsAlive b) (hregion : a.term.region? j = some (.block parts))
      (hpart : a.term.part? j = some b.term) : Locates (o.part j) b
  /-- The body of a function, which stands in the form that made the function. -/
  | body {o o' : Occurrence} {a b c : Activation} {fn e : Term} {params : List Symbol} {t : Store}
      {j : Nat} (ha : Locates o a) (hcall : a.Calls Held.keepsAlive fn b) (hc : Locates o' c)
      (hmade : c.run Held.keepsAlive = .ok fn t)
      (hregion : c.term.region? j = some (.body params e)) : Locates (o'.part j) b

/-- If the value is a function of a program, an evaluation with a place made it. -/
def Traced (fn : Term) : Prop :=
  ∀ held s params e i, fn.Enters Held.keepsAlive held s params e i →
    ∃ o c t j names body, session.Locates limit sources o c ∧
      c.run Held.keepsAlive = .ok fn t ∧ c.term.region? j = some (.body names body)

end Definitions

variable {limit : Nat} {session : Session} {sources : List String} {o : Occurrence}
  {a b : Activation}

theorem Evaluates.starts (ha : session.Evaluates limit sources a)
    (h : a.Starts Held.keepsAlive b) : session.Evaluates limit sources b := by
  obtain ⟨n, source, e, hsource, hparse, hoccurs⟩ := ha
  exact ⟨n, source, e, hsource, hparse, hoccurs.tail h⟩

variable (sources) in
theorem Evaluates.append {more : List String}
    (h : (session.run limit sources).2.Evaluates limit more a) :
    session.Evaluates limit (sources ++ more) a := by
  obtain ⟨n, source, e, hsource, hparse, hoccurs⟩ := h
  refine ⟨sources.length + n, source, e, ?_, hparse, ?_⟩
  · rw [List.getElem?_append_right (Nat.le_add_right _ n), Nat.add_sub_cancel_left, hsource]
  · rw [List.take_length_add_append, run_append]
    exact hoccurs

theorem Evaluates.proper (h : session.Evaluates limit sources a) (hs : session.Sound) :
    a.Proper := by
  obtain ⟨n, source, e, hsource, hparse, hoccurs⟩ := h
  exact (hoccurs.proper ((hs.run limit _).activation_proper hparse limit)).1

theorem Locates.evaluates (h : session.Locates limit sources o a) :
    session.Evaluates limit sources a := by
  induction h with
  | program hsource hparse => exact ⟨_, _, _, hsource, hparse, .refl⟩
  | part _ hstart _ _ ih => exact ih.starts hstart
  | block _ hstart _ _ ih => exact ih.starts hstart
  | body _ hcall _ _ _ ih _ => exact ih.starts hcall.starts

theorem Locates.proper (h : session.Locates limit sources o a) (hs : session.Sound) : a.Proper :=
  h.evaluates.proper hs

theorem Locates.term?_eq (h : session.Locates limit sources o a) :
    o.term? sources = some a.term := by
  induction h with
  | program hsource hparse =>
    rw [Occurrence.term?, hsource, Option.bind_some, hparse]
    rfl
  | part _ _ _ hpart ih => rw [Occurrence.term?, ih, Option.bind_some, hpart]
  | block _ _ _ hpart ih => rw [Occurrence.term?, ih, Option.bind_some, hpart]
  | body _ hcall _ hmade hregion _ ih =>
    obtain ⟨-, -, -, -, henters⟩ := hcall
    obtain ⟨-, rfl, -, hpart⟩ := Activation.of_enters_of_region? henters hmade hregion
    rw [Occurrence.term?, ih, Option.bind_some, hpart]

theorem Passes.exists_evaluates {m : Moment} (h : session.Passes limit sources m) :
    (∃ n, m = ⟨{ scopes := [session.root] }, (session.run limit (sources.take n)).2.store⟩) ∨
      ∃ a, session.Evaluates limit sources a ∧ a.Passes Held.keepsAlive m := by
  induction h with
  | rests s sources => exact .inl ⟨0, rfl⟩
  | during hparse hoccurs h => exact .inr ⟨_, ⟨0, _, _, rfl, hparse, hoccurs⟩, h⟩
  | @later s source sources m _ ih =>
    rcases ih with ⟨n, hm⟩ | ⟨a, ⟨n, source', e, hsource, hparse, hoccurs⟩, ha⟩
    · rw [root_eval] at hm
      exact .inl ⟨n + 1, hm⟩
    · exact .inr ⟨a, ⟨n + 1, source', e, hsource, hparse, hoccurs⟩, ha⟩

end Session

/-! ## What sessions keep -/

namespace Activation.Tracks

variable {L : Activation → Prop} {P : Term → Prop} (law : Tracks Held.keepsAlive L P)
  {limit : Nat} {session : Session} {sources : List String} (hstore : session.store.Holds P)
  (hprogram : ∀ n source e, sources[n]? = some source → Term.parse source = .ok e →
    L ((session.run limit (sources.take n)).2.activation limit e))
include law hstore hprogram

theorem holds_run_take (n : Nat) : (session.run limit (sources.take n)).2.store.Holds P := by
  induction n with
  | zero => exact hstore
  | succ n ih =>
    cases hsource : sources[n]? with
    | none =>
      rw [List.take_add_one, hsource]
      simpa using ih
    | some source =>
      rw [Session.run_take_succ hsource]
      cases hparse : Term.parse source with
      | error fault =>
        rw [Session.eval_of_parse_error hparse]
        exact ih
      | ok e =>
        rw [Session.eval_of_parse hparse]
        exact Leaves.storeAfter (law.keeps (hprogram n source e hsource hparse) ih)

/-- **What every evaluation of a session keeps.** -/
theorem evaluates {a : Activation} (h : session.Evaluates limit sources a) :
    L a ∧ a.store.Holds P := by
  obtain ⟨n, source, e, hsource, hparse, hoccurs⟩ := h
  induction hoccurs with
  | refl => exact ⟨hprogram n source e hsource hparse, law.holds_run_take hstore hprogram n⟩
  | tail _ hstart ih => exact law.starts ih.1 ih.2 hstart

/-- **What every moment of a session keeps.** -/
theorem session_passes {m : Moment} (h : session.Passes limit sources m) : m.store.Holds P := by
  rcases h.exists_evaluates with ⟨n, rfl⟩ | ⟨a, ha, hm⟩
  · exact law.holds_run_take hstore hprogram n
  · obtain ⟨hL, hholds⟩ := law.evaluates hstore hprogram ha
    exact law.passes hL hholds hm

end Activation.Tracks

/-! ## Every evaluation has a place -/

namespace Session

variable {limit : Nat} {session : Session} {sources : List String} {o : Occurrence}
  {a b : Activation}

theorem traced_of_isValue {v : Term} (hv : v.IsValue 0) : session.Traced limit sources v := by
  intro held s params e i h
  cases h with
  | closure => exact absurd hv.2 (Nat.not_lt_zero _)
  | named => exact absurd hv.2 (Nat.not_lt_zero _)

theorem Sound.tracks (hs : session.Sound) (limit : Nat) (sources : List String) :
    Activation.Tracks Held.keepsAlive (fun a => ∃ o, session.Locates limit sources o a)
      (session.Traced limit sources) where
  proper := fun ⟨_, ho⟩ => ho.proper hs
  plain := traced_of_isValue
  part := by
    rintro a b items ⟨o, ho⟩ hstart hscope hterm hmem
    obtain ⟨j, hj⟩ := Term.exists_part?_of_mem hmem
    exact ⟨o.part j, .part ho hstart hscope (hterm ▸ hj)⟩
  block := by
    rintro a b head parts ⟨o, ho⟩ hstart hk hterm hmem
    obtain ⟨j, hj⟩ := List.getElem?_of_mem hmem
    refine ⟨o.part (j + 1), .block ho hstart (hterm ▸ Term.region?_block hk parts j) ?_⟩
    rw [hterm]
    exact hj
  body := by
    rintro a b fn ⟨o, ho⟩ hcall hfn
    obtain ⟨o', c, t, j, names, body, hc, hmade, hregion⟩ : ∃ o' c t j names body,
        session.Locates limit sources o' c ∧ c.run Held.keepsAlive = .ok fn t ∧
          c.term.region? j = some (.body names body) := by
      obtain ⟨-, -, -, -, henters⟩ := hcall
      exact hfn _ _ _ _ _ henters
    exact ⟨o'.part j, .body ho hcall hc hmade hregion⟩
  made := fun ⟨o, ho⟩ hmade hregion _ _ _ _ _ _ => ⟨o, _, _, _, _, _, ho, hmade, hregion⟩

theorem Initial.holds (hs : session.Initial) : session.store.Holds (·.IsValue 0) := by
  intro (i : Nat) b hb
  by_cases hi : i = 0
  · subst hi
    obtain ⟨f, hf⟩ := hs.builtins b hb
    rw [hf]
    trivial
  · have hsize := hs.size_eq
    rw [Store.frame_of_size_le (by omega)] at hb
    cases hb

theorem start_holds : start.store.Holds (·.IsValue 0) := start_initial.holds

/-- **What plain values have and every function that a session makes, all its values have**: those
that are bound at any moment or when an evaluation starts, and those that its evaluations give. -/
theorem Initial.tracked (hs : session.Initial) {P : Term → Prop}
    (hplain : ∀ v, v.IsValue 0 → P v)
    (hmade : ∀ a fn t j params e, session.Evaluates limit sources a →
      a.run Held.keepsAlive = .ok fn t → a.term.region? j = some (.body params e) → P fn) :
    (∀ m, session.Passes limit sources m → m.store.Holds P) ∧
      ∀ a, session.Evaluates limit sources a → a.store.Holds P ∧
        ∀ v t, a.run Held.keepsAlive = .ok v t → P v := by
  have law : Activation.Tracks Held.keepsAlive (session.Evaluates limit sources) P :=
    { proper := fun ha => ha.proper hs.fresh.toSound
      plain := fun hv => hplain _ hv
      part := fun ha hstart _ _ _ => ha.starts hstart
      block := fun ha hstart _ _ _ => ha.starts hstart
      body := fun ha hcall _ => ha.starts hcall.starts
      made := fun ha hrun hregion => hmade _ _ _ _ _ _ ha hrun hregion }
  have hstore : session.store.Holds P := fun i b hb => hplain _ (hs.holds i b hb)
  have hprogram : ∀ n source e, sources[n]? = some source → Term.parse source = .ok e →
      session.Evaluates limit sources ((session.run limit (sources.take n)).2.activation limit e) :=
    fun n source e hsource hparse => ⟨n, source, e, hsource, hparse, .refl⟩
  refine ⟨fun m hm => law.session_passes hstore hprogram hm, fun a ha => ?_⟩
  obtain ⟨hL, hholds⟩ := law.evaluates hstore hprogram ha
  exact ⟨hholds, fun v t hrun => ((law.keeps hL hholds).of_ok hrun).2⟩

/-- **Every evaluation of a session has a place in the source texts**, if the session begins without
functions of other programs. -/
theorem Evaluates.located (h : session.Evaluates limit sources a) (hs : session.Sound)
    (hplain : session.store.Holds (·.IsValue 0)) : ∃ o, session.Locates limit sources o a :=
  ((hs.tracks limit sources).evaluates (fun i b hb => traced_of_isValue (hplain i b hb))
    (fun _ _ _ hsource hparse => ⟨_, .program hsource hparse⟩) h).1

end Session

end ScopedLisp
