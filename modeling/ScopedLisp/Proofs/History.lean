import Mathlib.Data.List.Flatten
import ScopedLisp.Proofs.Invariants
import ScopedLisp.Proofs.SoundStore

/-!
# Histories

All that evaluation does to a store is to make scopes and to bind names. A history lists these
changes in order, so what every change keeps, every evaluation keeps.

* `Change`, `Store.History`: the changes that lead from one store to another;
* `Store.History.bindings_eq` and its neighbours: what a history does to the scopes that were there;
* `Term.targets`: the names that a term can bind in the scope it is evaluated in;
* `Store.Evolves`: a history that binds only such names, and else leaves the old scopes alone;
* **`Activation.evolving`**: the steps of an evaluation do no more than that, and give values;
* **`evaluateWith_yields`**: nor do whole evaluations, however they end.
-/

namespace ScopedLisp

/-! ## Changes -/

/-- One change of a store. -/
inductive Change where
  /-- A scope is made. -/
  | made (f : Frame)
  /-- A name is bound in a scope. -/
  | bound (scope : ScopeId) (name : Symbol) (value : Term)

namespace Change

/-- The store after a change. -/
def apply (s : Store) : Change → Store
  | made f => s.push f
  | bound scope name value => s.bind scope name value

@[simp]
theorem apply_made (s : Store) (f : Frame) : (made f).apply s = s.push f := rfl

@[simp]
theorem apply_bound (s : Store) (scope : ScopeId) (name : Symbol) (value : Term) :
    (bound scope name value).apply s = s.bind scope name value := rfl

/-- The changes that evaluation makes: a new scope lies inside an old one and retains nothing, a
name is bound once, and what is bound is a value. -/
def Allowed (s : Store) : Change → Prop
  | made f =>
    (∃ o : Nat, f.outer = some o ∧ o < s.size) ∧ f.retained = [] ∧
      ∀ b ∈ f.bindings, b.2.IsValue s.size
  | bound scope name value =>
    scope < s.size ∧ (s.frame scope).binds name = false ∧ value.IsValue s.size

theorem sound_apply {s : Store} (hs : s.Sound) {c : Change} (hc : c.Allowed s) :
    (c.apply s).Sound := by
  cases c with
  | made f =>
    obtain ⟨⟨o, ho, hlt⟩, hret, hval⟩ := hc
    exact hs.push ho hlt hret hval
  | bound scope name value => exact hs.bind hc.1 hc.2.2

/-- The bindings that changes make in a scope, in order. -/
def bindingsIn (scope : ScopeId) : List Change → List (Symbol × Term)
  | [] => []
  | made _ :: cs => bindingsIn scope cs
  | bound i name value :: cs => (if scope = i then [(name, value)] else []) ++ bindingsIn scope cs

theorem bindingsIn_append (scope : ScopeId) (cs ds : List Change) :
    bindingsIn scope (cs ++ ds) = bindingsIn scope cs ++ bindingsIn scope ds := by
  induction cs with
  | nil => rfl
  | cons c cs ih =>
    cases c with
    | made f => exact ih
    | bound i name value => simp only [List.cons_append, bindingsIn, ih, List.append_assoc]

theorem bindingsIn_eq_nil {scope : ScopeId} {cs : List Change}
    (h : ∀ name value, bound scope name value ∉ cs) : bindingsIn scope cs = [] := by
  induction cs with
  | nil => rfl
  | cons c cs ih =>
    have hcs := ih fun name value hmem => h name value (List.mem_cons_of_mem _ hmem)
    cases c with
    | made f => exact hcs
    | bound i name value =>
      have hi : scope ≠ i := by
        rintro rfl
        exact h name value List.mem_cons_self
      rw [bindingsIn, if_neg hi, hcs]
      rfl

end Change

/-! ## Histories -/

namespace Store

/-- The changes lead from one store to another. -/
inductive History : Store → List Change → Store → Prop
  | nil (s : Store) : History s [] s
  | cons {s t : Store} {c : Change} {cs : List Change} (hc : c.Allowed s)
      (h : History (c.apply s) cs t) : History s (c :: cs) t

namespace History

variable {s t u : Store} {cs ds : List Change} {i : Nat}

theorem trans (h : History s cs t) (h' : History t ds u) : History s (cs ++ ds) u := by
  induction h with
  | nil => exact h'
  | cons hc _ ih => exact .cons hc (ih h')

/-- **A property that every change keeps holds after every history.** -/
theorem preserves {P : Store → Prop}
    (hstep : ∀ (s : Store) (c : Change), s.Sound → P s → c.Allowed s → P (c.apply s))
    (h : History s cs t) (hs : s.Sound) (hP : P s) : P t := by
  induction h with
  | nil => exact hP
  | cons hc _ ih => exact ih (Change.sound_apply hs hc) (hstep _ _ hs hP hc)

theorem sound (h : History s cs t) (hs : s.Sound) : t.Sound :=
  h.preserves (fun _ _ hs _ hc => Change.sound_apply hs hc) hs hs

theorem size_le (h : History s cs t) : s.size ≤ t.size := by
  induction h with
  | nil => exact Nat.le_refl _
  | @cons s t c cs hc _ ih =>
    cases c with
    | made f => rw [Change.apply_made, size_push] at ih; omega
    | bound scope name value => rw [Change.apply_bound, size_bind] at ih; exact ih

theorem outer_eq (h : History s cs t) (hi : i < s.size) :
    (t.frame i).outer = (s.frame i).outer := by
  induction h with
  | nil => rfl
  | @cons s t c cs hc _ ih =>
    cases c with
    | made f =>
      rw [ih (by rw [Change.apply_made, size_push]; omega), Change.apply_made,
        frame_push_of_ne f (by omega)]
    | bound scope name value =>
      rw [ih (by rw [Change.apply_bound, size_bind]; exact hi), Change.apply_bound, outer_bind]

/-- **A scope keeps its bindings, followed by those that its changes made.** -/
theorem bindings_eq (h : History s cs t) (hi : i < s.size) :
    (t.frame i).bindings = (s.frame i).bindings ++ Change.bindingsIn i cs := by
  induction h with
  | nil => rw [Change.bindingsIn, List.append_nil]
  | @cons s t c cs hc _ ih =>
    cases c with
    | made f =>
      rw [ih (by rw [Change.apply_made, size_push]; omega), Change.apply_made,
        frame_push_of_ne f (by omega)]
      rfl
    | bound scope name value =>
      rw [ih (by rw [Change.apply_bound, size_bind]; exact hi), Change.apply_bound,
        bindings_bind hc.1, List.append_assoc]
      rfl

theorem mem_retained_of_mem (h : History s cs t) (hs : s.Sound) (hi : i ∈ (s.frame 0).retained) :
    i ∈ (t.frame 0).retained := by
  refine h.preserves (P := fun s => i ∈ (s.frame 0).retained) (fun s c hs hi hc => ?_) hs hi
  cases c with
  | made f =>
    have := hs.nonempty
    rwa [Change.apply_made, frame_push_of_ne f (by omega)]
  | bound scope name value => exact hs.mem_retained_bind hc.1 hc.2.2 hi

/-- What the outermost scope newly retains is a scope in which the history bound a name. -/
theorem mem_retained (h : History s cs t) (hs : s.Sound) (hi : i ∈ (t.frame 0).retained) :
    i ∈ (s.frame 0).retained ∨ ∃ name value, Change.bound i name value ∈ cs := by
  induction h with
  | nil => exact .inl hi
  | @cons s t c cs hc _ ih =>
    rcases ih (Change.sound_apply hs hc) hi with hi | ⟨name, value, hmem⟩
    · cases c with
      | made f =>
        have := hs.nonempty
        rw [Change.apply_made, frame_push_of_ne f (by omega)] at hi
        exact .inl hi
      | bound scope name value =>
        rw [Change.apply_bound, hs.retained_bind hc.1 hc.2.2] at hi
        split_ifs at hi
        · rcases Frame.mem_insertScope.1 hi with rfl | hi
          · exact .inr ⟨name, value, List.mem_cons_self⟩
          · exact .inl hi
        · exact .inl hi
    · exact .inr ⟨name, value, List.mem_cons_of_mem _ hmem⟩

end History

end Store

/-! ## The names that a term can bind -/

namespace Term

mutual

/-- The names that evaluating a term can bind in its own scope, in the order of evaluation. Blocks
and functions bind names in scopes of their own. -/
def targets : Term → List Symbol
  | list (head :: rest) =>
    match Keyword.ofTerm? head with
    | some .block | some .lambda => []
    | some .bind =>
      match rest with
      | [target, e] => e.targets ++ target.symbol?.toList
      | _ => []
    | some .choose => targetsOfAll rest
    | some .define =>
      match rest with
      | [target, _, _] => target.symbol?.toList
      | _ => []
    | none => head.targets ++ targetsOfAll rest
  | _ => []

/-- The names that evaluating terms one after the other can bind. -/
def targetsOfAll : List Term → List Symbol
  | [] => []
  | t :: ts => t.targets ++ targetsOfAll ts

end

variable {head : Term}

theorem targets_bind (hk : Keyword.ofTerm? head = some .bind) (target e : Term) :
    (list [head, target, e]).targets = e.targets ++ target.symbol?.toList := by
  rw [targets.eq_def]
  simp only [hk]

theorem targets_choose (hk : Keyword.ofTerm? head = some .choose) (parts : List Term) :
    (list (head :: parts)).targets = targetsOfAll parts := by
  rw [targets.eq_def]
  simp only [hk]

theorem targets_define (hk : Keyword.ofTerm? head = some .define) (target params body : Term) :
    (list [head, target, params, body]).targets = target.symbol?.toList := by
  rw [targets.eq_def]
  simp only [hk]

theorem targets_call (hk : Keyword.ofTerm? head = none) (args : List Term) :
    (list (head :: args)).targets = head.targets ++ targetsOfAll args := by
  rw [targets.eq_def]
  simp only [hk]

end Term

/-! ## Evolution of a store -/

/-- The changes bind names in `scope`, and these are among `names` in their order; else they bind
names only in scopes with numbers from `n` on. -/
structure Change.Within (scope n : Nat) (names : List Symbol) (cs : List Change) : Prop where
  scopes : ∀ (i : Nat) name value, Change.bound i name value ∈ cs → i = scope ∨ n ≤ i
  names : ((Change.bindingsIn scope cs).map (·.1)).Sublist names

namespace Store

/-- A store becomes another one by changes in `scope` and in new scopes; those in `scope` bind some
of the names in their order. -/
def Evolves (scope : Nat) (names : List Symbol) (s t : Store) : Prop :=
  ∃ cs, History s cs t ∧ Change.Within scope s.size names cs

namespace Evolves

variable {scope : Nat} {names more : List Symbol} {s t u : Store}

theorem refl (scope : Nat) (names : List Symbol) (s : Store) : Evolves scope names s s :=
  ⟨[], .nil s, by simp, List.nil_sublist _⟩

theorem mono (h : Evolves scope names s t) (hsub : names.Sublist more) :
    Evolves scope more s t := by
  obtain ⟨cs, hist, hin⟩ := h
  exact ⟨cs, hist, hin.scopes, hin.names.trans hsub⟩

theorem size_le (h : Evolves scope names s t) : s.size ≤ t.size := by
  obtain ⟨cs, hist, -⟩ := h
  exact hist.size_le

theorem history (h : Evolves scope names s t) : ∃ cs, History s cs t := by
  obtain ⟨cs, hist, -⟩ := h
  exact ⟨cs, hist⟩

theorem sound (h : Evolves scope names s t) (hs : s.Sound) : t.Sound := by
  obtain ⟨cs, hist, -⟩ := h
  exact hist.sound hs

theorem trans (h : Evolves scope names s t) (h' : Evolves scope more t u) :
    Evolves scope (names ++ more) s u := by
  obtain ⟨cs, hist, hin⟩ := h
  obtain ⟨ds, hist', hin'⟩ := h'
  refine ⟨cs ++ ds, hist.trans hist', fun i name value hmem => ?_, ?_⟩
  · rcases List.mem_append.1 hmem with hmem | hmem
    · exact hin.scopes i name value hmem
    · have := hist.size_le
      have := hin'.scopes i name value hmem
      omega
  · rw [Change.bindingsIn_append, List.map_append]
    exact hin.names.append hin'.names

theorem bind {name : Symbol} {value : Term} (hscope : scope < s.size)
    (hname : (s.frame scope).binds name = false) (hval : value.IsValue s.size) :
    Evolves scope [name] s (s.bind scope name value) := by
  refine ⟨[.bound scope name value], .cons ⟨hscope, hname, hval⟩ (.nil _),
    fun i name' value' hmem => ?_, ?_⟩
  · rw [List.mem_singleton] at hmem
    cases hmem
    exact .inl rfl
  · rw [Change.bindingsIn, if_pos rfl]
    exact List.Sublist.refl _

theorem bindings_of_ne (h : Evolves scope names s t) {i : Nat} (hi : i < s.size) (hne : i ≠ scope) :
    (t.frame i).bindings = (s.frame i).bindings := by
  obtain ⟨cs, hist, hwithin⟩ := h
  have hnone : Change.bindingsIn i cs = [] := Change.bindingsIn_eq_nil fun name value hmem => by
    have := hwithin.scopes i name value hmem
    omega
  rw [hist.bindings_eq hi, hnone, List.append_nil]

theorem outer_eq (h : Evolves scope names s t) {i : Nat} (hi : i < s.size) :
    (t.frame i).outer = (s.frame i).outer := by
  obtain ⟨cs, hist, -⟩ := h
  exact hist.outer_eq hi

theorem mem_names (h : Evolves scope names s t) (hscope : scope < s.size) {name : Symbol}
    (hname : name ∈ (t.frame scope).names) : name ∈ (s.frame scope).names ∨ name ∈ names := by
  obtain ⟨cs, hist, hin⟩ := h
  rw [Frame.names, hist.bindings_eq hscope, List.map_append, List.mem_append] at hname
  exact hname.imp_right fun hmem => hin.names.subset hmem

theorem inside {f : Frame} {o : Nat} (ho : f.outer = some o) (hlt : o < s.size)
    (hret : f.retained = []) (hval : ∀ b ∈ f.bindings, b.2.IsValue s.size)
    (hscope : scope < s.size) (h : Evolves s.size names (s.push f) t) : Evolves scope [] s t := by
  obtain ⟨cs, hist, hin⟩ := h
  have hscopes : ∀ (i : Nat) name value, Change.bound i name value ∈ Change.made f :: cs →
      s.size ≤ i := by
    intro i name value hmem
    have := hin.scopes i name value (List.mem_of_ne_of_mem Change.noConfusion hmem)
    rw [size_push] at this
    omega
  refine ⟨.made f :: cs, .cons ⟨⟨o, ho, hlt⟩, hret, hval⟩ hist,
    fun i name value hmem => .inr (hscopes i name value hmem), ?_⟩
  -- all names were bound in scopes that `s` does not have, so none of them in `scope`
  rw [Change.bindingsIn_eq_nil fun name value hmem => ?_]
  · exact List.Sublist.refl _
  · have := hscopes scope name value hmem
    omega

end Evolves

end Store

/-! ## Names of the parts that an evaluation has passed -/

namespace Term

/-- The parts of a list. -/
def items : Term → List Term
  | list items => items
  | _ => []

/-- The number of parts that an evaluation has passed when it has the given values. -/
def passed (e : Term) (values : List Term) : Nat :=
  if values = [] then 0 else (e.position? values.dropLast).elim 0 (· + 1)

/-- The names that those of the first `n` parts can bind that are evaluated. -/
def targetsOfPassed (e : Term) (n : Nat) : List Symbol :=
  targetsOfAll ((e.items.take n).drop ((e.position? []).getD 0))

variable {e part v : Term} {es values : List Term} {j : Nat}

theorem targetsOfAll_eq (es : List Term) : targetsOfAll es = es.flatMap targets := by
  induction es with
  | nil => rfl
  | cons e es ih => rw [targetsOfAll, ih, List.flatMap_cons]

theorem targetsOfAll_sublist {fs : List Term} (h : es.Sublist fs) :
    (targetsOfAll es).Sublist (targetsOfAll fs) := by
  rw [targetsOfAll_eq, targetsOfAll_eq]
  exact h.flatMap targets

theorem mem_items_of_part? (h : e.part? j = some part) : e = list e.items ∧ part ∈ e.items := by
  cases e with
  | list items => exact ⟨rfl, List.mem_of_getElem? h⟩
  | _ => cases h

theorem passed_concat (h : e.position? values = some j) (v : Term) :
    e.passed (values ++ [v]) = j + 1 := by
  simp [passed, h]

theorem passed_le (h : e.position? values = some j) :
    e.passed values ≤ j ∧ (e.position? []).getD 0 ≤ j := by
  obtain ⟨head, parts, rfl, ⟨hk, rfl⟩ | ⟨hk, hparts, rfl⟩ | ⟨hk, ⟨_, _, rfl⟩, rfl, rfl⟩ |
    ⟨hk, ⟨_, _, _, rfl⟩, ⟨rfl, rfl⟩ | ⟨b, rfl, rfl⟩⟩⟩ := of_position?_eq_some h
  · cases values <;> simp [passed, position?, hk]
  · obtain ⟨first, rest, rfl⟩ := List.exists_cons_of_ne_nil hparts
    cases values <;> simp [passed, position?, hk]
  · simp [passed, position?, hk]
  · simp [passed, position?, hk]
  · cases b <;> simp [passed, position?, hk]

theorem targetsOfPassed_concat (hj : e.position? values = some j) (hpart : e.part? j = some part) :
    (e.targetsOfPassed (e.passed values) ++ part.targets).Sublist (e.targetsOfPassed (j + 1)) := by
  obtain ⟨hpassed, hfirst⟩ := passed_le hj
  have hitem : e.items[j]? = some part := by
    cases e with
    | list items => exact hpart
    | _ => cases hpart
  have hlt := (List.getElem?_eq_some_iff.1 hitem).1
  have hdrop : (e.items.take (j + 1)).drop ((e.position? []).getD 0) =
      (e.items.take j).drop ((e.position? []).getD 0) ++ [part] := by
    rw [List.take_add_one, hitem, List.drop_append_of_le_length (by simp; omega)]
    rfl
  have hbefore : ((e.items.take (e.passed values)).drop ((e.position? []).getD 0)).Sublist
      ((e.items.take j).drop ((e.position? []).getD 0)) :=
    (List.take_sublist_take_left hpassed).drop _
  rw [targetsOfPassed, targetsOfPassed, hdrop, targetsOfAll_eq (_ ++ [part]), List.flatMap_append,
    ← targetsOfAll_eq]
  simpa using (targetsOfAll_sublist hbefore).append_right part.targets

end Term

/-! ## Evaluation -/

theorem Term.Enters.allowed {alive : Liveness} {held : Held} {s : Store} {fn body : Term}
    {params : List Symbol} {o : ScopeId} (h : fn.Enters alive held s params body o)
    (hfn : fn.IsValue s.size) {values : List Term} (hvalues : ∀ v ∈ values, v.IsValue s.size) :
    body.Readable ∧
      (Change.made (Frame.ofRecords (params.zip values) (some o))).Allowed s := by
  have hbody : body.Readable ∧ o < s.size := by
    cases h with
    | closure => exact hfn
    | named => exact hfn
  exact ⟨hbody.1, ⟨o, rfl, hbody.2⟩, rfl, fun b => Frame.snd_of_mem_ofRecords fun r hr =>
    hvalues r.2 (List.of_mem_zip hr).2⟩

namespace Activation

/-- The scope of an evaluation is there, its term comes from a source text and its store is
sound. -/
structure WellFormed (a : Activation) : Prop where
  scope_lt : a.scope < a.store.size
  readable : a.term.Readable
  sound : a.store.Sound

/-- The names that the parts of the term can bind in the scope that they are evaluated in. -/
def names (a : Activation) : List Symbol :=
  if a.opens then Term.targetsOfAll (a.term.items.drop 1) else a.term.targets

variable {alive : Liveness} {a b : Activation} {p : Progress} {fn : Term} {t : Store} {j : Nat}

theorem StartsPart.names (h : a.StartsPart alive p j b) :
    (a.term.targetsOfPassed (j + 1)).Sublist a.names := by
  have hsub : ∀ (k n : Nat) (es : List Term), (Term.targetsOfAll ((es.take n).drop k)).Sublist
      (Term.targetsOfAll (es.drop k)) := fun k n es =>
    Term.targetsOfAll_sublist ((List.take_sublist n es).drop k)
  obtain ⟨head, parts, hterm, ⟨hk, -⟩ | ⟨hk, hparts, -⟩ | ⟨hk, ⟨target, e, rfl⟩, -, -⟩ |
    ⟨hk, ⟨test, yes, no, rfl⟩, -⟩⟩ := Term.of_position?_eq_some h.position
  · rw [Activation.names, opens_eq_false hterm (by simp [hk]), hterm]
    simpa [Term.targetsOfPassed, Term.position?, hk, Term.targets_call, Term.items,
      Term.targetsOfAll] using hsub 0 (j + 1) (head :: parts)
  · obtain ⟨first, rest, rfl⟩ := List.exists_cons_of_ne_nil hparts
    rw [Activation.names, if_pos (opens_iff.2 ⟨_, head, first, rest, h.starts.limit_eq, hterm, hk⟩),
      hterm]
    simpa [Term.targetsOfPassed, Term.position?, hk, Term.items] using
      hsub 1 (j + 1) (head :: first :: rest)
  · rw [Activation.names, opens_eq_false hterm (by simp [hk]), hterm]
    have hvalue := hsub 2 (j + 1) [head, target, e]
    simp [Term.targetsOfPassed, Term.position?, hk, Term.targets_bind, Term.items,
      Term.targetsOfAll] at hvalue ⊢
    exact hvalue.trans (List.sublist_append_left _ _)
  · rw [Activation.names, opens_eq_false hterm (by simp [hk]), hterm]
    simpa [Term.targetsOfPassed, Term.position?, hk, Term.targets_choose, Term.items] using
      hsub 1 (j + 1) [head, test, yes, no]

theorem Reaches.names (h : a.Reaches alive p) :
    (a.term.targetsOfPassed (a.term.passed p.values)).Sublist a.names := by
  rcases h.cases_tail with rfl | ⟨q, -, hgoes⟩
  · simp [Term.targetsOfPassed, Term.passed, Term.targetsOfAll]
  · obtain ⟨hstart, -⟩ := hgoes
    rw [Progress.give, Term.passed_concat hstart.position]
    exact hstart.names

theorem WellFormed.opened (ha : a.WellFormed) :
    a.opened.Sound ∧ a.inner < a.opened.size ∧ a.store.size ≤ a.opened.size := by
  cases ho : a.opens with
  | true =>
    rw [opened_of_opens ho, inner_of_opens ho]
    exact ⟨ha.sound.push rfl ha.scope_lt rfl (by simp), by simp, by simp⟩
  | false =>
    rw [opened_of_not_opens ho, inner_of_not_opens ho]
    exact ⟨ha.sound, ha.scope_lt, Nat.le_refl _⟩

theorem WellFormed.evolves (ha : a.WellFormed) (h : a.opened.Evolves a.inner a.names t) :
    a.store.Evolves a.scope a.term.targets t := by
  cases ho : a.opens with
  | true =>
    rw [opened_of_opens ho, inner_of_opens ho] at h
    exact (Store.Evolves.inside rfl ha.scope_lt rfl (by simp) ha.scope_lt h).mono
      (List.nil_sublist _)
  | false => rwa [opened_of_not_opens ho, inner_of_not_opens ho, names, if_neg (by simp [ho])] at h

theorem WellFormed.readable_of_part? (ha : a.WellFormed) {e : Term} (h : a.term.part? j = some e) :
    e.Readable := by
  obtain ⟨hlist, hmem⟩ := Term.mem_items_of_part? h
  have hread := ha.readable
  rw [hlist] at hread
  exact Term.readable_list_iff.1 hread e hmem

theorem WellFormed.isValue_of_atom (ha : a.WellFormed)
    (hterm : (∃ b, a.term = .bool b) ∨ ∃ n, a.term = .int n) (n : Nat) : a.term.IsValue n := by
  have hread := ha.readable
  rcases hterm with ⟨b, hterm⟩ | ⟨k, hterm⟩
  · rw [hterm]
    trivial
  · rw [hterm] at hread ⊢
    cases hread with
    | int h => exact h

/-- The store has come from that of an evaluation by changes in the scope of its parts and in new
ones, and its values are values. -/
structure Evolving (a : Activation) (p : Progress) : Prop where
  evolves : a.opened.Evolves a.inner (a.term.targetsOfPassed (a.term.passed p.values)) p.store
  values : ∀ v ∈ p.values, v.IsValue p.store.size

namespace Evolving

theorem sound (h : a.Evolving p) (ha : a.WellFormed) : p.store.Sound := h.evolves.sound ha.opened.1

theorem inner_lt (h : a.Evolving p) (ha : a.WellFormed) : a.inner < p.store.size :=
  Nat.lt_of_lt_of_le ha.opened.2.1 h.evolves.size_le

theorem scope_lt (h : a.Evolving p) (ha : a.WellFormed) : a.scope < p.store.size :=
  Nat.lt_of_lt_of_le ha.scope_lt (ha.opened.2.2.trans h.evolves.size_le)

theorem part (h : a.Evolving p) (ha : a.WellFormed) (hstart : a.StartsPart alive p j b) :
    b.WellFormed where
  scope_lt := by
    rw [hstart.scope, hstart.store]
    exact h.inner_lt ha
  readable := ha.readable_of_part? hstart.part
  sound := by
    rw [hstart.store]
    exact h.sound ha

theorem body (h : a.Evolving p) (ha : a.WellFormed) (hstart : a.StartsBody alive p fn b) :
    b.WellFormed ∧
      ∀ names t, b.store.Evolves b.scope names t → p.store.Evolves a.inner [] t := by
  obtain ⟨-, hvalues, -, henters⟩ := hstart
  have hval := h.values
  rw [hvalues] at hval
  obtain ⟨hfn, hargs⟩ := List.forall_mem_cons.1 hval
  obtain ⟨hbody, ⟨o', ho', hlt⟩, hret, hbound⟩ := henters.allowed hfn hargs
  exact ⟨⟨by simp, hbody, (h.sound ha).push ho' hlt hret hbound⟩, fun names t hevolves =>
    .inside ho' hlt hret hbound (h.inner_lt ha) hevolves⟩

theorem bind (h : a.Evolving p) (ha : a.WellFormed) (ho : a.opens = false) {name : Symbol}
    {v : Term} (hnames : a.names = a.term.targetsOfPassed (a.term.passed p.values) ++ [name])
    (hnew : (p.store.frame a.scope).binds name = false) (hv : v.IsValue p.store.size) :
    a.opened.Evolves a.inner a.names (p.store.bind a.scope name v) ∧
      v.IsValue (p.store.bind a.scope name v).size := by
  have hevolves := h.evolves
  rw [inner_of_not_opens ho] at hevolves ⊢
  rw [hnames, Store.size_bind]
  exact ⟨hevolves.trans (.bind (h.scope_lt ha) hnew hv), hv⟩

theorem returns {v : Term} {t : Store} (hp : a.Evolving p) (ha : a.WellFormed)
    (hreaches : a.Reaches alive p) (hreturns : a.Returns p v t) :
    a.opened.Evolves a.inner a.names t ∧ v.IsValue t.size := by
  have hend := hp.evolves.mono hreaches.names
  have hscope := hp.scope_lt ha
  cases hreturns with
  | atom hterm _ => exact ⟨hend, ha.isValue_of_atom hterm _⟩
  | found _ _ h => exact ⟨hend, (hp.sound ha).isValue_of_lookup h⟩
  | builtin _ _ _ h => exact ⟨hend, Builtin.isValue_of_call h _⟩
  | last hvalues _ _ => exact ⟨hend, hp.values _ (by simp [hvalues])⟩
  | @bound head target e v name hk hterm hname hvalues hnew =>
    have ho : a.opens = false := opens_eq_false hterm (by simp [hk])
    refine hp.bind ha ho ?_ hnew (hp.values v (by simp [hvalues]))
    rw [names, if_neg (by simp [ho]), hterm, hvalues, Term.targets_bind hk, hname]
    simp [Term.targetsOfPassed, Term.passed, Term.position?, hk, Term.items, Term.targetsOfAll]
  | @defined head target list body name params hk hterm hname _ hvalues hnew =>
    have ho : a.opens = false := opens_eq_false hterm (by simp [hk])
    refine hp.bind ha ho ?_ hnew ⟨ha.readable_of_part? (j := 3) (by rw [hterm]; rfl), hscope⟩
    rw [names, if_neg (by simp [ho]), hterm, hvalues, Term.targets_define hk, hname]
    simp [Term.targetsOfPassed, Term.passed, Term.targetsOfAll]
  | @made head list body params hk hterm hparams _ =>
    exact ⟨hend, ha.readable_of_part? (j := 2) (by rw [hterm]; rfl), hscope⟩

end Evolving

/-- **The steps of an evaluation keep to the scope of its parts and to new ones.** -/
theorem evolving (alive : Liveness) : Invariant alive WellFormed Evolving fun a =>
    Leaves (a.opened.Evolves a.inner a.names) fun v t => v.IsValue t.size where
  begins _ := ⟨.refl _ _ _, by simp⟩
  part ha _ hp hstart := hp.part ha hstart
  gives := by
    rintro a b p j v t ha - hp hstart ⟨hb, hv⟩
    have hevolves := (hp.part ha hstart).evolves hb
    rw [hstart.scope, hstart.store] at hevolves
    refine ⟨?_, fun w hw => ?_⟩
    · rw [Progress.give, Term.passed_concat hstart.position]
      exact (hp.evolves.trans hevolves).mono
        (Term.targetsOfPassed_concat hstart.position hstart.part)
    · rcases List.mem_append.1 hw with hw | hw
      · exact (hp.values w hw).mono hevolves.size_le
      · rw [List.mem_singleton.1 hw]
        exact hv
  faults := by
    intro a b p j f t ha _ hp hstart hb
    have hevolves := (hp.part ha hstart).evolves hb
    rw [hstart.scope, hstart.store] at hevolves
    exact (hp.evolves.trans hevolves).mono
      ((Term.targetsOfPassed_concat hstart.position hstart.part).trans hstart.names)
  body ha _ hp hstart := (hp.body ha hstart).1
  ends := by
    intro a b p fn r ha hreaches hp hstart hb
    refine hb.mono (fun t ht => ?_) fun v t _ hv => hv
    obtain ⟨hbody, hinside⟩ := hp.body ha hstart
    have hevolves := hp.evolves.trans (hinside _ t (hbody.evolves ht))
    rw [List.append_nil] at hevolves
    exact hevolves.mono hreaches.names
  raises _ ha hreaches hp := hp.evolves.mono hreaches.names
  returns ha hreaches hp hreturns _ := hp.returns ha hreaches hreturns

end Activation

/-- **Evaluation keeps to its scope and to new ones**, however it ends: it binds there only names
that the term sets, in the order of evaluation, and a result is a value. -/
theorem evaluateWith_yields (alive : Liveness) (limit : Nat) (held : Held) {scope : Nat} {e : Term}
    {s : Store} (hs : s.Sound) (hscope : scope < s.size) (he : e.Readable) :
    Leaves (s.Evolves scope e.targets) (fun v t => v.IsValue t.size)
      (evaluateWith alive limit held scope e s) := by
  have ha : Activation.WellFormed ⟨limit, held, scope, e, s⟩ := ⟨hscope, he, hs⟩
  exact ((Activation.evolving alive).run ha).mono (fun _ => ha.evolves) fun _ _ _ hv => hv

end ScopedLisp
