import ScopedLisp.Builtin
import ScopedLisp.Proofs.ReadBack
import ScopedLisp.Scope.Lifetime

/-!
# Sound stores

What holds of the values of the language and of every store that evaluation makes.

* `Term.IsValue`: a boolean, an integer in range, or a function whose body is readable and whose
  scope is there;
* `Store.Sound`: scopes lie inside older ones, down to the outermost one, which has the number zero
  and is the only one that retains; all that is bound is a value;
* `Store.Sound.root_eq`: the outermost scope around every scope is the same;
* `Store.Sound.push`, `Store.Sound.bind`: what evaluation does to a store keeps it sound.
-/

namespace ScopedLisp

/-! ## Values -/

namespace Term

/-- The values of the language, with scopes among the first `n`. -/
def IsValue (n : Nat) : Term → Prop
  | bool _ | builtin _ => True
  | int k => inRange k = true
  | closure _ body scope | named _ _ body scope => body.Readable ∧ scope < n
  | _ => False

theorem IsValue.mono {n m : Nat} (hnm : n ≤ m) {t : Term} (h : t.IsValue n) : t.IsValue m := by
  cases t with
  | closure params body scope => exact ⟨h.1, Nat.lt_of_lt_of_le h.2 hnm⟩
  | named name params body scope => exact ⟨h.1, Nat.lt_of_lt_of_le h.2 hnm⟩
  | _ => exact h

theorem scopesOfAll_eq_nil {items : List Term} (h : ∀ t ∈ items, t.scopes = []) :
    scopesOfAll items = [] := by
  induction items with
  | nil => rfl
  | cons t ts ih =>
    rw [scopesOfAll, h t List.mem_cons_self, ih fun u hu => h u (List.mem_cons_of_mem _ hu)]
    rfl

theorem Readable.scopes_eq_nil {t : Term} (h : t.Readable) : t.scopes = [] := by
  induction h with
  | bool b => rfl
  | int _ => rfl
  | symbol _ => rfl
  | list _ ih => exact scopesOfAll_eq_nil ih

/-- A value keeps one scope if it is a closure, and else none. -/
theorem IsValue.scopes_eq {n : Nat} {t : Term} (h : t.IsValue n) :
    t.scopes = t.closureScope?.toList := by
  cases t with
  | closure params body scope =>
    rw [scopes, h.1.scopes_eq_nil]
    rfl
  | named name params body scope => exact h.1.scopes_eq_nil
  | list items => exact h.elim
  | _ => rfl

theorem IsValue.closureScope_lt {n : Nat} {t : Term} (h : t.IsValue n) {i : ScopeId}
    (hi : t.closureScope? = some i) : i < n := by
  cases t with
  | closure params body scope => cases hi; exact h.2
  | _ => cases hi

end Term

namespace Builtin

theorem isValue_of_checked {k : Int} {v : Term} (h : checked k = .ok v) (n : Nat) :
    v.IsValue n := by
  unfold checked at h
  split_ifs at h with hk
  cases h
  exact hk

theorem isValue_of_arithmetic {f : Int → Int → Int} {args : List Term} {v : Term}
    (h : arithmetic f args = .ok v) (n : Nat) : v.IsValue n := by
  unfold arithmetic at h
  cases hp : pairOf toInt args with
  | error e => rw [hp] at h; cases h
  | ok p => rw [hp] at h; exact isValue_of_checked h n

theorem isValue_of_quotient {args : List Term} {v : Term} (h : quotient args = .ok v) (n : Nat) :
    v.IsValue n := by
  unfold quotient at h
  cases hp : pairOf toInt args with
  | error e => rw [hp] at h; cases h
  | ok p =>
    rw [hp] at h
    dsimp only [bind, Except.bind] at h
    split_ifs at h
    exact isValue_of_checked h n

theorem isValue_of_comparison {r : Int → Int → Bool} {args : List Term} {v : Term}
    (h : comparison r args = .ok v) (n : Nat) : v.IsValue n := by
  unfold comparison at h
  cases hp : pairOf toInt args with
  | error e => rw [hp] at h; cases h
  | ok p => rw [hp] at h; cases h; trivial

theorem isValue_of_connective {f : Bool → Bool → Bool} {args : List Term} {v : Term}
    (h : connective f args = .ok v) (n : Nat) : v.IsValue n := by
  unfold connective at h
  cases hp : pairOf toBool args with
  | error e => rw [hp] at h; cases h
  | ok p => rw [hp] at h; cases h; trivial

theorem isValue_of_map_bool {x : Except Error Bool} {f : Bool → Bool} {v : Term}
    (h : x.map (fun b => Term.bool (f b)) = .ok v) (n : Nat) : v.IsValue n := by
  cases x with
  | error e => cases h
  | ok b => cases h; trivial

/-- **A builtin function gives booleans and integers in range**, whatever its operands are. -/
theorem isValue_of_call {b : Builtin} {args : List Term} {v : Term} (h : b.call args = .ok v)
    (n : Nat) : v.IsValue n := by
  cases b <;> simp only [call] at h
  case add | sub | mul => exact isValue_of_arithmetic h n
  case div => exact isValue_of_quotient h n
  case gt | gte | lt | lte => exact isValue_of_comparison h n
  case eq => exact isValue_of_map_bool (f := id) h n
  case neq => exact isValue_of_map_bool h n
  case and | or => exact isValue_of_connective h n
  case not =>
    unfold negation at h
    split at h
    · exact isValue_of_map_bool h n
    · cases h

end Builtin

/-! ## Frames -/

namespace Frame

theorem mem_insertScope {i scope : ScopeId} {scopes : List ScopeId} :
    i ∈ insertScope scope scopes ↔ i = scope ∨ i ∈ scopes := by
  induction scopes with
  | nil => simp [insertScope]
  | cons s rest ih =>
    unfold insertScope
    split_ifs with h1 h2
    · simp
    · subst h2
      simp
    · simp only [List.mem_cons, ih]
      exact or_left_comm

theorem eq_or_mem_of_mem_put {name : Symbol} {value : Term} {table : List (Symbol × Term)}
    {b : Symbol × Term} (hb : b ∈ put name value table) : b = (name, value) ∨ b ∈ table := by
  induction table with
  | nil => exact .inl (List.mem_singleton.1 hb)
  | cons entry rest ih =>
    obtain ⟨n, v⟩ := entry
    unfold put at hb
    split_ifs at hb with hn
    · rcases List.mem_cons.1 hb with rfl | hb
      · exact .inl (by rw [hn])
      · exact .inr (List.mem_cons_of_mem _ hb)
    · rcases List.mem_cons.1 hb with rfl | hb
      · exact .inr List.mem_cons_self
      · exact (ih hb).imp_right (List.mem_cons_of_mem _)

theorem mem_of_mem_ofRecords {records : List (Symbol × Term)} {outer : Option ScopeId}
    {b : Symbol × Term} (hb : b ∈ (ofRecords records outer).bindings) : b ∈ records := by
  have haux : ∀ (records table : List (Symbol × Term)),
      b ∈ records.foldl (fun table record => put record.1 record.2 table) table →
      b ∈ records ∨ b ∈ table := by
    intro records
    induction records with
    | nil => exact fun table hb => .inr hb
    | cons r rs ih =>
      intro table hb
      rcases ih _ hb with hb | hb
      · exact .inl (List.mem_cons_of_mem _ hb)
      · rcases eq_or_mem_of_mem_put hb with rfl | hb
        · exact .inl List.mem_cons_self
        · exact .inr hb
  exact (haux records [] hb).resolve_right List.not_mem_nil

theorem snd_of_mem_ofRecords {P : Term → Prop} {records : List (Symbol × Term)}
    (h : ∀ r ∈ records, P r.2) {outer : Option ScopeId} {b : Symbol × Term}
    (hb : b ∈ (ofRecords records outer).bindings) : P b.2 :=
  h b (mem_of_mem_ofRecords hb)

theorem mem_of_get? {f : Frame} {name : Symbol} {value : Term} (h : f.get? name = some value) :
    (name, value) ∈ f.bindings := by
  obtain ⟨l₁, l₂, hl, -⟩ := List.lookup_eq_some_iff.1 h
  rw [hl]
  simp

end Frame

/-! ## The parts of a store after a change -/

namespace Store

variable {s : Store} {scope i : Nat} {name : Symbol} {value : Term}

theorem frame_push_self (f : Frame) : (s.push f).frame s.size = f := by
  rw [frame_push, if_pos rfl]

theorem frame_push_of_ne (f : Frame) (h : i ≠ s.size) : (s.push f).frame i = s.frame i := by
  rw [frame_push, if_neg h]

theorem apply_frame_modify {α : Type} (g : Frame → α) {change : Frame → Frame}
    (h : ∀ f, g (change f) = g f) : g ((s.modify scope change).frame i) = g (s.frame i) := by
  by_cases hi : i = scope
  · subst hi
    by_cases hlt : i < s.size
    · rw [frame_modify_self hlt, h]
    · rw [frame_of_size_le (by simpa using hlt), frame_of_size_le (by simpa using hlt)]
  · rw [frame_modify_of_ne hi]

theorem apply_frame_retain {α : Type} (g : Frame → α)
    (h : ∀ (f : Frame) (scope : ScopeId), g (f.retain scope) = g f) :
    g ((s.retain scope).frame i) = g (s.frame i) := by
  unfold retain
  dsimp only
  split_ifs
  · rfl
  · exact apply_frame_modify g fun f => h f scope

@[simp]
theorem size_retain : (s.retain scope).size = s.size := by
  unfold retain
  dsimp only
  split_ifs
  · rfl
  · exact size_modify ..

@[simp]
theorem size_bind : (s.bind scope name value).size = s.size := by
  unfold bind
  dsimp only
  split_ifs <;> simp

theorem apply_frame_bind {α : Type} (g : Frame → α)
    (h : ∀ (f : Frame) (scope : ScopeId), g (f.retain scope) = g f) :
    g ((s.bind scope name value).frame i) =
      g ((s.modify scope (·.extend name value)).frame i) := by
  unfold bind
  dsimp only
  split_ifs
  · exact apply_frame_retain g h
  · rfl

theorem outer_extend :
    ((s.modify scope (·.extend name value)).frame i).outer = (s.frame i).outer :=
  apply_frame_modify Frame.outer fun _ => rfl

theorem retained_extend :
    ((s.modify scope (·.extend name value)).frame i).retained = (s.frame i).retained :=
  apply_frame_modify Frame.retained fun _ => rfl

theorem bindings_extend (hscope : scope < s.size) :
    ((s.modify scope (·.extend name value)).frame i).bindings =
      (s.frame i).bindings ++ if i = scope then [(name, value)] else [] := by
  split_ifs with hi
  · subst hi
    rw [frame_modify_self hscope]
    rfl
  · rw [frame_modify_of_ne hi, List.append_nil]

theorem outer_bind : ((s.bind scope name value).frame i).outer = (s.frame i).outer :=
  (apply_frame_bind Frame.outer fun _ _ => rfl).trans outer_extend

theorem bindings_bind (hscope : scope < s.size) :
    ((s.bind scope name value).frame i).bindings =
      (s.frame i).bindings ++ if i = scope then [(name, value)] else [] :=
  (apply_frame_bind Frame.bindings fun _ _ => rfl).trans (bindings_extend hscope)

theorem exists_mem_of_lookup (h : s.lookup i name = some value) :
    ∃ j ∈ s.chain i, (name, value) ∈ (s.frame j).bindings := by
  unfold lookup at h
  cases hf : s.find? i name with
  | none => rw [hf] at h; cases h
  | some j =>
    rw [hf] at h
    exact ⟨j, List.mem_of_find?_eq_some hf, Frame.mem_of_get? h⟩

/-! ## Soundness -/

/-- Scopes lie inside older ones, down to the outermost one, which has the number zero and is the
only one that retains; all that is bound is a value. -/
structure Sound (s : Store) : Prop where
  nonempty : 0 < s.size
  outer_zero : (s.frame 0).outer = none
  outer_lt : ∀ i : Nat, 0 < i → i < s.size → ∃ o : Nat, (s.frame i).outer = some o ∧ o < i
  values : ∀ i, ∀ b ∈ (s.frame i).bindings, b.2.IsValue s.size
  retained_ne : ∀ i : Nat, i ≠ 0 → (s.frame i).retained = []
  retained_lt : ∀ i : Nat, i ∈ (s.frame 0).retained → i < s.size

namespace Sound

theorem getLast?_chainFrom (hs : s.Sound) {steps : Nat} (hi : i < s.size) (hsteps : i < steps) :
    (s.chainFrom steps i).getLast? = some 0 := by
  -- every scope lies inside an older one, so the chain from `i` is over after `i + 1` steps
  induction i using Nat.strong_induction_on generalizing steps with
  | _ i ih =>
  obtain ⟨steps, rfl⟩ : ∃ k, steps = k + 1 := ⟨steps - 1, by omega⟩
  rw [chainFrom]
  by_cases h0 : i = 0
  · subst h0
    rw [hs.outer_zero]
    rfl
  · obtain ⟨o, ho, hlt⟩ := hs.outer_lt i (by omega) hi
    rw [ho]
    dsimp only
    have hlast : (s.chainFrom steps o).getLast? = some 0 := ih o hlt (by omega) (by omega)
    rw [List.getLast?_cons, hlast]
    rfl

/-- **The outermost scope around every scope is the one with the number zero.** -/
theorem root_eq (hs : s.Sound) (hi : i < s.size) : s.root i = 0 := by
  rw [root, chain, hs.getLast?_chainFrom hi hi]
  rfl

theorem outer_some (hs : s.Sound) {o : Nat} (ho : (s.frame i).outer = some o) :
    o < i ∧ i < s.size := by
  have hi : i < s.size := by
    by_contra hge
    rw [frame_of_size_le (by simpa using hge)] at ho
    cases ho
  by_cases h0 : i = 0
  · subst h0
    rw [hs.outer_zero] at ho
    cases ho
  · obtain ⟨o', ho', hlt⟩ := hs.outer_lt i (by omega) hi
    rw [ho] at ho'
    cases ho'
    exact ⟨hlt, hi⟩

theorem push (hs : s.Sound) {f : Frame} {o : Nat} (ho : f.outer = some o) (hlt : o < s.size)
    (hret : f.retained = []) (hval : ∀ b ∈ f.bindings, b.2.IsValue s.size) : (s.push f).Sound := by
  have hzero : (s.push f).frame 0 = s.frame 0 := frame_push_of_ne f (by have := hs.nonempty; omega)
  refine ⟨by simp, by rw [hzero, hs.outer_zero], fun i hpos hi => ?_, fun i b hb => ?_,
    fun i hi => ?_, fun i hi => ?_⟩
  · rw [size_push] at hi
    by_cases h : i = s.size
    · subst h
      exact ⟨o, by rw [frame_push_self, ho], hlt⟩
    · rw [frame_push_of_ne f h]
      exact hs.outer_lt i hpos (by omega)
  · rw [size_push]
    by_cases h : i = s.size
    · subst h
      rw [frame_push_self] at hb
      exact (hval b hb).mono (Nat.le_succ _)
    · rw [frame_push_of_ne f h] at hb
      exact (hs.values i b hb).mono (Nat.le_succ _)
  · by_cases h : i = s.size
    · subst h
      rw [frame_push_self, hret]
    · rw [frame_push_of_ne f h, hs.retained_ne i hi]
  · rw [hzero] at hi
    rw [size_push]
    exact Nat.lt_succ_of_lt (hs.retained_lt i hi)

theorem extend (hs : s.Sound) (hscope : scope < s.size) (hval : value.IsValue s.size) :
    (s.modify scope (·.extend name value)).Sound := by
  refine ⟨by simpa using hs.nonempty, by rw [outer_extend, hs.outer_zero], fun i hpos hi => ?_,
    fun i b hb => ?_, fun i hi => by rw [retained_extend, hs.retained_ne i hi], fun i hi => ?_⟩
  · rw [outer_extend]
    exact hs.outer_lt i hpos (by simpa using hi)
  · rw [bindings_extend hscope, List.mem_append] at hb
    rw [size_modify]
    rcases hb with hb | hb
    · exact hs.values i b hb
    · split_ifs at hb
      · rw [List.mem_singleton] at hb
        subst hb
        exact hval
      · cases hb
  · rw [retained_extend] at hi
    rw [size_modify]
    exact hs.retained_lt i hi

theorem retained_retain (hs : s.Sound) (hscope : scope < s.size) :
    ((s.retain scope).frame i).retained =
      if i = 0 ∧ scope ≠ 0 then Frame.insertScope scope (s.frame 0).retained
      else (s.frame i).retained := by
  unfold Store.retain
  simp only [hs.root_eq hscope]
  by_cases h0 : scope = 0
  · rw [if_pos h0.symm, if_neg (by simp [h0])]
  · -- the scope is not the outermost one, which now retains it
    rw [if_neg (Ne.symm h0)]
    by_cases hi : i = 0
    · subst hi
      rw [frame_modify_self hs.nonempty, if_pos ⟨rfl, h0⟩]
      rfl
    · rw [frame_modify_of_ne hi, if_neg (by simp [hi])]

theorem retain (hs : s.Sound) (hscope : scope < s.size) : (s.retain scope).Sound := by
  have houter : ∀ i : Nat, ((s.retain scope).frame i).outer = (s.frame i).outer := fun i =>
    apply_frame_retain Frame.outer fun _ _ => rfl
  have hbind : ∀ i : Nat, ((s.retain scope).frame i).bindings = (s.frame i).bindings := fun i =>
    apply_frame_retain Frame.bindings fun _ _ => rfl
  refine ⟨by simpa using hs.nonempty, by rw [houter, hs.outer_zero], fun i hpos hi => ?_,
    fun i b hb => ?_, fun i hi => ?_, fun i hi => ?_⟩
  · rw [houter]
    exact hs.outer_lt i hpos (by simpa using hi)
  · rw [hbind] at hb
    rw [size_retain]
    exact hs.values i b hb
  · rw [hs.retained_retain hscope, if_neg (by simp [hi])]
    exact hs.retained_ne i hi
  · rw [size_retain]
    rw [hs.retained_retain hscope] at hi
    split_ifs at hi
    · rcases Frame.mem_insertScope.1 hi with rfl | hi
      · exact hscope
      · exact hs.retained_lt i hi
    · exact hs.retained_lt i hi

/-- **A definition keeps a store sound.** -/
theorem bind (hs : s.Sound) (hscope : scope < s.size) (hval : value.IsValue s.size) :
    (s.bind scope name value).Sound := by
  -- ownership is decided in the store that has the binding already
  have hext : (s.modify scope (·.extend name value)).Sound := hs.extend hscope hval
  unfold Store.bind
  dsimp only
  split_ifs
  · exact hext.retain (by simpa using hscope)
  · exact hext

theorem retained_bind (hs : s.Sound) (hscope : scope < s.size) (hval : value.IsValue s.size) :
    ((s.bind scope name value).frame i).retained =
      if i = 0 ∧ scope ≠ 0 ∧ (s.modify scope (·.extend name value)).owns scope value = true
      then Frame.insertScope scope (s.frame 0).retained else (s.frame i).retained := by
  have hext : (s.modify scope (·.extend name value)).Sound := hs.extend hscope hval
  unfold Store.bind
  dsimp only
  by_cases hown : (s.modify scope (·.extend name value)).owns scope value = true
  · rw [if_pos hown, hext.retained_retain (by simpa using hscope), retained_extend,
      retained_extend]
    simp only [hown, and_true]
  · rw [if_neg hown, retained_extend]
    simp [hown]

theorem mem_retained_bind (hs : s.Sound) (hscope : scope < s.size) (hval : value.IsValue s.size)
    (hi : i ∈ (s.frame 0).retained) : i ∈ ((s.bind scope name value).frame 0).retained := by
  rw [hs.retained_bind hscope hval]
  split_ifs
  · exact Frame.mem_insertScope.2 (.inr hi)
  · exact hi

theorem isValue_of_lookup (hs : s.Sound) {name : Symbol} {value : Term}
    (h : s.lookup i name = some value) : value.IsValue s.size := by
  obtain ⟨j, -, hj⟩ := exists_mem_of_lookup h
  exact hs.values j _ hj

end Sound

end Store

end ScopedLisp
