import ScopedLisp.Proofs.Chains
import ScopedLisp.Proofs.Occurrences
import ScopedLisp.Proofs.Simulation
import ScopedLisp.Proofs.Temporaries

/-!
# Programs in between

A program is evaluated between two others of a session and defines names that they do not use. The
session goes on as it does without that program: later scopes have later numbers, and the outermost
scope binds and keeps more.

* `Interlude`: a program in between, by the stores before and after it;
* `Interlude.Beside`: the stores that correspond with and without it;
* `Interlude.Rooted`: what the outermost scope comes to keep with it;
* `Interlude.Beside.lookup_eq`, `Interlude.Beside.reachable_iff`, `Interlude.Beside.bind`: names,
  lifetime and definitions in both;
* `Interlude.lawful`: evaluation with the program follows evaluation without it;
* `Term.symbols`, `Session.Initial.mem_symbols`: a session uses only names that occur in it;
* `Session.Sound.run_beside`: the programs after it, with and without it;
* **`Session.Initial.run_insert`**: unrelated definitions do not interfere.
-/

namespace ScopedLisp

open Relation

/-- Scopes from number `n` on stand `k` numbers later. -/
def Translation.inserting (n k : Nat) : Translation :=
  .moving fun i => if i < n then i else i + k

/-- A program in between, which ends in some way or other. In the outermost scope it binds some of
the names, and that scope reaches none of the old scopes that it did not reach before. -/
structure Interlude where
  before : Store
  after : Store
  names : List Symbol
  sound : before.Sound
  evolves : before.Evolves 0 names after
  reachable : ∀ i : Nat, i < before.size → Reachable after.links [0] i →
    Reachable before.links [0] i

namespace Interlude

variable (p : Interlude)

/-- The scopes and values that stand for others after the program. -/
def translation : Translation := .inserting p.before.size (p.after.size - p.before.size)

/-- The number of a scope after the program. -/
def scope (i : Nat) : Nat := p.translation.scope i

/-! ## Numbers of scopes -/

variable {p} {i j n : Nat} {v : Term}

theorem scope_of_lt (hi : i < p.before.size) : p.scope i = i := if_pos hi

theorem scope_of_le (hi : p.before.size ≤ i) :
    p.scope i = i + (p.after.size - p.before.size) :=
  if_neg (Nat.not_lt.2 hi)

variable (p) in
theorem scope_zero : p.scope 0 = 0 := scope_of_lt p.sound.nonempty

theorem scope_injective : Function.Injective p.scope := by
  intro i j hij
  by_cases hi : i < p.before.size <;> by_cases hj : j < p.before.size
  · rwa [scope_of_lt hi, scope_of_lt hj] at hij
  · rw [scope_of_lt hi, scope_of_le (by omega)] at hij
    omega
  · rw [scope_of_le (by omega), scope_of_lt hj] at hij
    omega
  · rw [scope_of_le (by omega), scope_of_le (by omega)] at hij
    omega

theorem scope_lt (hi : i < n) : p.scope i < n + (p.after.size - p.before.size) := by
  by_cases hlt : i < p.before.size
  · rw [scope_of_lt hlt]
    omega
  · rw [scope_of_le (by omega)]
    omega

theorem scope_not_between (hj : p.before.size ≤ j) (hj' : j < p.after.size) : p.scope i ≠ j := by
  by_cases hlt : i < p.before.size
  · rw [scope_of_lt hlt]
    omega
  · rw [scope_of_le (by omega)]
    omega

theorem value_eq_self (hv : v.IsValue p.before.size) : p.translation.value v = v :=
  Translation.value_moving_eq_self hv fun _ => scope_of_lt

theorem bindings_eq_self {table : List (Symbol × Term)}
    (h : ∀ b ∈ table, b.2.IsValue p.before.size) : p.translation.bindings table = table := by
  refine (List.map_congr_left fun b hb => ?_).trans (List.map_id table)
  rw [value_eq_self (h b hb)]
  rfl

theorem isValue_value (hv : v.IsValue n) :
    (p.translation.value v).IsValue (n + (p.after.size - p.before.size)) :=
  Translation.isValue_moving hv fun _ => scope_lt

theorem closureScope?_value (v : Term) :
    (p.translation.value v).closureScope? = v.closureScope?.map p.scope :=
  Translation.closureScope?_moving _ v

variable (p)

theorem after_sound : p.after.Sound := p.evolves.sound p.sound

theorem exists_bindings_after : ∃ added,
    (p.after.frame 0).bindings = (p.before.frame 0).bindings ++ added ∧
      (added.map (·.1)).Sublist p.names := by
  obtain ⟨cs, hist, hwithin⟩ := p.evolves
  exact ⟨_, hist.bindings_eq p.sound.nonempty, hwithin.names⟩

theorem get?_after {name : Symbol} (hname : name ∉ p.names) :
    (p.after.frame 0).get? name = (p.before.frame 0).get? name := by
  obtain ⟨added, hadded, hsub⟩ := p.exists_bindings_after
  have hnone : added.lookup name = none := by
    rw [List.lookup_eq_none_iff]
    intro b hb
    have hmem := hsub.subset (List.mem_map_of_mem hb)
    rw [bne_iff_ne]
    rintro rfl
    exact hname hmem
  rw [Frame.get?, hadded, List.lookup_append, hnone, Option.or_none]
  rfl

/-! ## Stores that correspond -/

/-- What the outermost scope may keep with the program, if it keeps the scopes of `s` without it:
these, and of the scopes that the program made those that it kept at its end. -/
def Rooted (s : Store) (j : Nat) : Prop :=
  (∃ i, p.scope i = j ∧ Reachable s.links [0] i) ∨
    p.before.size ≤ j ∧ j < p.after.size ∧ Reachable p.after.links [0] j

/-- The stores that a session comes to without the program and with it. All scopes have the same
bindings, apart from the outermost one, which has those of the program as well, and those that the
program made, which stay as they are. What the outermost scope retains only with the program, it
keeps in another way without it. -/
structure Beside (s s' : Store) : Prop where
  le_size : p.before.size ≤ s.size
  size_eq : s'.size = s.size + (p.after.size - p.before.size)
  sound : s'.Sound
  outer_eq : ∀ i, (s'.frame (p.scope i)).outer = (s.frame i).outer.map p.scope
  bindings_eq : ∀ i, 0 < i →
    (s'.frame (p.scope i)).bindings = p.translation.bindings (s.frame i).bindings
  root : ∃ rest, (s.frame 0).bindings = (p.before.frame 0).bindings ++ rest ∧
    (s'.frame 0).bindings = (p.after.frame 0).bindings ++ p.translation.bindings rest
  between : ∀ j, p.before.size ≤ j → j < p.after.size →
    (s'.frame j).outer = (p.after.frame j).outer ∧
      (s'.frame j).bindings = (p.after.frame j).bindings
  reachable : ∀ i, Reachable p.before.links [0] i → Reachable s.links [0] i
  retained : ∀ i ∈ (s.frame 0).retained, p.scope i ∈ (s'.frame 0).retained
  rooted : ∀ j ∈ (s'.frame 0).retained, p.Rooted s j

variable {p} {s s' t : Store}

theorem Rooted.mono (h : p.Rooted s j)
    (hst : ∀ i, Reachable s.links [0] i → Reachable t.links [0] i) : p.Rooted t j :=
  h.imp_left fun ⟨i, hi, hreach⟩ => ⟨i, hi, hst i hreach⟩

/-- Of the scopes with a number from outside of the program, the outermost one keeps no others. -/
theorem Rooted.reachable (h : p.Rooted s (p.scope i)) : Reachable s.links [0] i := by
  rcases h with ⟨k, hk, hreach⟩ | ⟨hle, hlt, -⟩
  · rwa [← scope_injective hk]
  · exact absurd rfl (scope_not_between hle hlt)

theorem rooted_of_after (hs : ∀ i, Reachable p.before.links [0] i → Reachable s.links [0] i)
    (hj : Reachable p.after.links [0] j) : p.Rooted s j := by
  by_cases hlt : j < p.before.size
  · exact .inl ⟨j, scope_of_lt hlt, hs j (p.reachable j hlt hj)⟩
  · have hzero : ∀ r ∈ [0], r < p.after.size := by simpa using p.after_sound.nonempty
    exact .inr ⟨Nat.le_of_not_lt hlt, p.after_sound.reachable_lt hzero hj, hj⟩

namespace Beside

variable (h : p.Beside s s') {scope : Nat} {name : Symbol}
include h

theorem scope_lt_size (hi : i < s.size) : p.scope i < s'.size := by
  rw [h.size_eq]
  exact scope_lt hi

theorem isValue (hv : v.IsValue s.size) : (p.translation.value v).IsValue s'.size := by
  rw [h.size_eq]
  exact isValue_value hv

/-! ### Names -/

theorem get?_eq (hname : name ∉ p.names) (i : Nat) :
    (s'.frame (p.scope i)).get? name = ((s.frame i).get? name).map p.translation.value := by
  by_cases h0 : i = 0
  · subst h0
    obtain ⟨rest, hroot, hroot'⟩ := h.root
    have hbefore : ((p.before.frame 0).get? name).map p.translation.value =
        (p.before.frame 0).get? name := by
      cases hget : (p.before.frame 0).get? name with
      | none => rfl
      | some w => exact congrArg some (value_eq_self (p.sound.values 0 _ (Frame.mem_of_get? hget)))
    calc (s'.frame (p.scope 0)).get? name
        = ((p.after.frame 0).get? name).or ((p.translation.bindings rest).lookup name) := by
          rw [p.scope_zero, Frame.get?, hroot', List.lookup_append]
          rfl
      _ = (((p.before.frame 0).get? name).map p.translation.value).or
            ((rest.lookup name).map p.translation.value) := by
          rw [p.get?_after hname, hbefore, Translation.lookup_bindings]
      _ = ((s.frame 0).get? name).map p.translation.value := by
          rw [← Option.map_or, Frame.get?, Frame.get?, hroot, List.lookup_append]
  · rw [Frame.get?, h.bindings_eq i (Nat.pos_of_ne_zero h0), Translation.lookup_bindings]
    rfl

theorem binds_eq (hname : name ∉ p.names) (i : Nat) :
    (s'.frame (p.scope i)).binds name = (s.frame i).binds name := by
  rw [Frame.binds, h.get?_eq hname, Option.isSome_map]
  rfl

/-- **Names that the program does not bind are found alike.** -/
theorem lookup_eq (hs : s.Sound) (hname : name ∉ p.names) (hi : i < s.size) :
    s'.lookup (p.scope i) name = (s.lookup i name).map p.translation.value := by
  -- on the scope: those around it have smaller numbers
  induction i using Nat.strong_induction_on with
  | _ i ih =>
  have hget := h.get?_eq hname i
  have houter := h.outer_eq i
  cases hv : (s.frame i).get? name with
  | some v =>
    rw [hv] at hget
    rw [Store.lookup_of_get?_some hi hv, Store.lookup_of_get?_some (h.scope_lt_size hi) hget]
    rfl
  | none =>
    rw [hv] at hget
    cases ho : (s.frame i).outer with
    | none =>
      rw [ho] at houter
      rw [Store.lookup_of_outer_none hv hi ho,
        Store.lookup_of_outer_none hget (h.scope_lt_size hi) houter]
      rfl
    | some o =>
      have hlt := (hs.outer_some ho).1
      rw [ho] at houter
      rw [hs.lookup_of_outer_some hv ho, h.sound.lookup_of_outer_some hget houter]
      exact ih o hlt (Nat.lt_trans hlt hi)

/-! ### Links -/

theorem mem_bindings {b : Symbol × Term} (hb : b ∈ (s.frame i).bindings) :
    (b.1, p.translation.value b.2) ∈ (s'.frame (p.scope i)).bindings := by
  by_cases h0 : i = 0
  · subst h0
    obtain ⟨rest, hroot, hroot'⟩ := h.root
    obtain ⟨added, hadded, -⟩ := p.exists_bindings_after
    rw [p.scope_zero, hroot', hadded]
    rw [hroot] at hb
    rcases List.mem_append.1 hb with hb | hb
    · rw [value_eq_self (p.sound.values 0 b hb)]
      simp [hb]
    · exact List.mem_append_right _ (List.mem_map_of_mem hb)
  · rw [h.bindings_eq i (Nat.pos_of_ne_zero h0)]
    exact List.mem_map_of_mem hb

theorem of_mem_bindings {b : Symbol × Term} (hb : b ∈ (s'.frame (p.scope i)).bindings) :
    (∃ c ∈ (s.frame i).bindings, (c.1, p.translation.value c.2) = b) ∨
      i = 0 ∧ b ∈ (p.after.frame 0).bindings := by
  by_cases h0 : i = 0
  · subst h0
    obtain ⟨rest, hroot, hroot'⟩ := h.root
    rw [p.scope_zero, hroot'] at hb
    rcases List.mem_append.1 hb with hb | hb
    · exact .inr ⟨rfl, hb⟩
    · obtain ⟨c, hc, hcb⟩ := List.mem_map.1 hb
      exact .inl ⟨c, by rw [hroot]; exact List.mem_append_right _ hc, hcb⟩
  · rw [h.bindings_eq i (Nat.pos_of_ne_zero h0)] at hb
    exact .inl (List.mem_map.1 hb)

theorem mem_ownershipLinks (hj : j ∈ s.ownershipLinks i) :
    p.scope j ∈ s'.ownershipLinks (p.scope i) := by
  rcases List.mem_append.1 hj with hj | hj
  · refine List.mem_append_left _ ?_
    rw [h.outer_eq, Option.mem_toList.1 hj]
    exact List.mem_cons_self
  · obtain ⟨b, hb, hscope⟩ := List.mem_filterMap.1 hj
    refine List.mem_append_right _ (List.mem_filterMap.2 ⟨_, h.mem_bindings hb, ?_⟩)
    rw [closureScope?_value, hscope]
    rfl

/-- Ownership leads on as without the program, or to what the outermost scope keeps. -/
theorem of_mem_ownershipLinks (hj : j ∈ s'.ownershipLinks (p.scope i)) :
    (∃ k ∈ s.ownershipLinks i, p.scope k = j) ∨ p.Rooted s j := by
  rcases List.mem_append.1 hj with houter | hclosure
  · rw [h.outer_eq, Option.mem_toList] at houter
    obtain ⟨o, ho, hoj⟩ := Option.map_eq_some_iff.1 houter
    exact .inl ⟨o, List.mem_append_left _ (Option.mem_toList.2 ho), hoj⟩
  · obtain ⟨b, hb, hscope⟩ := List.mem_filterMap.1 hclosure
    rcases h.of_mem_bindings hb with ⟨c, hc, rfl⟩ | ⟨-, hb⟩
    · rw [closureScope?_value] at hscope
      obtain ⟨o, ho, hoj⟩ := Option.map_eq_some_iff.1 hscope
      exact .inl ⟨o, List.mem_append_right _ (List.mem_filterMap.2 ⟨c, hc, ho⟩), hoj⟩
    · have hlink : j ∈ p.after.ownershipLinks 0 :=
        List.mem_append_right _ (List.mem_filterMap.2 ⟨b, hb, hscope⟩)
      have hreach : Reachable p.after.links [0] 0 := .of_mem List.mem_cons_self
      exact .inr (rooted_of_after h.reachable
        (hreach.tail (p.after_sound.mem_links_iff_owned.2 (.inl hlink))))

theorem mem_links (hs : s.Sound) (hj : j ∈ s.links i) : p.scope j ∈ s'.links (p.scope i) := by
  rcases hs.mem_links_iff_owned.1 hj with howned | ⟨rfl, hret⟩
  · exact h.sound.mem_links_iff_owned.2 (.inl (h.mem_ownershipLinks howned))
  · exact h.sound.mem_links_iff_owned.2 (.inr ⟨p.scope_zero, h.retained j hret⟩)

theorem of_mem_links (hs : s.Sound) (hj : j ∈ s'.links (p.scope i)) :
    (∃ k ∈ s.links i, p.scope k = j) ∨ p.Rooted s j := by
  rcases h.sound.mem_links_iff_owned.1 hj with howned | ⟨-, hret⟩
  · refine (h.of_mem_ownershipLinks howned).imp_left fun ⟨k, hk, hkj⟩ => ⟨k, ?_, hkj⟩
    exact hs.mem_links_iff_owned.2 (.inl hk)
  · exact .inr (h.rooted j hret)

theorem links_between (hj : p.before.size ≤ j) (hj' : j < p.after.size) :
    s'.links j = p.after.links j := by
  have hpos := p.sound.nonempty
  have hne : j ≠ 0 := by omega
  obtain ⟨houter, hbindings⟩ := h.between j hj hj'
  unfold Store.links Frame.valueScopes
  dsimp only
  rw [houter, hbindings, h.sound.retained_ne j hne, p.after_sound.retained_ne j hne]

/-- **What the outermost scope may keep with the program leads to nothing else.** -/
theorem rooted_tail (hs : s.Sound) (hj : p.Rooted s j) {k : Nat} (hk : k ∈ s'.links j) :
    p.Rooted s k := by
  rcases hj with ⟨i, rfl, hreach⟩ | ⟨hle, hlt, hreach⟩
  · rcases h.of_mem_links hs hk with ⟨l, hl, rfl⟩ | hk
    · exact .inl ⟨l, rfl, hreach.tail hl⟩
    · exact hk
  · rw [h.links_between hle hlt] at hk
    exact rooted_of_after h.reachable (hreach.tail hk)

omit h in
theorem reachable_or {links links' : ScopeId → List ScopeId}
    (hlinks : ∀ i j, j ∈ links' (p.scope i) → (∃ k ∈ links i, p.scope k = j) ∨ p.Rooted s j)
    (hrooted : ∀ j k, p.Rooted s j → k ∈ links' j → p.Rooted s k) {roots roots' : List ScopeId}
    (hroots : ∀ j ∈ roots', ∃ i ∈ roots, p.scope i = j)
    (hi : Reachable links' roots' (p.scope i)) :
    Reachable links roots i ∨ Reachable s.links [0] i := by
  have hall : ∀ j, Reachable links' roots' j →
      (∃ k, p.scope k = j ∧ Reachable links roots k) ∨ p.Rooted s j := by
    rintro j ⟨r, hr, hpath⟩
    induction hpath with
    | refl =>
      obtain ⟨k, hk, rfl⟩ := hroots r hr
      exact .inl ⟨k, rfl, .of_mem hk⟩
    | tail _ hlink ih =>
      rcases ih with ⟨k, rfl, hk⟩ | hj
      · exact (hlinks k _ hlink).imp_left fun ⟨l, hl, hlj⟩ => ⟨l, hlj, hk.tail hl⟩
      · exact .inr (hrooted _ _ hj hlink)
  rcases hall _ hi with ⟨k, hk, hreach⟩ | hrooted
  · rw [← scope_injective hk]
    exact .inl hreach
  · exact .inr hrooted.reachable

/-- **The same scopes live**, if the outermost one is in use. -/
theorem reachable_iff (hs : s.Sound) {roots roots' : List ScopeId} (hzero : 0 ∈ roots)
    (hroots : ∀ j, j ∈ roots' ↔ ∃ i ∈ roots, p.scope i = j) :
    Reachable s'.links roots' (p.scope i) ↔ Reachable s.links roots i := by
  constructor
  · intro hi
    rcases reachable_or (fun i j => h.of_mem_links hs) (fun j k hj => h.rooted_tail hs hj)
      (fun j hj => (hroots j).1 hj) hi with hi | hi
    · exact hi
    · exact hi.mono (by simpa using hzero)
  · rintro ⟨r, hr, hpath⟩
    exact ⟨p.scope r, (hroots _).2 ⟨r, hr, rfl⟩, hpath.lift p.scope fun _ _ => h.mem_links hs⟩

/-! ### Ownership -/

theorem owns (hown : s.owns scope v = true) :
    s'.owns (p.scope scope) (p.translation.value v) = true := by
  unfold Store.owns at hown ⊢
  rw [closureScope?_value]
  cases hv : v.closureScope? with
  | none => rw [hv] at hown; cases hown
  | some start =>
    rw [hv] at hown
    obtain ⟨hlt, r, hr, hpath⟩ := (reaches_iff fun _ => Store.ownershipLinks_eq_nil).1 hown
    rw [List.mem_singleton] at hr
    subst hr
    refine (reaches_iff fun _ => Store.ownershipLinks_eq_nil).2 ⟨h.scope_lt_size hlt, p.scope r,
      List.mem_cons_self, hpath.lift p.scope fun _ _ => h.mem_ownershipLinks⟩

/-- **A closure that leads back to its scope only with the program** does so by way of the outermost
scope, which keeps that scope anyway. -/
theorem of_owns (hs : s.Sound) (hscope : scope < s.size)
    (hown : s'.owns (p.scope scope) (p.translation.value v) = true) :
    s.owns scope v = true ∨ Reachable s.links [0] scope := by
  unfold Store.owns at hown ⊢
  rw [closureScope?_value] at hown
  cases hv : v.closureScope? with
  | none => rw [hv] at hown; cases hown
  | some start =>
    rw [hv] at hown
    have hreach := ((reaches_iff fun _ => Store.ownershipLinks_eq_nil).1 hown).2
    have hrooted : ∀ j k, p.Rooted s j → k ∈ s'.ownershipLinks j → p.Rooted s k := fun j k hj hk =>
      h.rooted_tail hs hj (h.sound.mem_links_iff_owned.2 (.inl hk))
    have hstart : ∀ j ∈ [p.scope start], ∃ i ∈ [start], p.scope i = j := by simp
    refine (reachable_or (fun i j => h.of_mem_ownershipLinks) hrooted hstart hreach).imp_left
      fun hi => ?_
    exact (reaches_iff fun _ => Store.ownershipLinks_eq_nil).2 ⟨hscope, hi⟩

/-! ### Changes -/

theorem push {records : List (Symbol × Term)} {o : Nat} (hs : s.Sound) (ho : o < s.size)
    (hvals : ∀ r ∈ records, r.2.IsValue s.size) :
    p.Beside (s.push (Frame.ofRecords records (some o)))
      (s'.push (Frame.ofRecords (p.translation.bindings records) (some (p.scope o)))) := by
  have hpos := hs.nonempty
  have hle := h.le_size
  have hsize := h.size_eq
  have hmade := p.evolves.size_le
  have hnew : p.scope s.size = s'.size := by rw [scope_of_le hle, hsize]
  have hold : ∀ i, i ≠ s.size → p.scope i ≠ s'.size := fun i hi heq =>
    hi (scope_injective (heq.trans hnew.symm))
  have hallowed : (Change.made (Frame.ofRecords records (some o))).Allowed s :=
    ⟨⟨o, rfl, ho⟩, rfl, fun b => Frame.snd_of_mem_ofRecords hvals⟩
  have hreach : ∀ i, Reachable s.links [0] i →
      Reachable (s.push (Frame.ofRecords records (some o))).links [0] i := fun i =>
    (Store.Evolves.made hallowed (.refl _ [] _)).reachable hs
  have hroot : (s.push (Frame.ofRecords records (some o))).frame 0 = s.frame 0 :=
    Store.frame_push_of_ne _ (by omega)
  have hroot' : (s'.push (Frame.ofRecords (p.translation.bindings records)
      (some (p.scope o)))).frame 0 = s'.frame 0 := Store.frame_push_of_ne _ (by omega)
  constructor
  case le_size => rw [Store.size_push]; omega
  case size_eq => rw [Store.size_push, Store.size_push]; omega
  case sound =>
    refine h.sound.push rfl (h.scope_lt_size ho) rfl fun b => Frame.snd_of_mem_ofRecords ?_
    intro r hr
    obtain ⟨r', hr', rfl⟩ := List.mem_map.1 hr
    exact h.isValue (hvals r' hr')
  case outer_eq =>
    intro i
    by_cases hi : i = s.size
    · subst hi
      rw [Store.frame_push_self, hnew, Store.frame_push_self]
      rfl
    · rw [Store.frame_push_of_ne _ hi, Store.frame_push_of_ne _ (hold i hi), h.outer_eq]
  case bindings_eq =>
    intro i hi0
    by_cases hi : i = s.size
    · subst hi
      rw [Store.frame_push_self, hnew, Store.frame_push_self]
      exact Translation.bindings_ofRecords records _ _
    · rw [Store.frame_push_of_ne _ hi, Store.frame_push_of_ne _ (hold i hi), h.bindings_eq i hi0]
  case root => rw [hroot, hroot']; exact h.root
  case between =>
    intro j hj hj'
    rw [Store.frame_push_of_ne _ (by omega)]
    exact h.between j hj hj'
  case reachable => exact fun i hi => hreach i (h.reachable i hi)
  case retained => rw [hroot, hroot']; exact h.retained
  case rooted => rw [hroot']; exact fun j hj => (h.rooted j hj).mono hreach

theorem extend (hscope : scope < s.size) (hval : v.IsValue s.size) :
    p.Beside (s.modify scope (·.extend name v))
      (s'.modify (p.scope scope) (·.extend name (p.translation.value v))) := by
  have hscope' := h.scope_lt_size hscope
  have hreach : ∀ i, Reachable s.links [0] i →
      Reachable (s.modify scope (·.extend name v)).links [0] i := fun i =>
    Store.reachable_extend hscope
  constructor
  case le_size => rw [Store.size_modify]; exact h.le_size
  case size_eq => rw [Store.size_modify, Store.size_modify, h.size_eq]
  case sound => exact h.sound.extend hscope' (h.isValue hval)
  case outer_eq => exact fun i => by rw [Store.outer_extend, Store.outer_extend, h.outer_eq]
  case bindings_eq =>
    intro i hi
    rw [Store.bindings_extend hscope, Store.bindings_extend hscope', h.bindings_eq i hi]
    by_cases heq : i = scope
    · subst heq
      simp [Translation.bindings]
    · have hne : p.scope i ≠ p.scope scope := fun hsame => heq (scope_injective hsame)
      simp [heq, hne]
  case root =>
    obtain ⟨rest, hroot, hroot'⟩ := h.root
    rw [Store.bindings_extend hscope, Store.bindings_extend hscope', hroot, hroot']
    by_cases h0 : scope = 0
    · subst h0
      refine ⟨rest ++ [(name, v)], by simp, ?_⟩
      simp [p.scope_zero, Translation.bindings]
    · have hne : p.scope scope ≠ 0 := fun hsame =>
        h0 (scope_injective (hsame.trans p.scope_zero.symm))
      exact ⟨rest, by simp [Ne.symm h0], by simp [Ne.symm hne]⟩
  case between =>
    intro j hj hj'
    have hne : j ≠ p.scope scope := (scope_not_between hj hj').symm
    rw [Store.outer_extend, Store.bindings_extend hscope', if_neg hne, List.append_nil]
    exact h.between j hj hj'
  case reachable => exact fun i hi => hreach i (h.reachable i hi)
  case retained => rw [Store.retained_extend, Store.retained_extend]; exact h.retained
  case rooted => rw [Store.retained_extend]; exact fun j hj => (h.rooted j hj).mono hreach

/-- **A definition keeps the correspondence**, also where its scope comes to be retained only with
the program. -/
theorem bind (hs : s.Sound) (hscope : scope < s.size) (hval : v.IsValue s.size) :
    p.Beside (s.bind scope name v) (s'.bind (p.scope scope) name (p.translation.value v)) := by
  have hext : p.Beside (s.modify scope (·.extend name v))
      (s'.modify (p.scope scope) (·.extend name (p.translation.value v))) := h.extend hscope hval
  have hsext : (s.modify scope (·.extend name v)).Sound := hs.extend hscope hval
  have hscope' := h.scope_lt_size hscope
  have hval' := h.isValue hval
  have houter : ∀ {s : Store} {k i : Nat} {v : Term},
      ((s.bind k name v).frame i).outer = ((s.modify k (·.extend name v)).frame i).outer :=
    Store.apply_frame_bind Frame.outer fun _ _ => rfl
  have hbindings : ∀ {s : Store} {k i : Nat} {v : Term},
      ((s.bind k name v).frame i).bindings = ((s.modify k (·.extend name v)).frame i).bindings :=
    Store.apply_frame_bind Frame.bindings fun _ _ => rfl
  have hreach : ∀ i, Reachable (s.modify scope (·.extend name v)).links [0] i →
      Reachable (s.bind scope name v).links [0] i := fun i =>
    hs.reachable_bind hscope hval
  constructor
  case le_size => rw [Store.size_bind]; exact h.le_size
  case size_eq => rw [Store.size_bind, Store.size_bind, h.size_eq]
  case sound => exact h.sound.bind hscope' hval'
  case outer_eq => exact fun i => by rw [houter, houter, hext.outer_eq]
  case bindings_eq => exact fun i hi => by rw [hbindings, hbindings, hext.bindings_eq i hi]
  case root => rw [hbindings, hbindings]; exact hext.root
  case between => exact fun j hj hj' => by rw [houter, hbindings]; exact hext.between j hj hj'
  case reachable => exact fun i hi => hreach i (hext.reachable i hi)
  case retained =>
    intro i hi
    rw [hs.retained_bind hscope hval] at hi
    split_ifs at hi with hown
    · rcases Frame.mem_insertScope.1 hi with rfl | hi
      · have hne : p.scope i ≠ 0 := fun hsame =>
          hown.2.1 (scope_injective (hsame.trans p.scope_zero.symm))
        rw [h.sound.retained_bind hscope' hval', if_pos ⟨rfl, hne, hext.owns hown.2.2⟩]
        exact Frame.mem_insertScope.2 (.inl rfl)
      · exact h.sound.mem_retained_bind hscope' hval' (h.retained i hi)
    · exact h.sound.mem_retained_bind hscope' hval' (h.retained i hi)
  case rooted =>
    intro j hj
    rw [h.sound.retained_bind hscope' hval'] at hj
    have hold : j ∈ (s'.frame 0).retained → p.Rooted (s.bind scope name v) j := fun hj =>
      (hext.rooted j (by rwa [Store.retained_extend])).mono hreach
    split_ifs at hj with hown
    · rcases Frame.mem_insertScope.1 hj with rfl | hj
      · refine .inl ⟨scope, rfl, ?_⟩
        rcases hext.of_owns hsext (by rwa [Store.size_modify]) hown.2.2 with howns | hscope0
        · -- the scope is retained without the program as well
          have hne : scope ≠ 0 := fun h0 => hown.2.1 (by rw [h0, p.scope_zero])
          refine Store.reachable_of_retained ?_
          rw [hs.retained_bind hscope hval, if_pos ⟨rfl, hne, howns⟩]
          exact Frame.mem_insertScope.2 (.inl rfl)
        · exact hreach scope hscope0
      · exact hold hj
    · exact hold hj

end Beside

theorem beside (p : Interlude) : p.Beside p.before p.after := by
  have hle := p.evolves.size_le
  have hrest : ∀ i, p.before.size ≤ i →
      p.before.frame i = {} ∧ p.after.frame (p.scope i) = {} := fun i hi =>
    ⟨Store.frame_of_size_le hi, Store.frame_of_size_le (by rw [scope_of_le hi]; omega)⟩
  constructor
  case le_size => exact Nat.le_refl _
  case size_eq => omega
  case sound => exact p.after_sound
  case outer_eq =>
    intro i
    by_cases hi : i < p.before.size
    · rw [scope_of_lt hi, p.evolves.outer_eq hi]
      cases ho : (p.before.frame i).outer with
      | none => rfl
      | some o =>
        have hlt := (p.sound.outer_some ho).1
        rw [Option.map_some, scope_of_lt (by omega)]
    · rw [(hrest i (by omega)).1, (hrest i (by omega)).2]
      rfl
  case bindings_eq =>
    intro i hpos
    by_cases hi : i < p.before.size
    · rw [scope_of_lt hi, p.evolves.bindings_of_ne hi (by omega),
        bindings_eq_self (p.sound.values i)]
    · rw [(hrest i (by omega)).1, (hrest i (by omega)).2]
      rfl
  case root => exact ⟨[], (List.append_nil _).symm, (List.append_nil _).symm⟩
  case between => exact fun j _ _ => ⟨rfl, rfl⟩
  case reachable => exact fun i hi => hi
  case retained =>
    intro i hi
    obtain ⟨cs, hist⟩ := p.evolves.history
    rw [scope_of_lt (p.sound.retained_lt i hi)]
    exact hist.mem_retained_of_mem p.sound hi
  case rooted =>
    intro j hj
    exact rooted_of_after (fun i hi => hi) (Store.reachable_of_retained hj)

/-! ## The simulation -/

/-- Evaluation after the program follows evaluation without it, to values and to faults. -/
def simulation (p : Interlude) : Simulation where
  toTranslation := p.translation
  extra := 0
  Stores := p.Beside
  Helds := fun held held' => 0 ∈ held.references ∧
    ∀ j, j ∈ held'.references ↔ ∃ i ∈ held.references, p.scope i = j
  Waived := fun _ => False
  Names := fun name => name ∉ p.names

theorem matches_bind {scope : Nat} {name : Symbol} (hname : name ∉ p.names) (h : p.Beside s s')
    (hs : s.Sound) (hscope : scope < s.size) (hval : v.IsValue s.size) :
    p.simulation.Matches p.translation.value (Eval.define scope name v) s
      (Eval.define (p.scope scope) name (p.translation.value v)) s' :=
  Simulation.matches_define h (fun hb => .inr ((h.binds_eq hname scope).trans hb)) fun hb =>
    ⟨(h.binds_eq hname scope).trans hb, h.bind hs hscope hval⟩

theorem keepsAlive_scope {held held' : Held} (hheld : p.simulation.Helds held held')
    (h : p.Beside s s') (hs : s.Sound) (hi : i < s.size) :
    held'.keepsAlive s' (p.scope i) = held.keepsAlive s i := by
  have hreach : Reachable s'.links held'.references (p.scope i) ↔
      Reachable s.links held.references i := h.reachable_iff hs hheld.1 hheld.2
  rw [Bool.eq_iff_iff, Held.keepsAlive_iff, Held.keepsAlive_iff, hreach]
  exact and_congr_left fun _ => ⟨fun _ => hi, fun _ => h.scope_lt_size hi⟩

theorem lawful (p : Interlude) : p.simulation.Lawful where
  exhausted := .inr rfl
  symbol? _ := rfl
  paramNames _ := rfl
  bool _ := rfl
  int _ := rfl
  list_nil := rfl
  list_cons head parts _ := by
    change Term.list (head :: parts) = .list (head :: parts.map id)
    rw [List.map_id]
  define hk hnames h hs hscope hread :=
    Simulation.matches_definition hk h fun name _ body htarget hbody =>
      matches_bind (hnames name htarget) h hs hscope ⟨hread body hbody, hscope⟩
  lookup {s s' scope name} hname h hs hscope := by
    have hlookup := h.lookup_eq hs hname hscope
    refine Simulation.matches_lookup h hs (fun v hv => ?_) fun hnone => .inr ?_
    · rw [hv] at hlookup
      exact hlookup
    · rw [hnone] at hlookup
      exact hlookup
  bind hname h hs hscope hval := matches_bind hname h hs hscope hval
  push h hs ho hvals := ⟨(scope_of_le h.le_size).trans h.size_eq.symm, h.push hs ho hvals⟩
  enter {held held'} scope := by
    rintro ⟨hzero, hrefs⟩
    refine ⟨Held.mem_references_enter.2 (.inr hzero), fun j => ?_⟩
    simp only [Held.mem_references_enter, hrefs, or_and_right, exists_or, exists_eq_left]
    exact or_congr_left eq_comm
  keepAll {held held' n values} := by
    rintro ⟨hzero, hrefs⟩ hvalues
    refine ⟨Held.mem_references_keepAll.2 (.inr hzero), fun j => ?_⟩
    have hscopes : ∀ v ∈ values, (p.simulation.value v).scopes = v.scopes.map p.scope :=
      fun v hv => Translation.scopes_moving (hvalues v hv)
    simp only [Held.mem_references_keepAll, hrefs]
    constructor
    · rintro (⟨w, hw, hj⟩ | ⟨i, hi, hij⟩)
      · obtain ⟨v, hv, rfl⟩ := List.mem_map.1 hw
        rw [hscopes v hv] at hj
        obtain ⟨i, hi, hij⟩ := List.mem_map.1 hj
        exact ⟨i, .inl ⟨v, hv, hi⟩, hij⟩
      · exact ⟨i, .inr hi, hij⟩
    · rintro ⟨i, ⟨v, hv, hi⟩ | hi, rfl⟩
      · refine .inl ⟨_, List.mem_map_of_mem hv, ?_⟩
        rw [hscopes v hv]
        exact List.mem_map_of_mem hi
      · exact .inr ⟨i, hi, rfl⟩
  alive hheld h hs ho _ hlives := (keepsAlive_scope hheld h hs ho).trans hlives
  reclaimed _ hheld h hs ho hlives := .inr ⟨rfl, (keepsAlive_scope hheld h hs ho).trans hlives⟩

end Interlude

/-! ## Symbols -/

namespace Term

mutual

/-- The symbols that occur in a term. -/
def symbols : Term → List Symbol
  | symbol name => [name]
  | list items => symbolsOfAll items
  | _ => []

/-- The symbols that occur in terms. -/
def symbolsOfAll : List Term → List Symbol
  | [] => []
  | t :: ts => t.symbols ++ symbolsOfAll ts

end

variable {e t : Term} {items : List Term} {name : Symbol}

theorem symbols_subset (h : t ∈ items) : t.symbols ⊆ (list items).symbols := by
  rw [symbols]
  induction items with
  | nil => cases h
  | cons u us ih =>
    rw [symbolsOfAll]
    rcases List.mem_cons.1 h with rfl | h
    · exact List.subset_append_left _ _
    · exact List.subset_append_of_subset_right _ (ih h)

theorem mem_symbols_of_symbol? (h : e.symbol? = some name) : name ∈ e.symbols := by
  rw [eq_symbol_of_symbol? h, symbols]
  exact List.mem_cons_self

theorem mem_symbols_of_target? (h : e.target? = some name) : name ∈ e.symbols := by
  unfold target? at h
  split at h
  · split at h
    · exact symbols_subset (by simp) (mem_symbols_of_symbol? h)
    · exact symbols_subset (by simp) (mem_symbols_of_symbol? h)
    · cases h
  · cases h

end Term

/-! ## Sessions -/

namespace Session

variable {limit : Nat} {session session' : Session} {sources : List String} {source : String}

theorem Initial.mem_symbols (hs : session.Initial) {a : Activation} {name : Symbol}
    (ha : session.Evaluates limit sources a)
    (hname : a.term.symbol? = some name ∨ a.term.target? = some name) :
    name ∈ (programs sources).flatMap Term.symbols := by
  obtain ⟨o, ho⟩ := ha.located hs.fresh.toSound hs.holds
  have hsub : a.term.symbols ⊆ (programs sources).flatMap Term.symbols := by
    refine Occurrence.of_term? (P := fun e => e.symbols ⊆ (programs sources).flatMap Term.symbols)
      (fun e he name hname => List.mem_flatMap.2 ⟨e, he, hname⟩) (fun e part j he hpart => ?_)
      ho.term?_eq
    cases e with
    | list items =>
      exact List.Subset.trans (Term.symbols_subset (List.mem_of_getElem? hpart)) he
    | _ => cases hpart
  exact hsub (hname.elim Term.mem_symbols_of_symbol? Term.mem_symbols_of_target?)

theorem Sound.evolves_targets (hs : session.Sound) (limit : Nat) (source : String) :
    session.store.Evolves 0 ((programs [source]).flatMap Term.targets)
      (session.eval limit source).2.store := by
  cases hparse : Term.parse source with
  | error fault =>
    rw [eval_of_parse_error hparse]
    exact .refl _ _ _
  | ok e =>
    have htargets : (programs [source]).flatMap Term.targets = e.targets := by
      simp [programs, hparse, Except.toOption]
    have hevolves : session.store.Evolves session.root e.targets
        (Eval.storeAfter (ScopedLisp.evaluate limit { scopes := [session.root] } session.root e)
          session.store) :=
      Leaves.storeAfter ((hs.activation_proper hparse limit).yields Held.keepsAlive)
    rw [htargets, eval_of_parse hparse]
    rwa [hs.root_eq] at hevolves ⊢

/-- A program of a session, however it ends. -/
def Sound.interlude (hs : session.Sound) (limit : Nat) (source : String) : Interlude where
  before := session.store
  after := (session.eval limit source).2.store
  names := (programs [source]).flatMap Term.targets
  sound := hs.store
  evolves := hs.evolves_targets limit source
  reachable := fun _ => hs.reachable_eval source

section Beside

variable {p : Interlude} (hroot : session'.root = 0)
include hroot

theorem Sound.eval_beside (hs : session.Sound) (h : p.Beside session.store session'.store)
    (hnames : ∀ e a name, Term.parse source = .ok e →
      (session.activation limit e).Occurs Held.keepsAlive a →
      a.term.symbol? = some name ∨ a.term.target? = some name → name ∉ p.names) :
    (session'.eval limit source).1 = (session.eval limit source).1.map p.translation.value ∧
      p.Beside (session.eval limit source).2.store (session'.eval limit source).2.store := by
  cases hparse : Term.parse source with
  | error fault =>
    rw [eval_of_parse_error hparse, eval_of_parse_error hparse]
    exact ⟨rfl, h⟩
  | ok e =>
    rw [eval_of_parse_ok hparse, eval_of_parse_ok hparse]
    have hheld : p.simulation.Helds (Held.enter { scopes := [session.root] } session.root)
        (Held.enter { scopes := [session'.root] } (p.scope session.root)) := by
      rw [hs.root_eq, hroot]
      refine ⟨List.mem_cons_self, fun j => ?_⟩
      simp [Held.references, Held.enter, p.scope_zero, eq_comm]
    have hscope : p.scope session.root = session'.root := by
      rw [hs.root_eq, hroot, p.scope_zero]
    have hmatch : p.simulation.Matches p.translation.value
        (ScopedLisp.evaluate limit { scopes := [session.root] } session.root e) session.store
        (ScopedLisp.evaluate limit { scopes := [session'.root] } (p.scope session.root) e)
          session'.store :=
      p.lawful.followed (hs.activation_proper hparse limit)
        (fun a name => hnames e a name hparse) _ _ hheld h
    rw [hscope] at hmatch
    cases hx : ScopedLisp.evaluate limit { scopes := [session.root] } session.root e
      session.store with
    | ok v t =>
      obtain ⟨t', hx', ht⟩ := hmatch.of_ok hx
      rw [evaluate_of_ok hx, evaluate_of_ok hx']
      exact ⟨rfl, ht⟩
    | error fault t =>
      obtain ⟨t', hx', ht⟩ := hmatch.of_error hx id
      rw [evaluate_of_error hx, evaluate_of_error hx']
      exact ⟨rfl, ht⟩

/-- **Later programs, without another one before them and with it.** -/
theorem Sound.run_beside (hs : session.Sound) (h : p.Beside session.store session'.store)
    (hnames : ∀ a name, session.Evaluates limit sources a →
      a.term.symbol? = some name ∨ a.term.target? = some name → name ∉ p.names) :
    (session'.run limit sources).1 =
        (session.run limit sources).1.map (Except.map p.translation.value) ∧
      p.Beside (session.run limit sources).2.store (session'.run limit sources).2.store := by
  induction sources generalizing session session' with
  | nil => exact ⟨rfl, h⟩
  | cons source sources ih =>
    obtain ⟨hresult, hbeside⟩ := eval_beside hroot hs h fun e a name hparse hoccurs =>
      hnames a name ⟨0, source, e, rfl, hparse, hoccurs⟩
    obtain ⟨hresults, hend⟩ := ih ((root_eval ..).trans hroot) (hs.eval limit source) hbeside
      fun a name ha => hnames a name (Evaluates.append [source] ha)
    refine ⟨?_, hend⟩
    exact congrArg₂ List.cons hresult hresults

end Beside

/-- **Unrelated definitions do not interfere.** If what a program would bind in the outermost scope
occurs as a symbol in none of the other programs of a session, then these have the results that they
have without it, apart from the numbers of scopes that functions were made in later. -/
theorem Initial.run_insert (hs : session.Initial) (limit : Nat) {before after : List String}
    (h : ∀ name ∈ (programs [source]).flatMap Term.targets,
      name ∉ (programs (before ++ after)).flatMap Term.symbols) :
    ∃ n k earlier result later, n = (session.run limit before).2.store.size ∧
      earlier.length = before.length ∧
      (session.run limit (before ++ after)).1 = earlier ++ later ∧
      (session.run limit (before ++ source :: after)).1 =
        earlier ++ result :: later.map (Except.map (Translation.inserting n k).value) ∧
      (∀ v, ((Translation.inserting n k).value v).render = v.render) ∧
      ∃ kept added rest, (added.map (·.1)).Sublist ((programs [source]).flatMap Term.targets) ∧
        (session.run limit (before ++ after)).2.frame.bindings = kept ++ rest ∧
        (session.run limit (before ++ source :: after)).2.frame.bindings =
          kept ++ added ++ (Translation.inserting n k).bindings rest := by
  have hsound := hs.fresh.toSound.run limit before
  let p := hsound.interlude limit source
  have hnames : ∀ a name, (session.run limit before).2.Evaluates limit after a →
      a.term.symbol? = some name ∨ a.term.target? = some name → name ∉ p.names :=
    fun a name ha hname hmem => h name hmem (hs.mem_symbols (Evaluates.append before ha) hname)
  obtain ⟨hresults, hbeside⟩ := hsound.run_beside ((root_eval ..).trans hsound.root_eq) p.beside
    hnames
  obtain ⟨rest, hrest, hrest'⟩ := hbeside.root
  obtain ⟨added, hadded, hsub⟩ := p.exists_bindings_after
  refine ⟨p.before.size, p.after.size - p.before.size, (session.run limit before).1,
    ((session.run limit before).2.eval limit source).1,
    ((session.run limit before).2.run limit after).1, rfl, length_run .., fst_run_append .., ?_,
    Translation.render_moving _, (p.before.frame 0).bindings, added, rest, hsub, ?_, ?_⟩
  · rw [fst_run_append]
    exact congrArg (fun results => _ ++ _ :: results) hresults
  · rw [frame, root_run, hs.root_eq, run_append]
    exact hrest
  · rw [frame, root_run, hs.root_eq, run_append, ← hadded]
    exact hrest'

/-- A program that binds a closure over one of the session and then fails, as its test is no boolean
value. Later ones call closures from before and after it, and find a scope gone. -/
theorem run_insert_failing :
    let before := ["(let mk (fn (n) (do (defn f (x) (add x n)) (fn (y) (f y)))))",
      "(let k (mk 2))"]
    let source := "(if (let g (do (let h (mk 5)) (fn () (h (k 1))))) 1 2)"
    let after := ["(let j (do (let c (fn (n) (if (lte n 0) n (c (sub n 1))))) c))", "(j (k 3))",
      "((do (defn f () 1) f))"]
    (∀ name ∈ (programs [source]).flatMap Term.targets,
        name ∉ (programs (before ++ after)).flatMap Term.symbols) ∧
      (start.run 30 (before ++ source :: after)).1.map (·.toOption.map Term.render) =
        [some "(fn (n) (do (defn f (x) (add x n)) (fn (y) (f y))))", some "(fn (y) (f y))", none,
          some "(fn (n) (if (lte n 0) n (c (sub n 1))))", some "0", none] ∧
      ((start.run 30 (before ++ source :: after)).2.frame.names.drop 13).map Symbol.name =
        ["mk", "k", "g", "j"] ∧
      ∃ n k earlier result later, (start.run 30 (before ++ after)).1 = earlier ++ later ∧
        (start.run 30 (before ++ source :: after)).1 =
          earlier ++ result :: later.map (Except.map (Translation.inserting n k).value) := by
  intro before source after
  have hunrelated : ∀ name ∈ (programs [source]).flatMap Term.targets,
      name ∉ (programs (before ++ after)).flatMap Term.symbols := by decide +kernel
  obtain ⟨n, k, earlier, result, later, -, -, hwithout, hinserted, -⟩ :=
    start_initial.run_insert 30 hunrelated
  exact ⟨hunrelated, by decide +kernel, by decide +kernel, n, k, earlier, result, later, hwithout,
    hinserted⟩

end Session

end ScopedLisp
