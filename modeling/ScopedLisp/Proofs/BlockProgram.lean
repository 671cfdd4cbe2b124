import ScopedLisp.Proofs.BlockText
import ScopedLisp.Proofs.Chains
import ScopedLisp.Proofs.Counting
import ScopedLisp.Proofs.Simulation

/-!
# Sessions as block programs

A session binds its names in the outermost scope, beside the builtin functions. A block binds them
in a scope of its own, which may come to be retained. The results are the same: the block follows
the session with every scope one number later.

* `Store.InBlock`: the stores that correspond;
* `Store.InBlock.lookup_succ`, `Store.InBlock.owns_succ`, `Store.InBlock.reachable_succ`: names,
  ownership and lifetime in both;
* `Simulation.block_lawful`: evaluation in the block follows evaluation in the session;
* **`evalProgram_blockProgram`**: a session in which every text has a value ends with the value of
  its block program.
-/

namespace ScopedLisp

open Relation

/-! ## One number later -/

/-- Scopes stand one number later, and terms stay as they are. -/
def Translation.shifted : Translation where
  scope := (· + 1)
  term := id
  asClosures := false

namespace Translation

theorem render_shifted (v : Term) : (shifted.value v).render = v.render := render_moving _ v

theorem closureScope?_shifted (v : Term) :
    (shifted.value v).closureScope? = v.closureScope?.map (· + 1) := closureScope?_moving _ v

theorem isValue_shifted {v : Term} {n : Nat} (h : v.IsValue n) :
    (shifted.value v).IsValue (n + 1) :=
  isValue_moving h fun _ => Nat.succ_lt_succ

theorem scopes_shifted {v : Term} {n : Nat} (h : v.IsValue n) {i : ScopeId} (hi : i ∈ v.scopes) :
    i + 1 ∈ (shifted.value v).scopes := by
  have hscopes : (shifted.value v).scopes = v.scopes.map (· + 1) := scopes_moving h
  rw [hscopes]
  exact List.mem_map_of_mem hi

end Translation

open Translation (shifted)

/-- The store of a block that follows a session: each scope of the session stands one number later,
and the definitions of the outermost scope are in the scope of the block, apart from the builtin
functions. -/
structure Store.InBlock (s s' : Store) : Prop where
  size_eq : s'.size = s.size + 1
  sound : s'.Sound
  outer_one : (s'.frame 1).outer = some 0
  outer_succ : ∀ i : Nat, 0 < i → (s'.frame (i + 1)).outer = (s.frame i).outer.map (· + 1)
  builtins : (s'.frame 0).bindings = Frame.builtins.bindings
  definitions : ∃ rest, (s.frame 0).bindings = Frame.builtins.bindings ++ rest ∧
    (s'.frame 1).bindings = shifted.bindings rest ∧ ∀ b ∈ rest, Frame.builtins.get? b.1 = none
  bindings_succ : ∀ i : Nat, 0 < i →
    (s'.frame (i + 1)).bindings = shifted.bindings (s.frame i).bindings
  retained_succ : ∀ i ∈ (s.frame 0).retained, i + 1 ∈ (s'.frame 0).retained

namespace Store.InBlock

variable {s s' : Store} (h : s.InBlock s') {i j scope : Nat} {name : Symbol} {v : Term}
include h

theorem succ_lt (hi : i < s.size) : i + 1 < s'.size := by
  rw [h.size_eq]
  omega

/-! ### Names -/

theorem get?_zero : (s'.frame 0).get? name = Frame.builtins.get? name := by
  rw [Frame.get?, h.builtins]
  rfl

theorem get?_succ (name : Symbol) (hi : 0 < i) :
    (s'.frame (i + 1)).get? name = ((s.frame i).get? name).map shifted.value := by
  rw [Frame.get?, h.bindings_succ i hi, Translation.lookup_bindings]
  rfl

theorem get?_root (name : Symbol) :
    (s.frame 0).get? name = Frame.builtins.get? name ∧ (s'.frame 1).get? name = none ∨
    (s'.frame 1).get? name = ((s.frame 0).get? name).map shifted.value ∧
      Frame.builtins.get? name = none := by
  obtain ⟨rest, hroot, hblock, hnew⟩ := h.definitions
  have hrest : (s'.frame 1).get? name = (rest.lookup name).map shifted.value := by
    rw [Frame.get?, hblock, Translation.lookup_bindings]
  have happend : (s.frame 0).get? name = (Frame.builtins.get? name).or (rest.lookup name) := by
    rw [Frame.get?, hroot, List.lookup_append]
    rfl
  cases hb : Frame.builtins.get? name with
  | none =>
    rw [hb, Option.none_or] at happend
    rw [hrest, happend]
    exact .inr ⟨rfl, rfl⟩
  | some b =>
    have hnone : rest.lookup name = none := by
      by_contra hsome
      obtain ⟨w, hw⟩ := Option.ne_none_iff_exists'.1 hsome
      obtain ⟨l₁, l₂, hl, -⟩ := List.lookup_eq_some_iff.1 hw
      have := hnew (name, w) (by rw [hl]; simp)
      rw [hb] at this
      cases this
    rw [happend, hrest, hb, hnone]
    exact .inl ⟨rfl, rfl⟩

/-- **What the session finds for a name, the block finds as well.** -/
theorem lookup_succ (hs : s.Sound) (hi : i < s.size) (hv : s.lookup i name = some v) :
    s'.lookup (i + 1) name = some (shifted.value v) := by
  -- on the scope: those around it have smaller numbers
  induction i using Nat.strong_induction_on with
  | _ i ih =>
  have hlt := h.succ_lt hi
  cases hget : (s.frame i).get? name with
  | some w =>
    rw [lookup_of_get?_some hi hget] at hv
    cases hv
    by_cases h0 : i = 0
    · subst h0
      rcases h.get?_root name with ⟨hroot, hnone⟩ | ⟨hblock, -⟩
      · -- a builtin function, which stands for itself
        have hzero : (s'.frame 0).get? name = some v := by rw [h.get?_zero, ← hroot, hget]
        have hself : shifted.value v = v := by
          rw [hroot] at hget
          obtain ⟨b, -, hb⟩ := List.mem_map.1 (Frame.mem_of_get? hget)
          cases hb
          rfl
        rw [h.sound.lookup_of_outer_some hnone h.outer_one,
          lookup_of_get?_some h.sound.nonempty hzero, hself]
      · rw [hget] at hblock
        exact lookup_of_get?_some hlt hblock
    · have hsucc := h.get?_succ name (Nat.pos_of_ne_zero h0)
      rw [hget] at hsucc
      exact lookup_of_get?_some hlt hsucc
  | none =>
    by_cases h0 : i = 0
    · subst h0
      rw [lookup_of_outer_none hget hi hs.outer_zero] at hv
      cases hv
    · obtain ⟨o, ho, holt⟩ := hs.outer_lt i (Nat.pos_of_ne_zero h0) hi
      rw [hs.lookup_of_outer_some hget ho] at hv
      have hsucc := h.get?_succ name (Nat.pos_of_ne_zero h0)
      rw [hget] at hsucc
      have houter := h.outer_succ i (Nat.pos_of_ne_zero h0)
      rw [ho] at houter
      rw [h.sound.lookup_of_outer_some hsucc houter]
      exact ih o holt (by omega) hv

theorem binds_succ (hb : (s.frame i).binds name = false) :
    (s'.frame (i + 1)).binds name = false := by
  rw [Frame.binds, Option.isSome_eq_false_iff, Option.isNone_iff_eq_none] at hb ⊢
  by_cases h0 : i = 0
  · subst h0
    rcases h.get?_root name with ⟨-, hnone⟩ | ⟨hblock, -⟩
    · exact hnone
    · rw [hblock, hb]
      rfl
  · rw [h.get?_succ name (Nat.pos_of_ne_zero h0), hb]
    rfl

/-! ### Links -/

theorem mem_closureScopes_succ (hj : j ∈ (s.frame i).closureScopes) :
    j + 1 ∈ (s'.frame (i + 1)).closureScopes := by
  obtain ⟨b, hb, hscope⟩ := List.mem_filterMap.1 hj
  have hmem : ∀ table : List (Symbol × Term), b ∈ table →
      (s'.frame (i + 1)).bindings = shifted.bindings table →
      j + 1 ∈ (s'.frame (i + 1)).closureScopes := by
    intro table hb htable
    refine List.mem_filterMap.2 ⟨(b.1, shifted.value b.2), ?_, ?_⟩
    · rw [htable]
      exact List.mem_map_of_mem hb
    · rw [Translation.closureScope?_shifted, hscope]
      rfl
  by_cases h0 : i = 0
  · subst h0
    obtain ⟨rest, hroot, hblock, -⟩ := h.definitions
    rw [hroot, List.mem_append] at hb
    rcases hb with hb | hb
    · obtain ⟨b', -, rfl⟩ := List.mem_map.1 hb
      cases hscope
    · exact hmem rest hb hblock
  · exact hmem _ hb (h.bindings_succ i (Nat.pos_of_ne_zero h0))

theorem mem_ownershipLinks_succ (hs : s.Sound) (hj : j ∈ s.ownershipLinks i) :
    j + 1 ∈ s'.ownershipLinks (i + 1) := by
  rcases List.mem_append.1 hj with hj | hj
  · have h0 : i ≠ 0 := by
      rintro rfl
      rw [hs.outer_zero] at hj
      cases hj
    refine List.mem_append_left _ ?_
    rw [h.outer_succ i (Nat.pos_of_ne_zero h0), Option.mem_toList.1 hj]
    exact List.mem_cons_self
  · exact List.mem_append_right _ (h.mem_closureScopes_succ hj)

/-- **A closure that leads back to its scope in the session does so in the block.** -/
theorem owns_succ (hs : s.Sound) (hown : s.owns scope v = true) :
    s'.owns (scope + 1) (shifted.value v) = true := by
  unfold owns at hown ⊢
  rw [Translation.closureScope?_shifted]
  cases hv : v.closureScope? with
  | none => rw [hv] at hown; cases hown
  | some start =>
    rw [hv] at hown
    obtain ⟨hlt, r, hr, hpath⟩ := (reaches_iff fun _ => ownershipLinks_eq_nil).1 hown
    rw [List.mem_singleton] at hr
    subst hr
    refine (reaches_iff fun _ => ownershipLinks_eq_nil).2 ⟨h.succ_lt hlt, r + 1, by simp, ?_⟩
    exact hpath.lift (· + 1) fun _ _ => h.mem_ownershipLinks_succ hs

/-- **What the session reaches, the block reaches as well.** -/
theorem reachable_succ (hs : s.Sound) {roots roots' : List ScopeId}
    (hroots : ∀ i ∈ roots, i + 1 ∈ roots') (hi : Reachable s.links roots i) :
    Reachable s'.links roots' (i + 1) := by
  obtain ⟨r, hr, hpath⟩ := hi
  refine ⟨r + 1, hroots r hr, hpath.lift' (· + 1) fun a b hab => ?_⟩
  rcases hs.mem_links_iff_owned.1 hab with howned | ⟨rfl, hret⟩
  · have howned' := h.mem_ownershipLinks_succ hs howned
    exact .single (h.sound.mem_links_iff_owned.2 (.inl howned'))
  · -- the scope of the block reaches what is retained through the outermost scope
    have hzero : (0 : Nat) ∈ s'.ownershipLinks 1 := by simp [ownershipLinks, h.outer_one]
    exact .head (h.sound.mem_links_iff_owned.2 (.inl hzero))
      (.single (h.sound.mem_links_iff_owned.2 (.inr ⟨rfl, h.retained_succ b hret⟩)))

/-! ### Changes -/

theorem push {records : List (Symbol × Term)} {o : Nat} (hs : s.Sound) (ho : o < s.size)
    (hvals : ∀ r ∈ records, r.2.IsValue s.size) :
    (s.push (Frame.ofRecords records (some o))).InBlock
      (s'.push (Frame.ofRecords (shifted.bindings records) (some (o + 1)))) := by
  have hpos := hs.nonempty
  have hsize := h.size_eq
  have hsound : (s'.push (Frame.ofRecords (shifted.bindings records) (some (o + 1)))).Sound := by
    refine h.sound.push rfl (h.succ_lt ho) rfl fun b => Frame.snd_of_mem_ofRecords fun r hr => ?_
    obtain ⟨r', hr', rfl⟩ := List.mem_map.1 hr
    rw [hsize]
    exact Translation.isValue_shifted (hvals r' hr')
  -- the two new scopes have numbers `s.size` and `s.size + 1`, and the others stay
  have hroot : (s.push (Frame.ofRecords records (some o))).frame 0 = s.frame 0 :=
    frame_push_of_ne _ (by omega)
  have hzero : (s'.push (Frame.ofRecords (shifted.bindings records) (some (o + 1)))).frame 0 =
      s'.frame 0 := frame_push_of_ne _ (by omega)
  have hone : (s'.push (Frame.ofRecords (shifted.bindings records) (some (o + 1)))).frame 1 =
      s'.frame 1 := frame_push_of_ne _ (by omega)
  refine ⟨by rw [size_push, size_push, hsize], hsound, by rw [hone, h.outer_one], fun i hi => ?_,
    by rw [hzero, h.builtins], by rw [hroot, hone]; exact h.definitions, fun i hi => ?_,
    by rw [hroot, hzero]; exact h.retained_succ⟩
  · by_cases hi' : i = s.size
    · subst hi'
      rw [frame_push_self, ← hsize, frame_push_self]
      rfl
    · rw [frame_push_of_ne _ hi', frame_push_of_ne _ (by omega), h.outer_succ i hi]
  · by_cases hi' : i = s.size
    · subst hi'
      rw [frame_push_self, ← hsize, frame_push_self]
      exact Translation.bindings_ofRecords records _ _
    · rw [frame_push_of_ne _ hi', frame_push_of_ne _ (by omega), h.bindings_succ i hi]

theorem extend (hscope : scope < s.size) (hb : (s.frame scope).binds name = false)
    (hval : v.IsValue s.size) :
    (s.modify scope (·.extend name v)).InBlock
      (s'.modify (scope + 1) (·.extend name (shifted.value v))) := by
  have hscope' := h.succ_lt hscope
  have hval' : (shifted.value v).IsValue s'.size := by
    rw [h.size_eq]
    exact Translation.isValue_shifted hval
  refine ⟨by rw [size_modify, size_modify, h.size_eq], h.sound.extend hscope' hval',
    by rw [outer_extend, h.outer_one],
    fun i hi => by rw [outer_extend, outer_extend, h.outer_succ i hi], ?_, ?_, fun i hi => ?_, ?_⟩
  · rw [bindings_extend hscope', if_neg (by omega), List.append_nil, h.builtins]
  · obtain ⟨rest, hroot, hblock, hnew⟩ := h.definitions
    rw [bindings_extend hscope, bindings_extend hscope', hroot, hblock]
    by_cases h0 : scope = 0
    · subst h0
      refine ⟨rest ++ [(name, v)], ?_, ?_, fun b hmem => ?_⟩
      · rw [if_pos rfl, List.append_assoc]
      · rw [if_pos rfl, Translation.bindings, Translation.bindings, List.map_append]
        rfl
      · rcases List.mem_append.1 hmem with hmem | hmem
        · exact hnew b hmem
        · rw [List.mem_singleton] at hmem
          subst hmem
          rw [Frame.binds, Option.isSome_eq_false_iff, Option.isNone_iff_eq_none] at hb
          rcases h.get?_root name with ⟨hget, -⟩ | ⟨-, hget⟩
          · rw [← hget, hb]
          · exact hget
    · exact ⟨rest, by rw [if_neg (Ne.symm h0), List.append_nil],
        by rw [if_neg (by omega), List.append_nil], hnew⟩
  · rw [bindings_extend hscope, bindings_extend hscope', h.bindings_succ i hi]
    by_cases hi' : i = scope
    · rw [if_pos hi', if_pos (by omega), Translation.bindings, Translation.bindings,
        List.map_append]
      rfl
    · rw [if_neg hi', if_neg (by omega), List.append_nil, List.append_nil]
  · rw [retained_extend, retained_extend]
    exact h.retained_succ

/-- **A definition keeps the correspondence**: a scope that the session comes to retain is retained
by the block. -/
theorem bind (hs : s.Sound) (hscope : scope < s.size) (hb : (s.frame scope).binds name = false)
    (hval : v.IsValue s.size) :
    (s.bind scope name v).InBlock (s'.bind (scope + 1) name (shifted.value v)) := by
  have hext := h.extend hscope hb hval
  have hscope' := h.succ_lt hscope
  have hval' : (shifted.value v).IsValue s'.size := by
    rw [h.size_eq]
    exact Translation.isValue_shifted hval
  have houter : ∀ {s : Store} {k i : Nat} {v : Term},
      ((s.bind k name v).frame i).outer = ((s.modify k (·.extend name v)).frame i).outer :=
    apply_frame_bind Frame.outer fun _ _ => rfl
  have hbindings : ∀ {s : Store} {k i : Nat} {v : Term},
      ((s.bind k name v).frame i).bindings = ((s.modify k (·.extend name v)).frame i).bindings :=
    apply_frame_bind Frame.bindings fun _ _ => rfl
  refine ⟨by rw [size_bind, size_bind, h.size_eq], h.sound.bind hscope' hval', ?_, ?_, ?_, ?_, ?_,
    fun i hi => ?_⟩
  · rw [houter, hext.outer_one]
  · exact fun i hi => by rw [houter, houter, hext.outer_succ i hi]
  · rw [hbindings, hext.builtins]
  · rw [hbindings, hbindings]
    exact hext.definitions
  · exact fun i hi => by rw [hbindings, hbindings, hext.bindings_succ i hi]
  · rw [hs.retained_bind hscope hval] at hi
    split_ifs at hi with hown
    · rcases Frame.mem_insertScope.1 hi with rfl | hi
      · have hown' := hext.owns_succ (hs.extend hscope hval) hown.2.2
        rw [h.sound.retained_bind hscope' hval', if_pos ⟨rfl, by omega, hown'⟩]
        exact Frame.mem_insertScope.2 (.inl rfl)
      · exact h.sound.mem_retained_bind hscope' hval' (h.retained_succ i hi)
    · exact h.sound.mem_retained_bind hscope' hval' (h.retained_succ i hi)

end Store.InBlock

/-! ## The simulation -/

/-- Evaluation in a block, with further levels of nesting. Only values are followed. -/
def Simulation.block (extra : Nat) : Simulation where
  toTranslation := shifted
  extra := extra
  Stores := Store.InBlock
  Helds := fun held held' => ∀ i ∈ held.references, i + 1 ∈ held'.references
  Waived := fun _ => True
  Names := fun _ => True

namespace Simulation

theorem block_bind {extra : Nat} {s s' : Store} {scope : Nat} (name : Symbol) {v : Term}
    (h : s.InBlock s') (hs : s.Sound) (hscope : scope < s.size) (hval : v.IsValue s.size) :
    (block extra).Matches shifted.value (Eval.define scope name v) s
      (Eval.define (scope + 1) name (shifted.value v)) s' :=
  matches_define h (fun _ => .inl trivial) fun hb =>
    ⟨h.binds_succ hb, h.bind hs hscope hb hval⟩

theorem block_lawful (extra : Nat) : (block extra).Lawful where
  exhausted := .inl trivial
  symbol? _ := rfl
  paramNames _ := rfl
  bool _ := rfl
  int _ := rfl
  list_nil := rfl
  list_cons head parts _ := by
    change Term.list (head :: parts) = .list (head :: parts.map id)
    rw [List.map_id]
  define {limit held held' scope head parts s s'} hk _ h hs hscope hread := by
    rw [Nat.add_right_comm]
    exact matches_definition hk h fun name _ body _ hbody =>
      block_bind name h hs hscope ⟨hread body hbody, hscope⟩
  lookup _ h hs hscope :=
    matches_lookup h hs (fun _ hv => h.lookup_succ hs hscope hv) fun _ => .inl trivial
  bind _ h hs hscope hval := block_bind _ h hs hscope hval
  push h hs ho hvals := ⟨h.size_eq.symm, h.push hs ho hvals⟩
  enter {held held'} scope h i hi := by
    rcases Held.mem_references_enter.1 hi with rfl | hi
    · exact Held.mem_references_enter.2 (.inl rfl)
    · exact Held.mem_references_enter.2 (.inr (h i hi))
  keepAll {held held' n values} h hvalues i hi := by
    rcases Held.mem_references_keepAll.1 hi with ⟨v, hv, hi⟩ | hi
    · exact Held.mem_references_keepAll.2 (.inl ⟨_, List.mem_map_of_mem hv,
        Translation.scopes_shifted (hvalues v hv) hi⟩)
    · exact Held.mem_references_keepAll.2 (.inr (h i hi))
  alive {held held' s s' o} hheld h hs _ _ hlives := by
    obtain ⟨hlt, hreach⟩ := Held.keepsAlive_iff.1 hlives
    exact Held.keepsAlive_iff.2 ⟨h.succ_lt hlt, h.reachable_succ hs hheld hreach⟩
  reclaimed _ _ _ _ _ _ := .inl trivial

end Simulation

/-! ## Sessions -/

namespace Session

theorem start_inBlock : start.store.InBlock (start.store.push { outer := some start.root }) := by
  have hsound := start_fresh.store
  have hsize : start.store.size = 1 := start_fresh.size_eq
  have hempty : ∀ i : Nat, 0 < i → start.store.frame i = {} ∧
      (start.store.push { outer := some start.root }).frame (i + 1) = {} := fun i hi =>
    ⟨Store.frame_of_size_le (by omega), Store.frame_of_size_le (by rw [Store.size_push]; omega)⟩
  refine ⟨by rw [Store.size_push], ?_, rfl, fun i hi => ?_, rfl, ⟨[], rfl, rfl, by simp⟩,
    fun i hi => ?_, ?_⟩
  · exact hsound.push rfl (by rw [start_fresh.root_eq]; exact hsound.nonempty) rfl (by simp)
  · rw [(hempty i hi).1, (hempty i hi).2]
    rfl
  · rw [(hempty i hi).1, (hempty i hi).2]
    rfl
  · intro i hi
    cases hi

theorem exists_evaluate_part {limit : Nat} (extra : Nat) {s : Session} (hs : s.Sound) {s' : Store}
    (hin : s.store.InBlock s') {source : String} (hok : (s.eval limit source).1.isOk = true)
    (held : Held) :
    ∃ e v t', Term.parse source = .ok e ∧ (s.eval limit source).1 = .ok v ∧
      ScopedLisp.evaluate (limit + extra) held 1 e s' = .ok (shifted.value v) t' ∧
      (s.eval limit source).2.store.InBlock t' := by
  cases hv : (s.eval limit source).1 with
  | error fault => rw [hv] at hok; cases hok
  | ok v =>
    obtain ⟨e, t, hparse, hx, hstore⟩ := exists_of_eval_ok hv
    rw [hs.root_eq] at hx
    have hheld : (Simulation.block extra).Helds (Held.enter { scopes := [0] } 0)
        (held.enter 1) := by
      intro i hi
      have hzero : i = 0 := by simpa [Held.references, Held.enter] using hi
      subst hzero
      exact List.mem_cons_self
    have hproper := hs.activation_proper hparse limit
    rw [activation, hs.root_eq] at hproper
    have hmatch := (Simulation.block_lawful extra).followed hproper (fun _ _ _ _ => trivial)
      held s' hheld hin
    obtain ⟨t', hx', hin'⟩ := hmatch.of_ok hx
    rw [hstore]
    exact ⟨e, v, t', hparse, rfl, hx', hin'⟩

/-- **A session in which every text has a value is followed by the parts of a block.** -/
theorem exists_evaluateBlock {limit : Nat} (extra : Nat) {s : Session} (hs : s.Sound) {s' : Store}
    (hin : s.store.InBlock s') {source : String} {sources : List String}
    (hrun : ∀ r ∈ (s.run limit (source :: sources)).1, r.isOk = true) (held : Held)
    (last : Option Term) :
    ∃ e es v t', List.Forall₂ (fun source e => Term.parse source = .ok e) (source :: sources)
        (e :: es) ∧
      (s.run limit (source :: sources)).1.getLast? = some (.ok v) ∧
      evaluateBlock (ScopedLisp.evaluate (limit + extra)) held 1 last e es s' =
        .ok (shifted.value v) t' := by
  -- on the texts: the value of each part is held while the next one is evaluated
  induction sources generalizing s s' source last with
  | nil =>
    obtain ⟨e, v, t', hparse, hv, hx, -⟩ := exists_evaluate_part extra hs hin
      (hrun _ List.mem_cons_self) (last.elim held held.keep)
    exact ⟨e, [], v, t', .cons hparse .nil, congrArg some hv, hx⟩
  | cons next sources ih =>
    obtain ⟨e, v, t', hparse, hv, hx, hin'⟩ := exists_evaluate_part extra hs hin
      (hrun _ List.mem_cons_self) (last.elim held held.keep)
    obtain ⟨e', es, w, u', hparses, hlast, hblock⟩ := ih (hs.eval limit source) hin'
      (fun r hr => hrun r (List.mem_cons_of_mem _ hr)) (some (shifted.value v))
    refine ⟨e, e' :: es, w, u', .cons hparse hparses, List.getLast?_cons_cons.trans hlast, ?_⟩
    rw [evaluateBlock, Eval.bind_of_ok hx]
    exact hblock

end Session

/-- **Interactive use and a program agree.** If every text of a new session has a value, then the
texts in one block, with any gaps between them, are a program with a value, provided that it can
nest deeper than the session: it prints like the last value of the session, and is the same if that
one is an integer or a boolean. -/
theorem evalProgram_blockProgram {parts : List (String × String)} (hparts : parts ≠ [])
    (hgaps : ∀ p ∈ parts, isGap p.1 = true) {limit : Nat}
    (hrun : ∀ r ∈ (Session.start.run limit (parts.map (·.2))).1, r.isOk = true) {levels : Nat}
    (hlevels : limit < levels) :
    ∃ v w, (Session.start.run limit (parts.map (·.2))).1.getLast? = some (.ok v) ∧
      evalProgram levels (blockProgram parts) = .ok w ∧ w.render = v.render ∧
      (v.isInt = true ∨ v.isBool = true → w = v) := by
  obtain ⟨extra, rfl⟩ : ∃ k, levels = limit + k + 1 := ⟨levels - limit - 1, by omega⟩
  obtain ⟨source, sources, hsources⟩ : ∃ source sources, parts.map (·.2) = source :: sources := by
    cases parts with
    | nil => exact absurd rfl hparts
    | cons p parts => exact ⟨p.2, parts.map (·.2), rfl⟩
  rw [hsources] at hrun
  obtain ⟨e, es, v, t', hparses, hlast, hblock⟩ := Session.exists_evaluateBlock extra
    Session.start_fresh.toSound Session.start_inBlock hrun (Held.enter { scopes := [0] } 0) none
  rw [← hsources, List.forall₂_map_left_iff] at hparses
  have hprogram := Term.parse_blockProgram hgaps hparses
  have hx : evaluate (limit + extra + 1) { scopes := [Session.start.root] } Session.start.root
      (.list (Keyword.block.term :: e :: es)) Session.start.store =
        .ok (shifted.value v) t' := by
    unfold evaluate
    rw [evaluateWith_form (Keyword.ofTerm?_term .block)]
    exact hblock
  refine ⟨v, shifted.value v, hsources ▸ hlast, ?_, Translation.render_shifted v, fun hatom => ?_⟩
  · rw [evalProgram, Session.eval_of_parse_ok hprogram, Session.evaluate_of_ok hx]
  · cases v with
    | int n => rfl
    | bool b => rfl
    | _ => rcases hatom with hatom | hatom <;> cases hatom

/-- A closure that keeps the scope of a recursive named function, which is called from outside. -/
theorem evalProgram_blockProgram_kept :
    ∃ parts v w, parts = [
        (" ", "(let f (do (defn g (n) (if (lte n 0) n (g (sub n 1)))) (fn () (g 2))))"),
        ("\n\t", "(f)")] ∧
      (Session.start.run 12 (parts.map (·.2))).1.getLast? = some (.ok v) ∧
      evalProgram 13 (blockProgram parts) = .ok w ∧ w.render = v.render := by
  let parts := [
    (" ", "(let f (do (defn g (n) (if (lte n 0) n (g (sub n 1)))) (fn () (g 2))))"),
    ("\n\t", "(f)")]
  have hgaps : ∀ p ∈ parts, isGap p.1 = true := by decide +kernel
  have hrun : ∀ r ∈ (Session.start.run 12 (parts.map (·.2))).1, r.isOk = true := by
    decide +kernel
  obtain ⟨v, w, hlast, hw, hrender, -⟩ :=
    evalProgram_blockProgram (by simp [parts]) hgaps hrun (Nat.lt_succ_self 12)
  exact ⟨parts, v, w, rfl, hlast, hw, hrender⟩

end ScopedLisp
