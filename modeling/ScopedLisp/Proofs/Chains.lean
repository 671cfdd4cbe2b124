import ScopedLisp.Proofs.SoundStore

/-!
# Chains of scopes

In a sound store the scopes around a scope are all there, so chains and look-ups can be read from
the inside out.

* `Store.Sound.chain_of_outer_some`: a chain goes on with the chain of the scope around;
* `Store.lookup_of_get?_some`, `Store.Sound.lookup_of_outer_some`: a name that a scope does not bind
  is looked for in the scope around it;
* `Store.exists_lookup_iff`: a name has a value exactly if a scope of the chain binds it.
-/

namespace ScopedLisp

namespace Store

variable {s : Store} {i o : Nat} {name : Symbol}

theorem chain_eq_cons (hi : i < s.size) : ∃ rest, s.chain i = i :: rest := by
  obtain ⟨n, hn⟩ : ∃ k, s.size = k + 1 := ⟨s.size - 1, by omega⟩
  rw [chain, hn, chainFrom]
  exact ⟨_, rfl⟩

theorem chain_of_outer_none (ho : (s.frame i).outer = none) (hi : i < s.size) :
    s.chain i = [i] := by
  obtain ⟨n, hn⟩ : ∃ k, s.size = k + 1 := ⟨s.size - 1, by omega⟩
  rw [chain, hn, chainFrom, ho]

theorem Sound.chainFrom_congr (hs : s.Sound) {m n : Nat} (hi : i < s.size) (hm : i < m)
    (hn : i < n) : s.chainFrom m i = s.chainFrom n i := by
  induction i using Nat.strong_induction_on generalizing m n with
  | _ i ih =>
  obtain ⟨m, rfl⟩ : ∃ k, m = k + 1 := ⟨m - 1, by omega⟩
  obtain ⟨n, rfl⟩ : ∃ k, n = k + 1 := ⟨n - 1, by omega⟩
  rw [chainFrom, chainFrom]
  cases ho : (s.frame i).outer with
  | none => rfl
  | some o =>
    have hlt := (hs.outer_some ho).1
    exact congrArg (i :: ·) (ih o hlt (by omega) (by omega) (by omega))

/-- **A chain goes on with the chain of the scope around.** -/
theorem Sound.chain_of_outer_some (hs : s.Sound) (ho : (s.frame i).outer = some o) :
    s.chain i = i :: s.chain o := by
  obtain ⟨hlt, hi⟩ := hs.outer_some ho
  obtain ⟨n, hn⟩ : ∃ k, s.size = k + 1 := ⟨s.size - 1, by omega⟩
  have hcongr : s.chainFrom n o = s.chainFrom s.size o :=
    hs.chainFrom_congr (by omega) (by omega) (by omega)
  rw [chain, chain, ← hcongr, hn, chainFrom, ho]

/-! ## Look-ups -/

theorem lookup_of_get?_some {v : Term} (hi : i < s.size) (h : (s.frame i).get? name = some v) :
    s.lookup i name = some v := by
  obtain ⟨rest, hrest⟩ := chain_eq_cons hi
  have hbinds : (s.frame i).binds name = true := by rw [Frame.binds, h]; rfl
  simp only [lookup, find?, hrest, List.find?_cons, hbinds, Option.bind_some, h]

theorem Sound.lookup_of_outer_some (hs : s.Sound) (h : (s.frame i).get? name = none)
    (ho : (s.frame i).outer = some o) : s.lookup i name = s.lookup o name := by
  have hbinds : (s.frame i).binds name = false := by rw [Frame.binds, h]; rfl
  simp only [lookup, find?, hs.chain_of_outer_some ho, List.find?_cons, hbinds]

theorem lookup_of_outer_none (h : (s.frame i).get? name = none) (hi : i < s.size)
    (ho : (s.frame i).outer = none) : s.lookup i name = none := by
  have hbinds : (s.frame i).binds name = false := by rw [Frame.binds, h]; rfl
  simp only [lookup, find?, chain_of_outer_none ho hi, List.find?_cons, hbinds, List.find?_nil,
    Option.bind_none]

theorem exists_lookup_iff :
    (∃ v, s.lookup i name = some v) ↔ ∃ j ∈ s.chain i, (s.frame j).binds name = true := by
  constructor
  · rintro ⟨v, hv⟩
    obtain ⟨j, hj, hget⟩ := Option.bind_eq_some_iff.1 hv
    refine ⟨j, List.mem_of_find?_eq_some hj, ?_⟩
    rw [Frame.binds, hget]
    rfl
  · rintro ⟨j, hj, hbinds⟩
    have hfind : (s.find? i name).isSome = true := List.find?_isSome.2 ⟨j, hj, hbinds⟩
    obtain ⟨k, hk⟩ := Option.isSome_iff_exists.1 hfind
    have hfound : (s.frame k).binds name = true :=
      List.find?_some (p := fun j => (s.frame j).binds name) hk
    obtain ⟨v, hv⟩ := Option.isSome_iff_exists.1 hfound
    exact ⟨v, Option.bind_eq_some_iff.2 ⟨k, hk, hv⟩⟩

end Store

end ScopedLisp
