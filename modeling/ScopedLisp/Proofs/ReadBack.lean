import ScopedLisp.Proofs.Grammar

/-!
# Reading what was printed

* `Term.Readable`: the terms that texts are read as;
* `Token.scanFrom_word`: a word ends where a character of no word follows;
* `Numeral.ofSource?_repr`: the decimal form of an integer is its numeral;
* `Term.scan_render`: the tokens of the answer form of a term are those of its tree;
* `Term.readable_of_parse`: reading gives readable terms and no others;
* **`Term.parse_render_spec`**: reading undoes printing, and printing is canonical.
-/

namespace ScopedLisp

/-! ## Words in texts -/

namespace Token

/-- A text that cannot go on with a word: it is empty or starts with another character. -/
def EndsWord (cs : List Char) : Prop := ∀ c ∈ cs.head?, isWordChar c = false

theorem scanFrom_append_of_word {w : List Char} (hw : ∀ c ∈ w, isWordChar c = true)
    (pending cs : List Char) :
    scanFrom pending (w ++ cs) = scanFrom (w.reverse ++ pending) cs := by
  induction w generalizing pending with
  | nil => rfl
  | cons c w ih =>
    have hc := hw c List.mem_cons_self
    simp only [isWordChar, Bool.and_eq_true, Bool.not_eq_true', bne_iff_ne] at hc
    obtain ⟨⟨hblank, hopen⟩, hclose⟩ := hc
    rw [List.cons_append, scanFrom, if_neg (by simpa using hopen), if_neg (by simpa using hclose),
      if_neg (by simp [hblank]), ih fun d hd => hw d (List.mem_cons_of_mem _ hd)]
    simp

theorem scanFrom_eq_flush_append {cs : List Char} (hcs : EndsWord cs) (pending : List Char) :
    scanFrom pending cs = flush pending ++ scanFrom [] cs := by
  cases cs with
  | nil => simp [scanFrom, flush]
  | cons c cs =>
    have hc : isWordChar c = false := hcs c rfl
    simp only [scanFrom]
    split_ifs with h1 h2 h3
    · rfl
    · rfl
    · rfl
    · simp only [beq_iff_eq] at h1 h2
      simp [isWordChar, h1, h2, h3] at hc

theorem flush_of_ne_nil {cs : List Char} (h : cs ≠ []) : flush cs = [word cs.reverse] := by
  cases cs with
  | nil => exact absurd rfl h
  | cons c cs => rfl

/-- **A word at the start of a text is a token of its own if no character of a word follows.** -/
theorem scanFrom_word {w : List Char} (hw : isWord w = true) {cs : List Char} (hcs : EndsWord cs) :
    scanFrom [] (w ++ cs) = word w :: scanFrom [] cs := by
  simp only [isWord, Bool.and_eq_true, Bool.not_eq_true', List.all_eq_true,
    List.isEmpty_eq_false_iff] at hw
  rw [scanFrom_append_of_word hw.2, List.append_nil, scanFrom_eq_flush_append hcs,
    flush_of_ne_nil (by simpa using hw.1), List.reverse_reverse]
  rfl

theorem scanFrom_space (cs : List Char) : scanFrom [] (' ' :: cs) = scanFrom [] cs := rfl

theorem scanFrom_opening (cs : List Char) :
    scanFrom [] ('(' :: cs) = opening :: scanFrom [] cs := rfl

theorem scanFrom_closing (cs : List Char) :
    scanFrom [] (')' :: cs) = closing :: scanFrom [] cs := rfl

theorem endsWord_space (cs : List Char) : EndsWord (' ' :: cs) := by
  rintro c ⟨⟩
  decide

theorem endsWord_closing (cs : List Char) : EndsWord (')' :: cs) := by
  rintro c ⟨⟩
  decide

end Token

/-! ## Integers in decimal -/

namespace Numeral

theorem asciiDigit?_of_isDigit {c : Char} (hc : c.isDigit = true) :
    asciiDigit? c = some (c.toNat - '0'.toNat) := by
  simp only [Char.isDigit, Bool.and_eq_true, decide_eq_true_eq] at hc
  exact if_pos hc

theorem mapM_asciiDigit?_of_isDigit {cs : List Char} (hcs : ∀ c ∈ cs, c.isDigit = true) :
    cs.mapM asciiDigit? = some (cs.map fun c => c.toNat - '0'.toNat) := by
  induction cs with
  | nil => rfl
  | cons c cs ih =>
    rw [List.mapM_cons, asciiDigit?_of_isDigit (hcs c List.mem_cons_self),
      ih fun d hd => hcs d (List.mem_cons_of_mem _ hd)]
    rfl

theorem splitSign_of_isDigit {c : Char} (hc : c.isDigit = true) (cs : List Char) :
    splitSign (c :: cs) = (false, c :: cs) := by
  unfold splitSign
  split
  · next h => cases h; cases hc
  · next h => cases h; cases hc
  · rfl

theorem ofSource?_of_isDigit {cs : List Char} (hne : cs ≠ []) (hcs : ∀ c ∈ cs, c.isDigit = true) :
    ofSource? cs = some ⟨false, cs.map fun c => c.toNat - '0'.toNat⟩ := by
  cases cs with
  | nil => exact absurd rfl hne
  | cons c cs =>
    rw [ofSource?, splitSign_of_isDigit (hcs c List.mem_cons_self)]
    simp only [mapM_asciiDigit?_of_isDigit hcs]
    rfl

/-- The decimal digits of a number. -/
def decimal (n : Nat) : List Nat := (Nat.toDigits 10 n).map fun c => c.toNat - '0'.toNat

theorem magnitude_decimal (n : Nat) : magnitude (decimal n) = n := by
  rw [magnitude, decimal, List.foldl_map]
  exact Nat.ofDigitChars_ten_toDigits

theorem isDigit_of_mem_toDigits {n : Nat} {c : Char} (hc : c ∈ Nat.toDigits 10 n) :
    c.isDigit = true :=
  Nat.isDigit_of_mem_toDigits (by decide) (by decide) hc

theorem ofSource?_repr (n : Int) :
    ofSource? n.repr.toList = some ⟨decide (n < 0), decimal n.natAbs⟩ := by
  obtain ⟨c, cs, hcs⟩ : ∃ c cs, Nat.toDigits 10 n.natAbs = c :: cs :=
    List.exists_cons_of_ne_nil Nat.toDigits_ne_nil
  have hdigit : ∀ d ∈ c :: cs, d.isDigit = true := fun d hd =>
    isDigit_of_mem_toDigits (n := n.natAbs) (by rw [hcs]; exact hd)
  rw [Int.repr_eq_if, decimal, hcs]
  by_cases hn : 0 ≤ n
  · rw [if_pos hn, Nat.toList_repr, show n.toNat = n.natAbs by omega, hcs,
      ofSource?_of_isDigit (List.cons_ne_nil c cs) hdigit]
    simp [hn]
  · rw [if_neg hn, String.toList_append, Nat.toList_repr,
      show (-n).toNat = n.natAbs by omega, hcs, ofSource?]
    change Option.map _ ((c :: cs).mapM asciiDigit?) = _
    rw [mapM_asciiDigit?_of_isDigit hdigit]
    simp [Int.not_le.1 hn]

theorem value_decimal (n : Int) : value ⟨decide (n < 0), decimal n.natAbs⟩ = n := by
  simp only [value, magnitude_decimal, decide_eq_true_eq]
  split_ifs <;> omega

theorem length_decimal_le {n : Nat} (hn : n < 10000000000000000000) :
    (decimal n).length ≤ 19 := by
  rw [decimal, List.length_map, Nat.length_toDigits_le_iff (by decide) (by decide)]
  exact hn

end Numeral

/-! ## Readable terms -/

namespace Term

open Token TokenTree

/-- The terms that texts are read as: booleans, integers in range, symbols whose names are read as
themselves, and lists of readable terms. -/
inductive Readable : Term → Prop
  | bool (b : Bool) : Readable (.bool b)
  | int {n : Int} (h : inRange n = true) : Readable (.int n)
  | symbol {s : Symbol} (h : ofWord s.name = .ok (.symbol s)) : Readable (.symbol s)
  | list {items : List Term} (h : ∀ t ∈ items, Readable t) : Readable (.list items)

theorem readable_list_iff {items : List Term} :
    Readable (.list items) ↔ ∀ t ∈ items, Readable t :=
  ⟨fun | .list h => h, .list⟩

theorem ofWord_of_ofSource? {text : String} {n : Numeral}
    (h : Numeral.ofSource? text.toList = some n) :
    ofWord text =
      if maxDigits < n.digits.length then .error (.tooManyDigits n.digits.length)
      else if inRange n.value then .ok (.int n.value) else symbolOf text := by
  have htrue : text ≠ "true" := by
    rintro rfl
    rw [show Numeral.ofSource? "true".toList = none by decide +kernel] at h
    cases h
  have hfalse : text ≠ "false" := by
    rintro rfl
    rw [show Numeral.ofSource? "false".toList = none by decide +kernel] at h
    cases h
  rw [ofWord, if_neg (by simpa using htrue), if_neg (by simpa using hfalse)]
  simp only [h]

theorem ofWord_of_numeral {text : String} {n : Numeral} (h : Numeral.ofSource? text.toList = some n)
    (hd : n.digits.length ≤ maxDigits) (hr : inRange n.value = true) :
    ofWord text = .ok (.int n.value) := by
  rw [ofWord_of_ofSource? h, if_neg (Nat.not_lt.2 hd), if_pos hr]

theorem ofWord_toString {n : Int} (hr : inRange n = true) : ofWord (toString n) = .ok (.int n) := by
  have hnum := Numeral.ofSource?_repr n
  have hvalue := Numeral.value_decimal n
  have hlen : (Numeral.decimal n.natAbs).length ≤ 19 := by
    rw [inRange_iff, minInt, maxInt] at hr
    exact Numeral.length_decimal_le (by omega)
  have h := ofWord_of_numeral hnum (Nat.le_trans hlen (by decide)) (by rw [hvalue]; exact hr)
  rwa [hvalue] at h

/-! ## Printing and scanning -/

theorem isWordChar_of_isDigit {c : Char} (hc : c.isDigit = true) : isWordChar c = true := by
  simp only [Char.isDigit, Bool.and_eq_true, decide_eq_true_eq, ge_iff_le, UInt32.le_iff_toNat_le]
    at hc
  have hopen : c ≠ '(' := by rintro rfl; exact absurd hc (by decide)
  have hclose : c ≠ ')' := by rintro rfl; exact absurd hc (by decide)
  have hblank : Text.isBlank c = false := by
    simp only [Text.isBlank, Char.toNat, Bool.or_eq_false_iff, Bool.and_eq_false_iff,
      decide_eq_false_iff_not, beq_eq_false_iff_ne]
    have h0 : '0'.val.toNat = 48 := rfl
    have h9 : '9'.val.toNat = 57 := rfl
    omega
  simp [isWordChar, hopen, hclose, hblank]

theorem isWord_toString (n : Int) : isWord (toString n).toList = true := by
  have hall : ∀ c ∈ Nat.toDigits 10 n.natAbs, isWordChar c = true := fun c hc =>
    isWordChar_of_isDigit (Numeral.isDigit_of_mem_toDigits hc)
  rw [Int.toString_eq_repr, Int.repr_eq_if]
  split_ifs with hn
  · rw [Nat.toList_repr, show n.toNat = n.natAbs by omega]
    simpa [isWord, List.all_eq_true] using hall
  · rw [String.toList_append, Nat.toList_repr, show (-n).toNat = n.natAbs by omega]
    simp only [isWord, Bool.and_eq_true, List.all_eq_true, List.mem_append]
    refine ⟨by simp, ?_⟩
    rintro c (hc | hc)
    · rw [show "-".toList = ['-'] from by decide +kernel, List.mem_singleton] at hc
      subst hc
      decide
    · exact hall c hc

mutual

/-- The tree that a term is printed as. -/
def tree : Term → TokenTree
  | list items => .list (treesOfAll items)
  | t => .word t.render

/-- The trees that terms are printed as. -/
def treesOfAll : List Term → List TokenTree
  | [] => []
  | t :: ts => t.tree :: treesOfAll ts

end

theorem scan_renderAll {items : List Term}
    (h : ∀ t ∈ items, ∀ cs, EndsWord cs →
      scanFrom [] (t.render.toList ++ cs) = t.tree.tokens ++ scanFrom [] cs)
    {cs : List Char} (hcs : EndsWord cs) :
    scanFrom [] ((" ".intercalate (renderAll items)).toList ++ cs) =
      tokensOfAll (treesOfAll items) ++ scanFrom [] cs := by
  induction items with
  | nil => simp [renderAll, treesOfAll, tokensOfAll]
  | cons t ts ih =>
    cases ts with
    | nil =>
      simp only [renderAll, treesOfAll, tokensOfAll, String.intercalate_singleton, List.append_nil]
      exact h t List.mem_cons_self cs hcs
    | cons u us =>
      have ih := ih fun t ht => h t (List.mem_cons_of_mem _ ht)
      simp only [renderAll, treesOfAll, tokensOfAll, String.intercalate_cons_cons,
        String.toList_append, List.append_assoc] at ih ⊢
      rw [show " ".toList = [' '] from by decide +kernel, List.singleton_append,
        h t List.mem_cons_self _ (endsWord_space _), scanFrom_space, ih]

/-- **The tokens of a printed term are those of its tree.** -/
theorem scan_render {t : Term} (ht : t.Readable) :
    ∀ cs, EndsWord cs → scanFrom [] (t.render.toList ++ cs) = t.tree.tokens ++ scanFrom [] cs := by
  induction ht with
  | bool b =>
    intro cs hcs
    cases b
    · exact scanFrom_word (w := "false".toList) (by decide +kernel) hcs
    · exact scanFrom_word (w := "true".toList) (by decide +kernel) hcs
  | @int n h =>
    intro cs hcs
    rw [render, scanFrom_word (isWord_toString n) hcs]
    simp [tree, tokens, Token.word, render]
  | @symbol s h =>
    intro cs hcs
    rw [render, scanFrom_word s.isWord_name hcs]
    simp [tree, tokens, Token.word, render]
  | @list items h ih =>
    intro cs hcs
    rw [render, parenthesized, String.toList_append, String.toList_append,
      show "(".toList = ['('] from by decide +kernel,
      show ")".toList = [')'] from by decide +kernel, List.append_assoc, List.append_assoc,
      List.singleton_append, List.singleton_append, scanFrom_opening,
      scan_renderAll ih (endsWord_closing cs), scanFrom_closing]
    simp [tree, tokens]

theorem termsOfAll_treesOfAll {items : List Term} (h : ∀ t ∈ items, t.tree.term = .ok t) :
    termsOfAll (treesOfAll items) = .ok items := by
  induction items with
  | nil => rfl
  | cons t ts ih =>
    rw [treesOfAll, termsOfAll, h t List.mem_cons_self]
    simp only [ih fun u hu => h u (List.mem_cons_of_mem _ hu)]
    rfl

theorem term_tree {t : Term} (ht : t.Readable) : t.tree.term = .ok t := by
  induction ht with
  | bool b => cases b <;> rfl
  | int h => exact ofWord_toString h
  | symbol h => exact h
  | list _ ih =>
    rw [tree, term, termsOfAll_treesOfAll ih]
    rfl

theorem parse_render {t : Term} (ht : t.Readable) : parse t.render = .ok t := by
  have hscan := scan_render ht [] (by rintro c ⟨⟩)
  rw [List.append_nil, scanFrom, flush, List.append_nil] at hscan
  exact parse_of_tokens hscan (term_tree ht)

/-! ## What is read is readable -/

theorem readable_of_ofWord {text : String} {t : Term} (h : ofWord text = .ok t) : t.Readable := by
  have hsym : ofWord text = symbolOf text → t.Readable := by
    intro hword
    have hs := hword.symm.trans h
    rw [symbolOf] at hs
    cases hname : Symbol.ofName? text with
    | none => rw [hname] at hs; cases hs
    | some s =>
      rw [hname] at hs
      cases hs
      exact .symbol (by rw [Symbol.name_of_ofName?_eq_some hname]; exact h)
  unfold ofWord at h hsym
  split_ifs at h hsym
  · cases h; exact .bool true
  · cases h; exact .bool false
  · cases hn : Numeral.ofSource? text.toList with
    | none =>
      rw [hn] at hsym
      exact hsym rfl
    | some n =>
      simp only [hn] at h hsym
      split_ifs at h hsym with _ hr
      · cases h; exact .int hr
      · exact hsym rfl

theorem readable_of_readFrom {stack : List (List Term)} {ts rest : List (Option Token)} {t : Term}
    (hs : ∀ items ∈ stack, ∀ u ∈ items, u.Readable) (h : readFrom stack ts = (.ok t, rest)) :
    t.Readable := by
  -- the invariant is that every term in the stack is readable
  fun_induction readFrom stack ts with
  | case1 => cases h
  | case2 => cases h
  | case3 => cases h
  | case4 => cases h
  | case5 => cases h
  | case6 _ _ _ items =>
    cases h
    exact .list fun u hu => hs items List.mem_cons_self u (List.mem_reverse.1 hu)
  | case7 _ _ _ items outer stack ih =>
    have hlist : Readable (.list items.reverse) :=
      .list fun u hu => hs items List.mem_cons_self u (List.mem_reverse.1 hu)
    refine ih (fun us hus u hu => ?_) h
    rcases List.mem_cons.1 hus with rfl | hus
    · rcases List.mem_cons.1 hu with rfl | hu
      · exact hlist
      · exact hs outer (by simp) u hu
    · exact hs us (by simp [hus]) u hu
  | case8 => cases h
  | case9 _ _ _ t' hword =>
    cases h
    exact readable_of_ofWord hword
  | case10 _ _ _ t' hword items stack ih =>
    refine ih (fun us hus u hu => ?_) h
    rcases List.mem_cons.1 hus with rfl | hus
    · rcases List.mem_cons.1 hu with rfl | hu
      · exact readable_of_ofWord hword
      · exact hs items List.mem_cons_self u hu
    · exact hs us (List.mem_cons_of_mem _ hus) u hu
  | case11 _ _ _ _ ih => exact ih (by simpa using hs) h
  | case12 _ _ _ _ _ ih => exact ih (by simpa using hs) h

theorem readable_of_parse {source : String} {t : Term} (h : parse source = .ok t) :
    t.Readable := by
  cases hread : readFrom [] ((scan source).map some) with
  | mk result rest =>
    simp only [parse, TokenStream.readTerm, TokenStream.ofSource, TokenStream.toList_ofList,
      hread] at h
    cases result with
    | error f => cases h
    | ok u =>
      dsimp only at h
      split_ifs at h
      cases h
      exact readable_of_readFrom (by simp) hread

theorem readable_iff_exists_parse {t : Term} : t.Readable ↔ ∃ source, parse source = .ok t :=
  ⟨fun ht => ⟨t.render, parse_render ht⟩, fun ⟨_, h⟩ => readable_of_parse h⟩

/-- **Reading undoes printing, and every term that is read is printed in its one form.** -/
theorem parse_render_spec :
    (∀ t : Term, t.Readable → parse t.render = .ok t) ∧
      ∀ (source : String) (t : Term), parse source = .ok t →
        t.Readable ∧ parse t.render = parse source := by
  refine ⟨fun t ht => parse_render ht, fun source t h => ?_⟩
  have ht := readable_of_parse h
  exact ⟨ht, (parse_render ht).trans h.symm⟩

/-- The least integer, a symbol that looks like an integer, and a number beside a boolean. -/
theorem parse_render_spec_edges :
    ∃ t, parse " ( -9223372036854775808 9223372036854775808 +01 true(( )))" = .ok t ∧
      t.render = "(-9223372036854775808 9223372036854775808 1 true (()))" ∧
        t.Readable ∧ parse t.render = .ok t := by
  obtain ⟨t, hparse, hrender⟩ :
      ∃ t, parse " ( -9223372036854775808 9223372036854775808 +01 true(( )))" = .ok t ∧
        t.render = "(-9223372036854775808 9223372036854775808 1 true (()))" :=
    ⟨_, rfl, by decide +kernel⟩
  have ht := (parse_render_spec.2 _ t hparse).1
  exact ⟨t, hparse, hrender, ht, parse_render_spec.1 t ht⟩

end Term

end ScopedLisp
