import ScopedLisp.Proofs.ReadBack

/-!
# Blocks in source texts

Source texts that are read one by one can be put into one text, with blanks between them, as the
parts of a block.

* `Token.scanFrom_append`: tokens of texts put together;
* `Term.exists_tree_of_parse`: a program that is read has the tokens of a tree;
* `blockProgram`: the source texts as the parts of one block;
* **`Term.parse_blockProgram`**: it is read as the block of their terms.
-/

namespace ScopedLisp

namespace Token

theorem scanFrom_append {b : List Char} (hb : EndsWord b) (pending a : List Char) :
    scanFrom pending (a ++ b) = scanFrom pending a ++ scanFrom [] b := by
  induction a generalizing pending with
  | nil => exact scanFrom_eq_flush_append hb pending
  | cons c a ih =>
    simp only [List.cons_append, scanFrom]
    split_ifs <;> simp [ih]

theorem isWordChar_of_isBlank {c : Char} (hc : Text.isBlank c = true) : isWordChar c = false := by
  simp [isWordChar, hc]

theorem scanFrom_blanks {gap : List Char} (hgap : ∀ c ∈ gap, Text.isBlank c = true)
    (cs : List Char) : scanFrom [] (gap ++ cs) = scanFrom [] cs := by
  induction gap with
  | nil => rfl
  | cons c gap ih =>
    have hc : Text.isBlank c = true := hgap c List.mem_cons_self
    have hopen : c ≠ '(' := by rintro rfl; cases hc
    have hclose : c ≠ ')' := by rintro rfl; cases hc
    rw [List.cons_append, scanFrom, if_neg (by simpa using hopen), if_neg (by simpa using hclose),
      if_pos hc, ih fun d hd => hgap d (List.mem_cons_of_mem _ hd)]
    rfl

end Token

namespace Term

open Token TokenTree

theorem all_numeral_of_ofWord {text : String} {t : Term} (h : ofWord text = .ok t) :
    (Numeral.ofSource? text.toList).all (·.digits.length ≤ maxDigits) = true := by
  cases hn : Numeral.ofSource? text.toList with
  | none => rfl
  | some n =>
    rw [ofWord_of_ofSource? hn] at h
    split_ifs at h with hlong
    all_goals simpa using Nat.le_of_not_lt hlong

/-- The first tokens are read, those of the rest are not; each word among the first is read by
itself. -/
def WordsRead (ts rest : List (Option Token)) : Prop :=
  ∃ used, ts = used ++ rest ∧
    ∀ token, some token ∈ used → token.kind = .word → ∃ u, ofWord token.text = .ok u

theorem WordsRead.cons {token : Token} {ts rest : List (Option Token)} (h : WordsRead ts rest)
    (htoken : token.kind = .word → ∃ u, ofWord token.text = .ok u) :
    WordsRead (some token :: ts) rest := by
  obtain ⟨used, hused, hwords⟩ := h
  refine ⟨some token :: used, by rw [hused]; rfl, fun token' hmem hword => ?_⟩
  rcases List.mem_cons.1 hmem with heq | hmem
  · cases heq
    exact htoken hword
  · exact hwords token' hmem hword

theorem WordsRead.refl (rest : List (Option Token)) : WordsRead rest rest :=
  ⟨[], rfl, fun _ hmem => nomatch hmem⟩

theorem wordsRead_of_readFrom {stack : List (List Term)} {ts rest : List (Option Token)} {t : Term}
    (h : readFrom stack ts = (.ok t, rest)) : WordsRead ts rest := by
  have hparen : ∀ {token : Token} {kind : TokenKind}, token.kind = kind → kind ≠ .word →
      token.kind = .word → ∃ u, ofWord token.text = .ok u := fun hkind hne hword =>
    absurd (hkind.symm.trans hword) hne
  fun_induction readFrom stack ts
  case case1 | case2 | case3 | case4 | case5 | case8 => cases h
  case case6 hkind _ =>
    cases h
    exact (WordsRead.refl _).cons (hparen hkind (by simp))
  case case7 hkind _ _ _ ih => exact (ih h).cons (hparen hkind (by simp))
  case case9 hword =>
    cases h
    exact (WordsRead.refl _).cons fun _ => ⟨_, hword⟩
  case case10 hword _ _ ih => exact (ih h).cons fun _ => ⟨_, hword⟩
  case case11 hkind ih => exact (ih h).cons (hparen hkind (by simp))
  case case12 hkind ih => exact (ih h).cons (hparen hkind (by simp))

/-- **A program that is read has the tokens of a tree.** -/
theorem exists_tree_of_parse {source : String} {t : Term} (h : parse source = .ok t) :
    ∃ tree : TokenTree, scan source = tree.tokens ∧ tree.term = .ok t := by
  have hshort : ShortNumerals (scan source) := by
    cases hread : readFrom [] ((scan source).map some) with
    | mk result rest =>
      simp only [parse, TokenStream.readTerm, TokenStream.ofSource, TokenStream.toList_ofList,
        hread] at h
      cases result with
      | error f => cases h
      | ok u =>
        dsimp only at h
        split_ifs at h with hend
        obtain ⟨used, hused, hwords⟩ := wordsRead_of_readFrom hread
        -- nothing is left over, since no token of a text is missing
        have hrest : rest = [] := by
          cases rest with
          | nil => rfl
          | cons item rest =>
            have hitem : item ∈ (scan source).map some := by rw [hused]; simp
            obtain ⟨token, -, rfl⟩ := List.mem_map.1 hitem
            cases hend
        rw [hrest, List.append_nil] at hused
        intro token htoken hword
        have hmem : some token ∈ used := hused ▸ List.mem_map_of_mem htoken
        obtain ⟨u, hu⟩ := hwords token hmem hword
        exact all_numeral_of_ofWord hu
  obtain ⟨tree, htree, hterm⟩ := (parse_eq_ok_iff hshort).1 h
  exact ⟨tree, htree.symm, hterm⟩

end Term

/-! ## Blocks -/

/-- The rest of a block: source texts, each after a gap, and the end of the block. -/
def blockRest : List (String × String) → String
  | [] => ")"
  | (gap, source) :: parts => gap ++ source ++ blockRest parts

/-- The program with the given source texts as the parts of one block, each after a gap. -/
def blockProgram (parts : List (String × String)) : String := "(do" ++ blockRest parts

/-- Whether a text is a gap between source texts: there are blanks in it and nothing else. -/
def isGap (gap : String) : Bool := !gap.toList.isEmpty && gap.toList.all Text.isBlank

theorem isGap_iff {gap : String} :
    isGap gap = true ↔ gap.toList ≠ [] ∧ ∀ c ∈ gap.toList, Text.isBlank c = true := by
  simp [isGap, List.all_eq_true]

namespace Token

theorem endsWord_blockRest {parts : List (String × String)}
    (hgaps : ∀ p ∈ parts, isGap p.1 = true) : EndsWord (blockRest parts).toList := by
  cases parts with
  | nil => exact endsWord_closing []
  | cons p parts =>
    obtain ⟨hne, hblank⟩ := isGap_iff.1 (hgaps p List.mem_cons_self)
    rw [blockRest, String.toList_append, String.toList_append, List.append_assoc]
    cases hgap : p.1.toList with
    | nil => exact absurd hgap hne
    | cons c cs =>
      rintro d ⟨⟩
      exact isWordChar_of_isBlank (hblank c (by rw [hgap]; exact List.mem_cons_self))

theorem scan_blockRest {parts : List (String × String)} (hgaps : ∀ p ∈ parts, isGap p.1 = true)
    {trees : List TokenTree}
    (htrees : List.Forall₂ (fun p tree => scan p.2 = tree.tokens) parts trees) :
    scanFrom [] (blockRest parts).toList = TokenTree.tokensOfAll trees ++ [closing] := by
  induction htrees with
  | nil => rfl
  | @cons p tree parts trees htree _ ih =>
    have hgaps' : ∀ p ∈ parts, isGap p.1 = true := fun p hp => hgaps p (List.mem_cons_of_mem _ hp)
    have hblank := (isGap_iff.1 (hgaps p List.mem_cons_self)).2
    have hsource : scanFrom [] p.2.toList = tree.tokens := htree
    rw [blockRest, String.toList_append, String.toList_append, List.append_assoc,
      scanFrom_blanks hblank, scanFrom_append (endsWord_blockRest hgaps'), hsource, ih hgaps',
      TokenTree.tokensOfAll, List.append_assoc]

end Token

namespace Term

open Token TokenTree

theorem exists_trees {parts : List (String × String)} {es : List Term}
    (h : List.Forall₂ (fun p e => parse p.2 = .ok e) parts es) :
    ∃ trees, List.Forall₂ (fun p tree => scan p.2 = tree.tokens) parts trees ∧
      termsOfAll trees = .ok es := by
  induction h with
  | nil => exact ⟨[], .nil, rfl⟩
  | @cons p e parts es hparse _ ih =>
    obtain ⟨tree, htree, hterm⟩ := exists_tree_of_parse hparse
    obtain ⟨trees, htrees, hterms⟩ := ih
    refine ⟨tree :: trees, .cons htree htrees, ?_⟩
    rw [termsOfAll, hterm]
    simp only [hterms]
    rfl

/-- **Source texts that are read one by one are read together as a block.** -/
theorem parse_blockProgram {parts : List (String × String)} (hgaps : ∀ p ∈ parts, isGap p.1 = true)
    {es : List Term} (h : List.Forall₂ (fun p e => parse p.2 = .ok e) parts es) :
    parse (blockProgram parts) = .ok (.list (Keyword.block.term :: es)) := by
  obtain ⟨trees, htrees, hterms⟩ := exists_trees h
  have hrest := scan_blockRest hgaps htrees
  have hword : isWord ['d', 'o'] = true := by decide
  have hscan : scan (blockProgram parts) = (TokenTree.list (.word "do" :: trees)).tokens := by
    have htext : (blockProgram parts).toList = '(' :: (['d', 'o'] ++ (blockRest parts).toList) := by
      rw [blockProgram, String.toList_append]
      rfl
    rw [scan, htext, scanFrom_opening, scanFrom_word hword (endsWord_blockRest hgaps), hrest]
    rfl
  refine parse_of_tokens hscan ?_
  have hdo : ofWord "do" = .ok Keyword.block.term := rfl
  rw [term, termsOfAll, term, hdo]
  simp only [hterms]
  rfl

end Term

end ScopedLisp
