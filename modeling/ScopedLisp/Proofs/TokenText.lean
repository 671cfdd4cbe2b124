import Mathlib.Data.List.DropRight
import ScopedLisp.Proofs.BlockText

/-!
# The text of tokens

Scanning loses nothing but blanks, and it cuts a text exactly where no word goes on.

* `Token.flatMap_text_scanFrom`: the tokens are written with the text without its blanks;
* `Token.Joins`, `Token.scanFrom_append_iff`: texts with tokens of their own are those between which
  no word goes on;
* `Token.first?`, `Token.takeAll`: tokens taken off a text one after the other, each as long as it
  can be;
* `Token.takeAll_spec`: these are the tokens of the text, and nothing but blanks is left of it;
* **`Token.scan_text`**: the tokens of every text.
-/

namespace ScopedLisp

namespace Token

/-! ## Nothing is lost -/

theorem flatMap_text_flush (pending : List Char) :
    (flush pending).flatMap (·.text.toList) = pending.reverse := by
  cases pending with
  | nil => rfl
  | cons c cs => simp [flush, word]

theorem flatMap_text_scanFrom (pending cs : List Char) :
    (scanFrom pending cs).flatMap (·.text.toList) =
      pending.reverse ++ cs.filter fun c => !Text.isBlank c := by
  induction cs generalizing pending with
  | nil => simpa [scanFrom] using flatMap_text_flush pending
  | cons c cs ih =>
    have hopening : Text.isBlank '(' = false := by decide
    have hclosing : Text.isBlank ')' = false := by decide
    simp only [scanFrom, beq_iff_eq]
    split_ifs with h₁ h₂ h₃
    · simp [ih, flatMap_text_flush, opening, h₁, hopening]
    · simp [ih, flatMap_text_flush, closing, h₂, hclosing]
    · simp [ih, flatMap_text_flush, h₃]
    · simp [ih, h₃]

/-! ## Where texts are cut -/

/-- A word goes on from the one text into the other: the two characters that meet can both belong to
it. -/
def Joins (a b : List Char) : Prop :=
  ∃ c ∈ a.getLast?, ∃ d ∈ b.head?, isWordChar c = true ∧ isWordChar d = true

theorem scanFrom_cons_of_not_isWordChar {c : Char} (hc : isWordChar c = false) (cs : List Char) :
    scanFrom [] (c :: cs) = scanFrom [] [c] ++ scanFrom [] cs := by
  simp only [scanFrom, beq_iff_eq]
  split_ifs with h₁ h₂ h₃
  · simp [flush]
  · simp [flush]
  · simp [flush]
  · simp [isWordChar, h₁, h₂, h₃] at hc

theorem scanFrom_append_of_getLast {a : List Char}
    (ha : ∀ c ∈ a.getLast?, isWordChar c = false) (b : List Char) :
    scanFrom [] (a ++ b) = scanFrom [] a ++ scanFrom [] b := by
  rcases List.eq_nil_or_concat' a with rfl | ⟨a, c, rfl⟩
  · rfl
  · have hc : isWordChar c = false := ha c (by simp)
    have hends : ∀ cs, EndsWord (c :: cs) := by
      rintro cs d ⟨⟩
      exact hc
    calc scanFrom [] (a ++ [c] ++ b)
        = scanFrom [] (a ++ c :: b) := by simp
      _ = scanFrom [] a ++ scanFrom [] (c :: b) := scanFrom_append (hends b) [] a
      _ = scanFrom [] a ++ (scanFrom [] [c] ++ scanFrom [] b) := by
        rw [scanFrom_cons_of_not_isWordChar hc]
      _ = scanFrom [] (a ++ [c]) ++ scanFrom [] b := by
        rw [scanFrom_append (hends []) [] a, List.append_assoc]

theorem scanFrom_append_of_not_joins {a b : List Char} (h : ¬ Joins a b) :
    scanFrom [] (a ++ b) = scanFrom [] a ++ scanFrom [] b := by
  by_cases hb : EndsWord b
  · exact scanFrom_append hb [] a
  · refine scanFrom_append_of_getLast (fun c hc => ?_) b
    simp only [EndsWord, not_forall, Bool.not_eq_false] at hb
    obtain ⟨d, hd, hword⟩ := hb
    by_contra hne
    exact h ⟨c, hc, d, hd, by simpa using hne, hword⟩

theorem isWord_iff {w : List Char} :
    isWord w = true ↔ w ≠ [] ∧ ∀ c ∈ w, isWordChar c = true := by
  simp [isWord]

theorem scanFrom_isWord {w : List Char} (hw : isWord w = true) : scanFrom [] w = [word w] := by
  have hnil : EndsWord [] := by rintro c ⟨⟩
  simpa [scanFrom, flush] using scanFrom_word hw hnil

theorem endsWord_dropWhile (b : List Char) : EndsWord (b.dropWhile isWordChar) := by
  intro c hc
  have := List.head?_dropWhile_not isWordChar b
  rw [Option.mem_def.1 hc] at this
  simpa using this

theorem exists_word_append {b : List Char} {d : Char} (hd : d ∈ b.head?)
    (hdword : isWordChar d = true) :
    ∃ v rest, b = v ++ rest ∧ isWord v = true ∧ EndsWord rest := by
  refine ⟨b.takeWhile isWordChar, b.dropWhile isWordChar, ?_, isWord_iff.2 ⟨?_, ?_⟩,
    endsWord_dropWhile b⟩
  · exact List.takeWhile_append_dropWhile.symm
  · obtain ⟨b, rfl⟩ := List.head?_eq_some_iff.1 hd
    simp [hdword]
  · exact fun c hc => List.mem_takeWhile_imp hc

theorem exists_append_word {a : List Char} {c : Char} (hc : c ∈ a.getLast?)
    (hcword : isWordChar c = true) :
    ∃ start w, a = start ++ w ∧ isWord w = true ∧
      ∀ c ∈ start.getLast?, isWordChar c = false := by
  refine ⟨a.rdropWhile isWordChar, a.rtakeWhile isWordChar, ?_, isWord_iff.2 ⟨?_, ?_⟩, ?_⟩
  · exact List.rdropWhile_append_rtakeWhile.symm
  · obtain ⟨a, rfl⟩ := List.getLast?_eq_some_iff.1 hc
    simp [hcword]
  · exact fun c hc => List.mem_rtakeWhile_imp hc
  · intro c hc
    obtain ⟨hne, rfl⟩ := List.mem_getLast?_eq_getLast hc
    exact Bool.eq_false_iff.2 (List.rdropWhile_last_not _ _ hne)

/-- A word that goes on from the one text into the other is one token of both together, and two of
them taken apart. -/
theorem length_scanFrom_append_of_joins {a b : List Char} (h : Joins a b) :
    (scanFrom [] (a ++ b)).length + 1 = (scanFrom [] a ++ scanFrom [] b).length := by
  obtain ⟨c, hc, d, hd, hcword, hdword⟩ := h
  obtain ⟨start, w, rfl, hw, hstart⟩ := exists_append_word hc hcword
  obtain ⟨v, rest, rfl, hv, hrest⟩ := exists_word_append hd hdword
  have hwv : isWord (w ++ v) = true := by
    obtain ⟨hne, hall⟩ := isWord_iff.1 hw
    refine isWord_iff.2 ⟨List.append_ne_nil_of_left_ne_nil hne v, fun c hc => ?_⟩
    exact (List.mem_append.1 hc).elim (hall c) ((isWord_iff.1 hv).2 c)
  have hboth : scanFrom [] (start ++ w ++ (v ++ rest)) =
      scanFrom [] start ++ word (w ++ v) :: scanFrom [] rest := by
    rw [List.append_assoc, scanFrom_append_of_getLast hstart, ← List.append_assoc w,
      scanFrom_word hwv hrest]
  have hleft : scanFrom [] (start ++ w) = scanFrom [] start ++ [word w] := by
    rw [scanFrom_append_of_getLast hstart, scanFrom_isWord hw]
  rw [hboth, hleft, scanFrom_word hv hrest]
  simp only [List.length_append, List.length_cons, List.length_nil]
  omega

theorem scanFrom_append_iff {a b : List Char} :
    scanFrom [] (a ++ b) = scanFrom [] a ++ scanFrom [] b ↔ ¬ Joins a b := by
  refine ⟨fun h hjoins => ?_, scanFrom_append_of_not_joins⟩
  have hlength := length_scanFrom_append_of_joins hjoins
  rw [h] at hlength
  omega

/-! ## One token after the other -/

/-- The first token of a text and the text behind it. Blanks before the token are skipped, and a
word is as long as it can be. -/
def first? (cs : List Char) : Option (Token × List Char) :=
  match cs.dropWhile Text.isBlank with
  | [] => none
  | c :: rest =>
    if c == '(' then some (opening, rest)
    else if c == ')' then some (closing, rest)
    else some (word (c :: rest.takeWhile isWordChar), rest.dropWhile isWordChar)

theorem of_first?_eq_some {cs rest : List Char} {t : Token} (h : first? cs = some (t, rest)) :
    ∃ gap text, cs = gap ++ text ++ rest ∧ (∀ c ∈ gap, Text.isBlank c = true) ∧
      (t = opening ∧ text = ['('] ∨ t = closing ∧ text = [')'] ∨
        t = word text ∧ isWord text = true ∧ EndsWord rest) := by
  have hgap : ∀ c ∈ cs.takeWhile Text.isBlank, Text.isBlank c = true :=
    fun c hc => List.mem_takeWhile_imp hc
  have hcs := List.takeWhile_append_dropWhile (p := Text.isBlank) (l := cs)
  have hfirst := List.head?_dropWhile_not Text.isBlank cs
  refine ⟨cs.takeWhile Text.isBlank, ?_⟩
  unfold first? at h
  cases hdrop : cs.dropWhile Text.isBlank with
  | nil => simp [hdrop] at h
  | cons c tail =>
    simp only [hdrop, beq_iff_eq, List.head?_cons] at h hcs hfirst
    split_ifs at h with h₁ h₂
    · obtain ⟨rfl, rfl⟩ := h
      exact ⟨['('], by simpa [h₁] using hcs.symm, hgap, .inl ⟨rfl, rfl⟩⟩
    · obtain ⟨rfl, rfl⟩ := h
      exact ⟨[')'], by simpa [h₂] using hcs.symm, hgap, .inr (.inl ⟨rfl, rfl⟩)⟩
    · obtain ⟨rfl, rfl⟩ := h
      have hc : isWordChar c = true := by simp [isWordChar, hfirst, h₁, h₂]
      refine ⟨c :: tail.takeWhile isWordChar, by simpa using hcs.symm, hgap,
        .inr (.inr ⟨rfl, ?_, ?_⟩)⟩
      · refine isWord_iff.2 ⟨List.cons_ne_nil _ _, List.forall_mem_cons.2 ⟨hc, fun d hd => ?_⟩⟩
        exact List.mem_takeWhile_imp hd
      · exact endsWord_dropWhile tail

theorem scanFrom_of_first? {cs rest : List Char} {t : Token} (h : first? cs = some (t, rest)) :
    scanFrom [] cs = t :: scanFrom [] rest := by
  obtain ⟨gap, text, rfl, hgap, htext⟩ := of_first?_eq_some h
  rw [List.append_assoc, scanFrom_blanks hgap]
  obtain ⟨rfl, rfl⟩ | ⟨rfl, rfl⟩ | ⟨rfl, hword, hrest⟩ := htext
  · exact scanFrom_opening rest
  · exact scanFrom_closing rest
  · exact scanFrom_word hword hrest

theorem length_lt_of_first? {cs rest : List Char} {t : Token} (h : first? cs = some (t, rest)) :
    rest.length < cs.length := by
  obtain ⟨gap, text, rfl, -, htext⟩ := of_first?_eq_some h
  have hpos : 0 < text.length := by
    obtain ⟨-, rfl⟩ | ⟨-, rfl⟩ | ⟨-, hword, -⟩ := htext
    · exact Nat.one_pos
    · exact Nat.one_pos
    · exact List.length_pos_of_ne_nil (isWord_iff.1 hword).1
  simp only [List.length_append]
  omega

theorem first?_eq_none_iff {cs : List Char} :
    first? cs = none ↔ ∀ c ∈ cs, Text.isBlank c = true := by
  rw [← List.dropWhile_eq_nil_iff, first?]
  cases cs.dropWhile Text.isBlank with
  | nil => simp
  | cons c rest => simp only [reduceCtorEq, iff_false]; split_ifs <;> simp

/-- Takes the first token off the text as long as there is one, and gives the tokens and what is
left of the text. -/
def takeAll (cs : List Char) : List Token × List Char :=
  match _ : first? cs with
  | none => ([], cs)
  | some (t, rest) => (t :: (takeAll rest).1, (takeAll rest).2)
termination_by cs.length
decreasing_by all_goals exact length_lt_of_first? ‹_›

theorem takeAll_spec (cs : List Char) :
    (takeAll cs).1 = scanFrom [] cs ∧ ∀ c ∈ (takeAll cs).2, Text.isBlank c = true := by
  fun_induction takeAll cs with
  | case1 cs h =>
    have hblank := first?_eq_none_iff.1 h
    refine ⟨?_, hblank⟩
    simpa [scanFrom, flush] using (scanFrom_blanks hblank []).symm
  | case2 cs t rest h ih =>
    refine ⟨?_, ih.2⟩
    rw [scanFrom_of_first? h, ih.1]

/-! ## All texts -/

/-- **The tokens of a text are its parentheses and its words.** They are written with all that is
not blank, two texts put together have the tokens of both exactly if no word goes on between them,
and taking one token after the other gives them all. -/
theorem scan_text :
    (∀ source, String.join ((scan source).map (·.text)) =
      String.ofList (source.toList.filter fun c => !Text.isBlank c)) ∧
    (∀ source, ∀ t ∈ scan source,
      t = ⟨.opening, "("⟩ ∨ t = ⟨.closing, ")"⟩ ∨
        t.kind = .word ∧ t.text ≠ "" ∧
          ∀ c ∈ t.text.toList, Text.isBlank c = false ∧ c ≠ '(' ∧ c ≠ ')') ∧
    (∀ a b, scan (a ++ b) = scan a ++ scan b ↔ ¬ Joins a.toList b.toList) ∧
    (∀ w : String, w ≠ "" → (∀ c ∈ w.toList, isWordChar c = true) → scan w = [⟨.word, w⟩]) ∧
    ∀ source, (takeAll source.toList).1 = scan source ∧
      ∀ c ∈ (takeAll source.toList).2, Text.isBlank c = true := by
  refine ⟨fun source => ?_, fun source t ht => ?_, fun a b => ?_, fun w hne hw => ?_,
    fun source => takeAll_spec _⟩
  · rw [← String.toList_inj, String.toList_join, String.toList_ofList, List.flatMap_map]
    exact flatMap_text_scanFrom [] source.toList
  · obtain rfl | rfl | ⟨cs, hcs, rfl⟩ := isScanned_of_mem_scan ht
    · exact .inl rfl
    · exact .inr (.inl rfl)
    · obtain ⟨hne, hall⟩ := isWord_iff.1 hcs
      refine .inr (.inr ⟨rfl, by simpa [word] using hne, fun c hc => ?_⟩)
      simpa [isWordChar, and_assoc] using hall c (by simpa [word] using hc)
  · rw [scan, String.toList_append]
    exact scanFrom_append_iff
  · have hword : isWord w.toList = true := isWord_iff.2 ⟨by simpa using hne, hw⟩
    rw [scan, scanFrom_isWord hword, word, String.ofList_toList]

/-- A text with a word that is not in ASCII letters, cut beside a parenthesis and inside a word, and
one that ends in blanks. -/
theorem scan_text_of_accented :
    scan ("(é" ++ ")x") = scan "(é" ++ scan ")x" ∧
    scan ("(x" ++ "é y") ≠ scan "(x" ++ scan "é y" ∧
    scan "é→" = [⟨.word, "é→"⟩] ∧
    (takeAll "x \u3000".toList).1 = scan "x \u3000" := by
  obtain ⟨-, -, hcut, hword, htake⟩ := scan_text
  have hchars : "é→".toList.all isWordChar = true := by decide
  refine ⟨(hcut _ _).2 ?_, fun h => (hcut _ _).1 h ?_,
    hword _ (by decide) (List.all_eq_true.1 hchars), (htake _).1⟩
  · rintro ⟨c, hc, d, ⟨⟩, -, hd⟩
    cases hd
  · exact ⟨'x', by decide, 'é', by decide, by decide, by decide⟩

end Token

end ScopedLisp
