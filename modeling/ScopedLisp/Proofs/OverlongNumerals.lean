import ScopedLisp.Console.Interaction
import ScopedLisp.Proofs.Faults

/-!
# Overlong numerals

Reading a source text gives a term or an error of the language, with one exception: an integer
numeral that has more digits than the reader takes, and stands where the reader comes to it.

* `Token.Overlong`: the numerals that have too many digits;
* `Term.exists_overlong`: a text with such a numeral has a first one;
* `Term.parse_of_overlong`: what comes of the text then depends on the tokens before the first one;
* `Term.parse_eq_word_iff`: the exact condition for the exception;
* `Session.reply_eq_word_iff`: a session fails in the same way for the same texts;
* **`Term.read_outcomes`**: all that can come of a source text.
-/

namespace ScopedLisp

/-! ## Numerals -/

namespace Numeral

theorem isDigit_of_asciiDigit? {c : Char} {d : Nat} (h : asciiDigit? c = some d) :
    c.isDigit = true := by
  unfold asciiDigit? at h
  split_ifs at h with hc
  simp only [Char.isDigit, Bool.and_eq_true, decide_eq_true_eq]
  exact hc

theorem isDigit_of_mapM_asciiDigit? {cs : List Char} {ds : List Nat}
    (h : cs.mapM asciiDigit? = some ds) : ∀ c ∈ cs, c.isDigit = true := by
  induction cs generalizing ds with
  | nil => simp
  | cons c cs ih =>
    rw [List.mapM_cons] at h
    obtain ⟨d, hd, hrest⟩ := Option.bind_eq_some_iff.1 h
    obtain ⟨ds', hds, -⟩ := Option.bind_eq_some_iff.1 hrest
    intro c' hc'
    rcases List.mem_cons.1 hc' with rfl | hc'
    · exact isDigit_of_asciiDigit? hd
    · exact ih hds c' hc'

theorem splitSign_cases (cs : List Char) :
    cs = (splitSign cs).2 ∨ cs = '+' :: (splitSign cs).2 ∨ cs = '-' :: (splitSign cs).2 := by
  unfold splitSign
  split
  · exact .inr (.inl rfl)
  · exact .inr (.inr rfl)
  · exact .inl rfl

theorem ofSource?_eq_some_iff {cs : List Char} {n : Numeral} :
    ofSource? cs = some n ↔ (splitSign cs).2 ≠ [] ∧ (∀ c ∈ (splitSign cs).2, c.isDigit = true) ∧
      n = ⟨(splitSign cs).1, (splitSign cs).2.map fun c => c.toNat - '0'.toNat⟩ := by
  unfold ofSource?
  generalize splitSign cs = parts
  obtain ⟨negative, rest⟩ := parts
  cases rest with
  | nil => simp
  | cons c rest =>
    dsimp only
    constructor
    · intro h
      obtain ⟨ds, hds, rfl⟩ := Option.map_eq_some_iff.1 h
      have hdigit := isDigit_of_mapM_asciiDigit? hds
      cases hds.symm.trans (mapM_asciiDigit?_of_isDigit hdigit)
      exact ⟨List.cons_ne_nil c rest, hdigit, rfl⟩
    · rintro ⟨-, hdigit, rfl⟩
      rw [mapM_asciiDigit?_of_isDigit hdigit]
      rfl

theorem mem_of_ofSource? {cs : List Char} {n : Numeral} (h : ofSource? cs = some n) :
    cs ≠ [] ∧ ∀ c ∈ cs, c = '+' ∨ c = '-' ∨ c.isDigit = true := by
  obtain ⟨hne, hdigits, -⟩ := ofSource?_eq_some_iff.1 h
  constructor
  · rintro rfl
    exact hne rfl
  · intro c hc
    rcases splitSign_cases cs with hcs | hcs | hcs
    · rw [hcs] at hc
      exact .inr (.inr (hdigits c hc))
    · rw [hcs] at hc
      exact (List.mem_cons.1 hc).imp id fun hc => .inr (hdigits c hc)
    · rw [hcs] at hc
      exact .inr ((List.mem_cons.1 hc).imp id fun hc => hdigits c hc)

theorem isWord_of_ofSource? {cs : List Char} {n : Numeral} (h : ofSource? cs = some n) :
    isWord cs = true := by
  obtain ⟨hne, hchars⟩ := mem_of_ofSource? h
  simp only [isWord, Bool.and_eq_true, Bool.not_eq_true', List.isEmpty_eq_false_iff,
    List.all_eq_true]
  refine ⟨hne, fun c hc => ?_⟩
  rcases hchars c hc with rfl | rfl | hdigit
  · decide
  · decide
  · exact Term.isWordChar_of_isDigit hdigit

end Numeral

/-- The token is an integer numeral of so many digits, and these are more than the reader takes. -/
def Token.Overlong (t : Token) (count : Nat) : Prop :=
  t.kind = .word ∧ maxDigits < count ∧
    ∃ n, Numeral.ofSource? t.text.toList = some n ∧ n.digits.length = count

namespace Term

open Token TokenTree

theorem ofWord_of_overlong {t : Token} {count : Nat} (h : t.Overlong count) :
    ofWord t.text = .error (.tooManyDigits count) := by
  obtain ⟨-, hcount, n, hn, rfl⟩ := h
  rw [ofWord_of_ofSource? hn, if_pos hcount]

theorem overlong_ones (count : Nat) (hlong : maxDigits < count) :
    (word (List.replicate count '1')).Overlong count ∧
      scanFrom [] (List.replicate count '1') = [word (List.replicate count '1')] := by
  have hne : List.replicate count '1' ≠ [] :=
    List.ne_nil_of_length_pos (by rw [List.length_replicate]; exact Nat.zero_lt_of_lt hlong)
  have hdigit : ∀ c ∈ List.replicate count '1', c.isDigit = true := by
    intro c hc
    rw [List.eq_of_mem_replicate hc]
    rfl
  have hn := Numeral.ofSource?_of_isDigit hne hdigit
  constructor
  · refine ⟨rfl, hlong, _, by rw [Token.word, String.toList_ofList]; exact hn, ?_⟩
    rw [List.length_map, List.length_replicate]
  · have hend : EndsWord [] := by simp [EndsWord]
    have hscan := scanFrom_word (Numeral.isWord_of_ofSource? hn) hend
    rwa [List.append_nil] at hscan

theorem ofWord_eq_symbol_iff {text : String} {n : Numeral}
    (hn : Numeral.ofSource? text.toList = some n) (hr : inRange n.value = false) :
    (∃ s : Symbol, s.name = text ∧ ofWord text = .ok (.symbol s)) ↔
      n.digits.length ≤ maxDigits := by
  rw [ofWord_of_ofSource? hn]
  constructor
  · rintro ⟨s, -, hs⟩
    by_contra hlong
    rw [if_pos (Nat.not_le.1 hlong)] at hs
    cases hs
  · intro hshort
    rw [if_neg (Nat.not_lt.2 hshort), if_neg (by simp [hr])]
    have hword := Numeral.isWord_of_ofSource? hn
    exact ⟨⟨text, hword⟩, rfl, by simp [symbolOf, Symbol.ofName?, hword]⟩

/-! ## The first overlong numeral -/

theorem exists_overlong {ts : List Token} (h : ¬ ShortNumerals ts) :
    ∃ before t after count, ts = before ++ t :: after ∧ ShortNumerals before ∧
      t.Overlong count := by
  induction ts with
  | nil => exact absurd (fun t ht => nomatch ht) h
  | cons t ts ih =>
    by_cases ht : t.kind = .word →
        (Numeral.ofSource? t.text.toList).all (·.digits.length ≤ maxDigits) = true
    · have hts : ¬ ShortNumerals ts := fun hts => h (List.forall_mem_cons.2 ⟨ht, hts⟩)
      obtain ⟨before, u, after, count, rfl, hbefore, hu⟩ := ih hts
      exact ⟨t :: before, u, after, count, rfl, List.forall_mem_cons.2 ⟨ht, hbefore⟩, hu⟩
    · rw [Classical.not_imp] at ht
      obtain ⟨hword, hlong⟩ := ht
      cases hn : Numeral.ofSource? t.text.toList with
      | none => simp [hn] at hlong
      | some n =>
        rw [hn, Option.all_some, decide_eq_true_eq, Nat.not_le] at hlong
        exact ⟨[], t, ts, n.digits.length, rfl, fun u hu => (nomatch hu), hword, hlong, n, hn, rfl⟩

/-! ## What comes of a text with an overlong numeral -/

theorem readFrom_of_overlong {t : Token} {count : Nat} (ht : t.Overlong count)
    (stack : List (List Term)) (rest : List (Option Token)) :
    readFrom stack (some t :: rest) = (.error (.word (.tooManyDigits count)), rest) := by
  rw [readFrom.eq_def]
  simp only [ht.1, ofWord_of_overlong ht]

/-- The first overlong numeral is what the reader fails at, if it stands at the start or in a list
that is not closed before it. Otherwise there is an error of the language before it. -/
theorem parse_of_overlong {source : String} {before after : List Token} {t : Token} {count : Nat}
    (hscan : scan source = before ++ t :: after) (hshort : ShortNumerals before)
    (ht : t.Overlong count) :
    ((before = [] ∨ Unclosed before) ∧
        parse source = .error (.word (.tooManyDigits count))) ∨
      (¬ (before = [] ∨ Unclosed before) ∧
        ∃ e, parse source = .error (.error e) ∧ e.kind = .reading) := by
  have hts : ∀ u ∈ before, u.IsScanned := fun u hu =>
    isScanned_of_mem_scan (by rw [hscan]; exact List.mem_append_left _ hu)
  have hw : ∀ text, (⟨.word, text⟩ : Token) ∈ before → ∃ u, ofWord text = .ok u :=
    fun text => ofWord_of_isScanned hts hshort
  have hmap : (scan source).map some = before.map some ++ some t :: after.map some := by
    rw [hscan, List.map_append, List.map_cons]
  rcases first_cases before hts with rfl | ⟨us, rfl⟩ | ⟨us, rfl, hd⟩ | ⟨tree, rest, rfl⟩
  · refine .inl ⟨.inl rfl, parse_of_error (after.map some) ?_⟩
    rw [hmap]
    exact readFrom_of_overlong ht [] _
  · refine .inr ⟨?_, .unexpectedClose, parse_of_error ((us ++ t :: after).map some) ?_, rfl⟩
    · simp [Unclosed, opening, closing]
    · rw [hscan]
      rfl
  · refine .inl ⟨.inr (unclosed_opening hd), parse_of_error (after.map some) ?_⟩
    obtain ⟨items, outer, hread⟩ := exists_readFrom_opening hts hw hd (some t :: after.map some)
    rw [hmap, hread]
    exact readFrom_of_overlong ht _ _
  · obtain ⟨u, hu⟩ := exists_term tree fun text htext => hw text (List.mem_append_left _ htext)
    refine .inr ⟨?_, .trailingTokens, ?_, rfl⟩
    · rintro (hnil | hopen)
      · cases tree <;> simp [tokens] at hnil
      · exact not_unclosed_tokens tree rest hopen
    · rw [List.append_assoc] at hscan
      exact parse_of_tokens_append hscan hu (by simp)

theorem parse_of_shortNumerals {source : String} (hs : ShortNumerals (scan source)) :
    (∃ t, parse source = .ok t) ∨ ∃ e, parse source = .error (.error e) ∧ e.kind = .reading := by
  rcases parse_cases hs with ⟨-, h⟩ | ⟨us, -, h⟩ | ⟨us, -, -, h⟩ | ⟨tree, t, -, -, h⟩ |
    ⟨tree, rest, -, -, h⟩
  · exact .inr ⟨_, h, rfl⟩
  · exact .inr ⟨_, h, rfl⟩
  · exact .inr ⟨_, h, rfl⟩
  · exact .inl ⟨t, h⟩
  · exact .inr ⟨_, h, rfl⟩

/-- **The reader fails at a numeral exactly if the first overlong one stands at the start, or in a
list that is not closed before it.** -/
theorem parse_eq_word_iff {source : String} {f : WordFault} :
    parse source = .error (.word f) ↔
      ∃ before t after count, scan source = before ++ t :: after ∧ ShortNumerals before ∧
        (before = [] ∨ Unclosed before) ∧ t.Overlong count ∧ f = .tooManyDigits count := by
  constructor
  · intro h
    by_cases hs : ShortNumerals (scan source)
    · rcases parse_of_shortNumerals hs with ⟨t, ht⟩ | ⟨e, he, -⟩
      · rw [ht] at h; cases h
      · rw [he] at h; cases h
    · obtain ⟨before, t, after, count, hscan, hshort, ht⟩ := exists_overlong hs
      rcases parse_of_overlong hscan hshort ht with ⟨hopen, hp⟩ | ⟨-, e, hp, -⟩
      · rw [hp] at h
        cases h
        exact ⟨before, t, after, count, hscan, hshort, hopen, ht, rfl⟩
      · rw [hp] at h
        cases h
  · rintro ⟨before, t, after, count, hscan, hshort, hopen, ht, rfl⟩
    exact ((parse_of_overlong hscan hshort ht).resolve_right fun h => h.1 hopen).2

theorem parse_outcomes (source : String) :
    (∃ t, parse source = .ok t) ∨ (∃ e, parse source = .error (.error e) ∧ e.kind = .reading) ∨
      ∃ f, parse source = .error (.word f) := by
  by_cases hs : ShortNumerals (scan source)
  · exact (parse_of_shortNumerals hs).imp_right .inl
  · obtain ⟨before, t, after, count, hscan, hshort, ht⟩ := exists_overlong hs
    rcases parse_of_overlong hscan hshort ht with ⟨-, hp⟩ | ⟨-, he⟩
    · exact .inr (.inr ⟨_, hp⟩)
    · exact .inr (.inl he)

theorem kind_of_parse {source : String} {e : Error} (h : parse source = .error (.error e)) :
    e.kind = .reading := by
  rcases parse_outcomes source with ⟨t, ht⟩ | ⟨e', he, hkind⟩ | ⟨f, hf⟩
  · rw [ht] at h; cases h
  · rw [he] at h; cases h; exact hkind
  · rw [hf] at h; cases h

end Term

/-! ## Sessions -/

theorem Activation.Raises.ne_word {alive : Liveness} {a : Activation} {fault : Fault}
    (h : a.Raises alive fault) (f : WordFault) : fault ≠ .word f := by
  cases h <;> exact Fault.noConfusion

namespace Session

variable {session : Session} {limit : Nat} {source : String} {f : WordFault}

theorem eval_eq_word_iff :
    (session.eval limit source).1 = .error (.word f) ↔ Term.parse source = .error (.word f) := by
  constructor
  · intro h
    rcases exists_of_eval_error h with hparse | ⟨e, t, -, hrun⟩
    · exact hparse
    · obtain ⟨b, -, hraises, -⟩ := Activation.exists_raises hrun
      exact absurd rfl (hraises.ne_word f)
  · intro hparse
    rw [eval_of_parse_error hparse]

theorem answer_reply (session : Session) (limit : Nat) (source : String) :
    (session.reply limit source).answer = Answer.ofResult (session.eval limit source).1 := by
  unfold reply
  dsimp only
  split <;> rename_i h <;> exact h.symm

/-- **A session has no answer to a text for a numeral in it exactly if the reader fails at it.** -/
theorem reply_eq_word_iff :
    (session.reply limit source).answer = .error (.word f) ↔
      Term.parse source = .error (.word f) := by
  rw [answer_reply, ← @eval_eq_word_iff session limit]
  generalize (session.eval limit source).1 = result
  rcases result with (_ | _ | _) | _ <;> simp [Answer.ofResult]

end Session

/-! ## Outcomes of reading -/

namespace Term

open Token

/-- **All that can come of a source text**: a term, an error of the language, or a fault at a
numeral, exactly if the first overlong one stands at the start or in a list that is not closed
before it. A numeral that is out of range is read as the symbol of its text if it is not overlong,
and only then. -/
theorem read_outcomes (source : String) :
    ((∃ t, parse source = .ok t) ∨ (∃ e, parse source = .error (.error e) ∧ e.kind = .reading) ∨
      ∃ f, parse source = .error (.word f)) ∧
    (∀ f, parse source = .error (.word f) ↔
      ∃ before t after count, scan source = before ++ t :: after ∧ ShortNumerals before ∧
        (before = [] ∨ Unclosed before) ∧ t.Overlong count ∧ f = .tooManyDigits count) ∧
    (∀ (session : Session) limit f, (session.reply limit source).answer = .error (.word f) ↔
      parse source = .error (.word f)) ∧
    ∀ text n, Numeral.ofSource? text.toList = some n → inRange n.value = false →
      ((∃ s : Symbol, s.name = text ∧ ofWord text = .ok (.symbol s)) ↔
        n.digits.length ≤ maxDigits) :=
  ⟨parse_outcomes source, fun _ => parse_eq_word_iff, fun _ _ _ => Session.reply_eq_word_iff,
    fun _ _ => ofWord_eq_symbol_iff⟩

/-- A numeral of 4301 digits is out of range, but it is no symbol: it is not read at all, and the
failure is no error of the language. -/
theorem parse_ones_eq_error :
    parse (String.ofList (List.replicate 4301 '1')) = .error (.word (.tooManyDigits 4301)) := by
  obtain ⟨hlong, hscan⟩ := overlong_ones 4301 (by decide)
  refine parse_eq_word_iff.2 ⟨[], _, [], 4301, ?_, nofun, .inl rfl, hlong, rfl⟩
  rw [scan, String.toList_ofList, hscan]
  rfl

/-- In a list that is still open, such a numeral leaves a session without an answer. -/
theorem read_outcomes_unclosed :
    (Session.start.reply 100 ("(" ++ String.ofList (List.replicate 4301 '1'))).answer =
      .error (.word (.tooManyDigits 4301)) := by
  obtain ⟨hlong, hscan⟩ := overlong_ones 4301 (by decide)
  obtain ⟨-, hword, hreply, -⟩ := read_outcomes ("(" ++ String.ofList (List.replicate 4301 '1'))
  have hopen : Unclosed [opening] := unclosed_opening fun k => by simp
  refine (hreply Session.start 100 _).2 ((hword _).2
    ⟨[opening], _, [], 4301, ?_, by decide, .inr hopen, hlong, rfl⟩)
  rw [scan, String.toList_append, String.toList_ofList, String.toList_ofList,
    List.singleton_append, scanFrom_opening, hscan]
  rfl

end Term

end ScopedLisp
