import ScopedLisp.Proofs.BlockText

/-!
# Looking ahead

A token stream behaves as the queue of the tokens still to come: to look at the next one changes no
later answer.

* `TokenStream.Call`, `TokenStream.answers`: what can be asked of a stream, and its answers;
* `TokenStream.answers_congr`: the answers depend on the tokens still to come alone;
* `TokenStream.Reads`: a term is read by taking tokens one by one, and inside a list by looking at
  each one first;
* `TokenStream.exists_reads`, `TokenStream.Reads.eq_readTerm`: that is what reading the queue comes
  to;
* `Term.printed`: the text of several terms, with blanks between them;
* **`TokenStream.faithful`**: calls that look ahead can be put in and left out, and terms that were
  printed are read back one by one.
-/

namespace ScopedLisp

namespace TokenStream

/-! ## Calls -/

/-- What can be asked of a stream. -/
inductive Call where
  | peek
  | atEnd
  | advance
  | readTerm
deriving DecidableEq, Repr

/-- Whether the call only looks ahead. -/
def Call.looks : Call → Bool
  | peek | atEnd => true
  | advance | readTerm => false

/-- The answers of a stream. -/
inductive Result where
  | token (token : Option Token)
  | flag (b : Bool)
  | term (r : Except Fault Term)

/-- The answer to a call, and the stream after it. -/
def answer (s : TokenStream) : Call → Result × TokenStream
  | .peek => (.token s.peek.1, s.peek.2)
  | .atEnd => (.flag s.atEnd.1, s.atEnd.2)
  | .advance => (.token s.advance.1, s.advance.2)
  | .readTerm => (.term s.readTerm.1, s.readTerm.2)

/-- The answers to calls that are made one after the other. -/
def answers (s : TokenStream) : List Call → List Result
  | [] => []
  | c :: cs => (s.answer c).1 :: (s.answer c).2.answers cs

variable {s t : TokenStream}

theorem atEnd_fst (s : TokenStream) : s.atEnd.1 = s.toList.head?.join.isNone := by
  rw [← peek_fst]
  rfl

@[simp]
theorem readTerm_fst (s : TokenStream) : s.readTerm.1 = (Term.readFrom [] s.toList).1 := rfl

@[simp]
theorem toList_readTerm (s : TokenStream) :
    s.readTerm.2.toList = (Term.readFrom [] s.toList).2 := rfl

theorem answer_congr (h : s.toList = t.toList) (c : Call) :
    (s.answer c).1 = (t.answer c).1 ∧ (s.answer c).2.toList = (t.answer c).2.toList := by
  cases c with
  | peek => simp [answer, peek_fst, h]
  | atEnd => simp [answer, atEnd_fst, h]
  | advance => simp [answer, advance_fst, h]
  | readTerm => simp [answer, h]

/-- **The answers depend on the tokens still to come alone**, not on the one that was looked at. -/
theorem answers_congr (h : s.toList = t.toList) (cs : List Call) : s.answers cs = t.answers cs := by
  induction cs generalizing s t with
  | nil => rfl
  | cons c cs ih =>
    obtain ⟨hanswer, hlater⟩ := answer_congr h c
    rw [answers, answers, hanswer, ih hlater]

theorem toList_answer_of_looks {c : Call} (hc : c.looks = true) :
    (s.answer c).2.toList = s.toList := by
  cases c with
  | peek => exact toList_peek s
  | atEnd => exact toList_atEnd s
  | _ => cases hc

/-- The answers to the calls that are kept. -/
def kept (results : List Result) (keep : List Bool) : List Result :=
  ((results.zip keep).filter (·.2)).map (·.1)

theorem kept_cons_true (r : Result) (results : List Result) (keep : List Bool) :
    kept (r :: results) (true :: keep) = r :: kept results keep := rfl

theorem kept_cons_false (r : Result) (results : List Result) (keep : List Bool) :
    kept (r :: results) (false :: keep) = kept results keep := rfl

/-- **Calls that only look ahead can be left out**: the kept ones have the same answers. -/
theorem kept_answers {calls : List (Call × Bool)}
    (hlooks : ∀ c ∈ calls, c.2 = false → c.1.looks = true) (s : TokenStream) :
    kept (s.answers (calls.map (·.1))) (calls.map (·.2)) =
      s.answers ((calls.filter (·.2)).map (·.1)) := by
  induction calls generalizing s with
  | nil => rfl
  | cons c calls ih =>
    obtain ⟨c, keep⟩ := c
    have hrest := ih fun c hc => hlooks c (List.mem_cons_of_mem _ hc)
    rw [List.map_cons, List.map_cons, answers]
    cases keep with
    | true =>
      rw [kept_cons_true, hrest, List.filter_cons_of_pos rfl, List.map_cons, answers]
    | false =>
      have hc : c.looks = true := hlooks (c, false) List.mem_cons_self rfl
      rw [kept_cons_false, hrest, List.filter_cons_of_neg Bool.false_ne_true,
        answers_congr (toList_answer_of_looks hc)]

/-! ## Reading token by token -/

/-- Reading token by token: a term by taking its first token, and the rest of a list, of which the
given items were read, the last one first, by looking at the next token. -/
inductive Reads : Option (List Term) → TokenStream → Except Fault Term → TokenStream → Prop
  | missing {s t : TokenStream} (h : s.advance = (none, t)) :
      Reads none s (.error (.error .noToken)) t
  | unexpected {s t : TokenStream} {token : Token} (h : s.advance = (some token, t))
      (hk : token.kind = .closing) : Reads none s (.error (.error .unexpectedClose)) t
  | word {s t : TokenStream} {token : Token} {x : Term} (h : s.advance = (some token, t))
      (hk : token.kind = .word) (hx : Term.ofWord token.text = .ok x) : Reads none s (.ok x) t
  | notWord {s t : TokenStream} {token : Token} {f : WordFault} (h : s.advance = (some token, t))
      (hk : token.kind = .word) (hf : Term.ofWord token.text = .error f) :
      Reads none s (.error (.word f)) t
  | list {s t u : TokenStream} {token : Token} {r : Except Fault Term}
      (h : s.advance = (some token, t)) (hk : token.kind ≠ .closing) (hk' : token.kind ≠ .word)
      (hitems : Reads (some []) t r u) : Reads none s r u
  | unclosed {s t : TokenStream} {items : List Term} (h : s.peek = (none, t)) :
      Reads (some items) s (.error (.error .missingClose)) t
  | closing {s t : TokenStream} {items : List Term} {token : Token} (h : s.peek = (some token, t))
      (hk : token.kind = .closing) : Reads (some items) s (.ok (.list items.reverse)) t.advance.2
  | fault {s t u : TokenStream} {items : List Term} {token : Token} {f : Fault}
      (h : s.peek = (some token, t)) (hk : token.kind ≠ .closing)
      (hitem : Reads none t (.error f) u) : Reads (some items) s (.error f) u
  | item {s t u v : TokenStream} {items : List Term} {token : Token} {x : Term}
      {r : Except Fault Term} (h : s.peek = (some token, t)) (hk : token.kind ≠ .closing)
      (hitem : Reads none t (.ok x) u) (hitems : Reads (some (x :: items)) u r v) :
      Reads (some items) s r v

theorem join_head?_eq_some_iff {items : List (Option Token)} {token : Token} :
    items.head?.join = some token ↔ ∃ rest, items = some token :: rest := by
  rcases items with _ | ⟨_ | token', rest⟩ <;> simp

theorem join_head?_eq_none_iff {items : List (Option Token)} :
    items.head?.join = none ↔ items = [] ∨ ∃ rest, items = none :: rest := by
  rcases items with _ | ⟨_ | token, rest⟩ <;> simp

theorem toList_of_advance {item : Option Token} (h : s.advance = (item, t)) :
    s.toList.head?.join = item ∧ t.toList = s.toList.tail := by
  rw [← advance_fst, ← toList_advance, h]
  exact ⟨rfl, rfl⟩

theorem toList_of_peek {item : Option Token} (h : s.peek = (item, t)) :
    s.toList.head?.join = item ∧ t.toList = s.toList := by
  rw [← peek_fst, ← toList_peek s, h]
  exact ⟨rfl, rfl⟩

theorem toList_of_advance_some {token : Token} (h : s.advance = (some token, t)) :
    s.toList = some token :: t.toList := by
  obtain ⟨hhead, htail⟩ := toList_of_advance h
  obtain ⟨rest, hrest⟩ := join_head?_eq_some_iff.1 hhead
  rw [htail, hrest]
  rfl

/-- Goes on after a term or a fault inside the lists of `stack`. -/
def resume (stack : List (List Term)) : Except Fault Term → List (Option Token) →
    Except Fault Term × List (Option Token)
  | .ok x, rest => Term.resume stack x rest
  | .error f, rest => (.error f, rest)

section ReadFrom

open Term

variable {token : Token} {rest : List (Option Token)}

theorem readFrom_of_closing (hk : token.kind = .closing) (items : List Term)
    (stack : List (List Term)) :
    readFrom (items :: stack) (some token :: rest) =
      Term.resume stack (.list items.reverse) rest := by
  rw [readFrom.eq_def]
  cases stack <;> simp only [hk] <;> rfl

theorem readFrom_of_notWord (hk : token.kind = .word) {f : WordFault}
    (hf : ofWord token.text = .error f) (stack : List (List Term)) :
    readFrom stack (some token :: rest) = (.error (.word f), rest) := by
  rw [readFrom.eq_def]
  cases stack <;> simp only [hk, hf]

theorem readFrom_of_word (hk : token.kind = .word) {x : Term} (hx : ofWord token.text = .ok x)
    (stack : List (List Term)) :
    readFrom stack (some token :: rest) = Term.resume stack x rest := by
  obtain ⟨kind, text⟩ := token
  cases hk
  exact readFrom_word hx stack rest

theorem readFrom_of_opening (hk : token.kind ≠ .closing) (hk' : token.kind ≠ .word)
    (stack : List (List Term)) :
    readFrom stack (some token :: rest) = readFrom ([] :: stack) rest := by
  rw [readFrom.eq_def]
  cases hkind : token.kind with
  | closing => exact absurd hkind hk
  | word => exact absurd hkind hk'
  | opening => cases stack <;> simp only [hkind]
  | other label => cases stack <;> simp only [hkind]

end ReadFrom

/-- What is read token by token is read from the queue. A term inside of lists has to start with a
token that is neither missing nor a closing parenthesis. -/
theorem Reads.readFrom_eq {inside : Option (List Term)} {r : Except Fault Term}
    (h : Reads inside s r t) (stack : List (List Term))
    (hfirst : inside = none → stack ≠ [] →
      ∃ token rest, s.toList = some token :: rest ∧ token.kind ≠ .closing) :
    Term.readFrom (inside.toList ++ stack) s.toList = resume stack r t.toList := by
  -- on the reading; the stack has the lists around it that are still open
  induction h generalizing stack with
  | missing h =>
    obtain ⟨hhead, htail⟩ := toList_of_advance h
    cases stack with
    | nil =>
      rcases join_head?_eq_none_iff.1 hhead with hs | ⟨rest, hs⟩
      · rw [htail, hs]
        rfl
      · rw [htail, hs]
        rfl
    | cons items stack =>
      obtain ⟨token, rest, hs, -⟩ := hfirst rfl (List.cons_ne_nil _ _)
      rw [hs] at hhead
      cases hhead
  | unexpected h hk =>
    have hs := toList_of_advance_some h
    cases stack with
    | nil =>
      rw [hs, Term.readFrom.eq_def]
      simp only [Option.toList_none, List.append_nil, hk]
      rfl
    | cons items stack =>
      obtain ⟨token, rest, hs', hk'⟩ := hfirst rfl (List.cons_ne_nil _ _)
      rw [hs'] at hs
      cases hs
      exact absurd hk hk'
  | word h hk hx =>
    rw [toList_of_advance_some h]
    exact readFrom_of_word hk hx stack
  | notWord h hk hf =>
    rw [toList_of_advance_some h]
    exact readFrom_of_notWord hk hf stack
  | list h hk hk' _ ih =>
    rw [toList_of_advance_some h]
    exact (readFrom_of_opening hk hk' stack).trans (ih stack fun hnone => by cases hnone)
  | unclosed h =>
    obtain ⟨hhead, hsame⟩ := toList_of_peek h
    rcases join_head?_eq_none_iff.1 hhead with hs | ⟨rest, hs⟩
    · rw [hsame, hs]
      rfl
    · rw [hsame, hs]
      rfl
  | closing h hk =>
    obtain ⟨hhead, hsame⟩ := toList_of_peek h
    obtain ⟨rest, hs⟩ := join_head?_eq_some_iff.1 hhead
    rw [toList_advance, hsame, hs]
    exact readFrom_of_closing hk _ stack
  | @fault s t u items token f h hk _ ih =>
    obtain ⟨hhead, hsame⟩ := toList_of_peek h
    obtain ⟨rest, hs⟩ := join_head?_eq_some_iff.1 hhead
    rw [← hsame] at hs ⊢
    exact ih (items :: stack) fun _ _ => ⟨token, rest, hs, hk⟩
  | @item s t u v items token x r h hk _ _ ih ih' =>
    obtain ⟨hhead, hsame⟩ := toList_of_peek h
    obtain ⟨rest, hs⟩ := join_head?_eq_some_iff.1 hhead
    rw [← hsame] at hs ⊢
    exact (ih (items :: stack) fun _ _ => ⟨token, rest, hs, hk⟩).trans
      (ih' stack fun hnone => by cases hnone)

theorem Reads.length_le {inside : Option (List Term)} {r : Except Fault Term}
    (h : Reads inside s r t) :
    t.toList.length ≤ s.toList.length ∧
      (inside = none → t.toList.length ≤ s.toList.length - 1) := by
  induction h with
  | missing h | unexpected h | word h | notWord h =>
    obtain ⟨-, htail⟩ := toList_of_advance h
    simp [htail]
  | list h _ _ _ ih =>
    obtain ⟨-, htail⟩ := toList_of_advance h
    have := ih.1
    rw [htail, List.length_tail] at this
    exact ⟨by omega, fun _ => this⟩
  | unclosed h =>
    obtain ⟨-, hsame⟩ := toList_of_peek h
    exact ⟨by rw [hsame], nofun⟩
  | closing h =>
    obtain ⟨-, hsame⟩ := toList_of_peek h
    exact ⟨by simp [hsame], nofun⟩
  | fault h _ _ ih =>
    obtain ⟨-, hsame⟩ := toList_of_peek h
    exact ⟨by rw [← hsame]; exact ih.1, nofun⟩
  | item h _ _ _ ih ih' =>
    obtain ⟨-, hsame⟩ := toList_of_peek h
    exact ⟨by rw [← hsame]; exact Nat.le_trans ih'.1 ih.1, nofun⟩

/-- **Reading token by token comes to an end**: the first token of a term is taken before the rest
is looked at. -/
theorem exists_reads (s : TokenStream) (inside : Option (List Term)) :
    ∃ r t, Reads inside s r t := by
  -- on the number of tokens; a list is looked into after its terms, so terms come first
  induction hn : s.toList.length using Nat.strong_induction_on generalizing s inside with
  | _ n ih =>
  have hterm : ∀ s : TokenStream, s.toList.length = n → ∃ r t, Reads none s r t := by
    intro s hs
    rcases hadv : s.advance with ⟨_ | token, t⟩
    · exact ⟨_, t, .missing hadv⟩
    · by_cases hclose : token.kind = .closing
      · exact ⟨_, t, .unexpected hadv hclose⟩
      · by_cases hword : token.kind = .word
        · cases hx : Term.ofWord token.text with
          | ok x => exact ⟨_, t, .word hadv hword hx⟩
          | error f => exact ⟨_, t, .notWord hadv hword hx⟩
        · have hlt : t.toList.length < n := by
            rw [← hs, toList_of_advance_some hadv, List.length_cons]
            exact Nat.lt_succ_self _
          obtain ⟨r, u, hitems⟩ := ih _ hlt t (some []) rfl
          exact ⟨r, u, .list hadv hclose hword hitems⟩
  cases inside with
  | none => exact hterm s hn
  | some items =>
    rcases hpeek : s.peek with ⟨_ | token, t⟩
    · exact ⟨_, t, .unclosed hpeek⟩
    · obtain ⟨hhead, hsame⟩ := toList_of_peek hpeek
      by_cases hclose : token.kind = .closing
      · exact ⟨_, _, .closing hpeek hclose⟩
      · obtain ⟨r, u, hitem⟩ := hterm t (by rw [hsame, hn])
        cases r with
        | error f => exact ⟨_, u, .fault hpeek hclose hitem⟩
        | ok x =>
          have hlt : u.toList.length < n := by
            obtain ⟨rest, hs⟩ := join_head?_eq_some_iff.1 hhead
            have := hitem.length_le.2 rfl
            rw [hsame, hs, List.length_cons] at this
            rw [hs, List.length_cons] at hn
            omega
          obtain ⟨r, v, hitems⟩ := ih _ hlt u (some (x :: items)) rfl
          exact ⟨r, v, .item hpeek hclose hitem hitems⟩

/-- **Reading token by token gives what is read from the queue**, and leaves the same tokens. -/
theorem Reads.eq_readTerm {r : Except Fault Term} (h : Reads none s r t) :
    r = s.readTerm.1 ∧ t.toList = s.readTerm.2.toList := by
  have heq : Term.readFrom [] s.toList = resume [] r t.toList :=
    h.readFrom_eq [] fun _ hne => absurd rfl hne
  rw [readTerm_fst, toList_readTerm, heq]
  cases r with
  | ok x => exact ⟨rfl, rfl⟩
  | error f => exact ⟨rfl, rfl⟩

end TokenStream

/-! ## Terms in a row -/

namespace Term

open Token TokenTree

/-- Printed terms, each after a gap, and what follows the last one. -/
def printed (trail : String) : List (String × Term) → String
  | [] => trail
  | (gap, t) :: parts => gap ++ t.render ++ printed trail parts

/-- Whether a text holds nothing but blanks. -/
def isBlankText (text : String) : Bool := text.toList.all Text.isBlank

theorem isBlankText_of_isGap {gap : String} (h : isGap gap = true) : isBlankText gap = true :=
  List.all_eq_true.2 (isGap_iff.1 h).2

theorem scan_isBlankText {text : String} (h : isBlankText text = true) :
    scanFrom [] text.toList = [] := by
  have hscan := scanFrom_blanks (List.all_eq_true.1 h) []
  rwa [List.append_nil] at hscan

theorem endsWord_of_isBlankText {text : String} (h : isBlankText text = true) :
    EndsWord text.toList := fun c hc =>
  isWordChar_of_isBlank (List.all_eq_true.1 h c (List.mem_of_mem_head? hc))

theorem endsWord_printed {trail : String} (htrail : isBlankText trail = true)
    {parts : List (String × Term)} (hgaps : ∀ p ∈ parts, isGap p.1 = true) :
    EndsWord (printed trail parts).toList := by
  cases parts with
  | nil => exact endsWord_of_isBlankText htrail
  | cons p parts =>
    have hgap := hgaps p List.mem_cons_self
    have hends := endsWord_of_isBlankText (isBlankText_of_isGap hgap)
    intro c hc
    rw [printed, String.toList_append, String.toList_append, List.append_assoc,
      List.head?_append_of_ne_nil _ (isGap_iff.1 hgap).1] at hc
    exact hends c hc

/-- **The tokens of printed terms are those of the terms, one after the other**, if there are blanks
between any two. -/
theorem scan_printed {trail : String} (htrail : isBlankText trail = true)
    {parts : List (String × Term)} (hread : ∀ p ∈ parts, p.2.Readable)
    (hblank : ∀ p ∈ parts, isBlankText p.1 = true) (hgaps : ∀ p ∈ parts.tail, isGap p.1 = true) :
    scan (printed trail parts) = tokensOfAll (treesOfAll (parts.map (·.2))) := by
  induction parts with
  | nil => exact scan_isBlankText htrail
  | cons p parts ih =>
    have hrest := ih (fun q hq => hread q (List.mem_cons_of_mem _ hq))
      (fun q hq => hblank q (List.mem_cons_of_mem _ hq))
      (fun q hq => hgaps q (List.mem_of_mem_tail hq))
    have hends : EndsWord (printed trail parts).toList := endsWord_printed htrail hgaps
    rw [scan, printed, String.toList_append, String.toList_append, List.append_assoc,
      scanFrom_blanks (List.all_eq_true.1 (hblank p List.mem_cons_self)),
      scan_render (hread p List.mem_cons_self) _ hends]
    exact congrArg (p.2.tree.tokens ++ ·) hrest

end Term

namespace TokenStream

open Term TokenTree

variable {s : TokenStream}

theorem atEnd_of_tokens {tree : TokenTree} {rest : List (Option Token)}
    (h : s.toList = tree.tokens.map some ++ rest) : s.atEnd.1 = false := by
  rw [atEnd_fst, h]
  cases tree <;> rfl

theorem readTerm_of_tokens {t : Term} (ht : t.Readable) {rest : List (Option Token)}
    (h : s.toList = t.tree.tokens.map some ++ rest) :
    s.readTerm.1 = .ok t ∧ s.readTerm.2.toList = rest := by
  rw [readTerm_fst, toList_readTerm, h, readFrom_tokens (term_tree ht) [] rest]
  exact ⟨rfl, rfl⟩

theorem answers_of_tokens {ts : List Term} (hts : ∀ t ∈ ts, t.Readable)
    (h : s.toList = (tokensOfAll (treesOfAll ts)).map some) :
    s.answers (ts.flatMap (fun _ => [.atEnd, .readTerm]) ++ [.atEnd]) =
      ts.flatMap (fun t => [.flag false, .term (.ok t)]) ++ [.flag true] := by
  induction ts generalizing s with
  | nil =>
    have hend : s.atEnd.1 = true := by
      rw [atEnd_fst, h]
      rfl
    simp [answers, answer, hend]
  | cons t ts ih =>
    rw [treesOfAll, tokensOfAll, List.map_append] at h
    have hlooked : s.atEnd.2.toList = _ := (toList_atEnd s).trans h
    obtain ⟨hread, hrest⟩ := readTerm_of_tokens (hts t List.mem_cons_self) hlooked
    have hlater := ih (fun u hu => hts u (List.mem_cons_of_mem _ hu)) hrest
    simp only [List.flatMap_cons, List.cons_append, List.nil_append, answers, answer, hread,
      atEnd_of_tokens h, hlater]

/-- **A token stream is a faithful queue of its tokens.** Calls that only look ahead change no other
answer, reading token by token comes to the same, and printed terms with blanks between them are
read back in their order. -/
theorem faithful :
    (∀ (items : List (Option Token)) (calls : List (Call × Bool)),
      (∀ c ∈ calls, c.2 = false → c.1.looks = true) →
      kept ((ofList items).answers (calls.map (·.1))) (calls.map (·.2)) =
        (ofList items).answers ((calls.filter (·.2)).map (·.1))) ∧
    (∀ s : TokenStream, (∃ r t, Reads none s r t) ∧
      ∀ r t, Reads none s r t →
        r = s.readTerm.1 ∧ ∀ calls, t.answers calls = s.readTerm.2.answers calls) ∧
    ∀ (parts : List (String × Term)) (trail : String),
      (∀ p ∈ parts, parse p.2.render = .ok p.2) → (∀ p ∈ parts, isBlankText p.1 = true) →
      (∀ p ∈ parts.tail, isGap p.1 = true) → isBlankText trail = true →
      (ofSource (printed trail parts)).answers
          (parts.flatMap (fun _ => [.atEnd, .readTerm]) ++ [.atEnd]) =
        parts.flatMap (fun p => [.flag false, .term (.ok p.2)]) ++ [.flag true] := by
  refine ⟨fun items calls hlooks => kept_answers hlooks _, fun s => ⟨exists_reads s none,
    fun r t h => ?_⟩, fun parts trail hparse hblank hgaps htrail => ?_⟩
  · obtain ⟨hr, ht⟩ := h.eq_readTerm
    exact ⟨hr, answers_congr ht⟩
  · have hread : ∀ p ∈ parts, p.2.Readable := fun p hp => readable_of_parse (hparse p hp)
    have htokens : (ofSource (printed trail parts)).toList =
        (tokensOfAll (treesOfAll (parts.map (·.2)))).map some := by
      rw [ofSource, toList_ofList, scan_printed htrail hread hblank hgaps]
    simpa only [List.flatMap_map] using answers_of_tokens (List.forall_mem_map.2 hread) htokens

/-- An end mark inside a list, which the fault leaves in the stream; and terms after blanks. -/
theorem faithful_unclosed :
    kept ((ofList [some .opening, none, some .closing]).answers
        [.peek, .readTerm, .atEnd, .advance, .readTerm]) [false, true, false, true, true] =
      [.term (.error (.error .missingClose)), .token none,
        .term (.error (.error .unexpectedClose))] ∧
    (ofSource " -1\t() add").answers
        [.atEnd, .readTerm, .atEnd, .readTerm, .atEnd, .readTerm, .atEnd] =
      [.flag false, .term (.ok (.int (-1))), .flag false, .term (.ok (.list [])), .flag false,
        .term (.ok (.symbol Builtin.add.symbol)), .flag true] := by
  refine ⟨faithful.1 [some .opening, none, some .closing] [(.peek, false), (.readTerm, true),
    (.atEnd, false), (.advance, true), (.readTerm, true)] (by decide), ?_⟩
  have htext : printed "" [(" ", .int (-1)), ("\t", .list []), (" ", .symbol Builtin.add.symbol)] =
      " -1\t() add" := by decide +kernel
  rw [← htext]
  refine faithful.2.2 [(" ", .int (-1)), ("\t", .list []), (" ", .symbol Builtin.add.symbol)] "" ?_
    (by decide) (by decide) rfl
  simp only [List.forall_mem_cons]
  exact ⟨rfl, rfl, rfl, nofun⟩

end TokenStream

end ScopedLisp
