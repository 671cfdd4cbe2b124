import ScopedLisp.Console.Interaction
import ScopedLisp.Proofs.LanguageErrors

/-!
# Transcripts

The loop answers every input with one line, and a script is answered by the line that a new loop
has for its text.

* `Text.Spaced`: a text without blanks other than spaces, so one that stays on a line;
* `Term.IsValue.spaced_render`, `Error.spaced_message`: answers do;
* `Answer.line`, `Input.answers`: the lines that answer results and inputs;
* `Session.Sound.answered`: every result has such a line;
* `Interaction.answerAll_transcript`: what the loop shows;
* **`Interaction.loop_transcript`**: the transcript of the loop, with and without interrupts, and of
  a script.
-/

namespace ScopedLisp

/-! ## Texts on one line -/

namespace Text

/-- The characters that end a line: line feeds and carriage returns, the tabulator and the feed that
go on to a new line or page, the ASCII separators above units, and the separators beyond ASCII. -/
def endsLine (c : Char) : Bool :=
  [0x0a, 0x0b, 0x0c, 0x0d, 0x1c, 0x1d, 0x1e, 0x85, 0x2028, 0x2029].contains c.toNat

/-- All blanks of the text are spaces. -/
def Spaced (s : String) : Prop := ∀ c ∈ s.toList, isBlank c = true → c = ' '

instance : DecidablePred Spaced := fun s => List.decidableBAll _ s.toList

theorem isBlank_of_endsLine {c : Char} (h : endsLine c = true) : isBlank c = true := by
  simp only [endsLine, List.contains_eq_mem, decide_eq_true_eq, List.mem_cons, List.not_mem_nil,
    or_false] at h
  simp only [isBlank, Bool.or_eq_true, Bool.and_eq_true, decide_eq_true_eq, beq_iff_eq]
  omega

theorem Spaced.endsLine_eq_false {s : String} (hs : Spaced s) {c : Char} (hc : c ∈ s.toList) :
    endsLine c = false := by
  by_contra h
  rw [Bool.not_eq_false] at h
  rw [hs c hc (isBlank_of_endsLine h)] at h
  exact absurd h (by decide)

theorem Spaced.append {s t : String} (hs : Spaced s) (ht : Spaced t) : Spaced (s ++ t) := by
  intro c hc
  rw [String.toList_append] at hc
  exact (List.mem_append.1 hc).elim (hs c) (ht c)

theorem spaced_of_wordChars {s : String} (h : ∀ c ∈ s.toList, isWordChar c = true) : Spaced s := by
  intro c hc hblank
  have := h c hc
  simp [isWordChar, hblank] at this

theorem spaced_of_isWord {s : String} (h : isWord s.toList = true) : Spaced s := by
  simp only [isWord, Bool.and_eq_true, List.all_eq_true] at h
  exact spaced_of_wordChars h.2

theorem spaced_intercalate {words : List String} (h : ∀ w ∈ words, Spaced w) :
    Spaced (" ".intercalate words) := by
  induction words with
  | nil => decide
  | cons w ws ih =>
    have hw := h w List.mem_cons_self
    have ih := ih fun v hv => h v (List.mem_cons_of_mem _ hv)
    cases ws with
    | nil => rwa [String.intercalate_singleton]
    | cons v vs =>
      rw [String.intercalate_cons_cons]
      exact (hw.append (by decide)).append ih

theorem spaced_toString (n : Nat) : Spaced (toString n) := by
  refine spaced_of_wordChars fun c hc => Term.isWordChar_of_isDigit ?_
  rw [Nat.toString_eq_repr, Nat.toList_repr] at hc
  exact Numeral.isDigit_of_mem_toDigits hc

end Text

open Text

theorem spaced_parenthesized {words : List String} (h : ∀ w ∈ words, Spaced w) :
    Spaced (parenthesized words) :=
  ((by decide : Spaced "(").append (spaced_intercalate h)).append (by decide)

namespace Term

theorem Readable.spaced_render {t : Term} (ht : t.Readable) : Spaced t.render := by
  induction ht with
  | bool b => cases b <;> decide
  | int _ => exact spaced_of_isWord (isWord_toString _)
  | @symbol s _ => exact spaced_of_isWord s.isWord_name
  | @list items _ ih =>
    refine spaced_parenthesized fun w hw => ?_
    rw [renderAll_eq_map] at hw
    obtain ⟨t, ht, rfl⟩ := List.mem_map.1 hw
    exact ih t ht

theorem spaced_renderParams (params : List Symbol) : Spaced (renderParams params) := by
  refine spaced_parenthesized fun w hw => ?_
  obtain ⟨p, -, rfl⟩ := List.mem_map.1 hw
  exact spaced_of_isWord p.isWord_name

/-- **A value is printed on one line.** -/
theorem IsValue.spaced_render {v : Term} {n : Nat} (hv : v.IsValue n) : Spaced v.render := by
  cases v with
  | bool b => cases b <;> decide
  | int _ => exact spaced_of_isWord (isWord_toString _)
  | builtin _ => exact (by decide : Spaced "<builtin>")
  | closure params body _ =>
    refine spaced_parenthesized ?_
    simp only [List.forall_mem_cons, List.not_mem_nil]
    exact ⟨by decide, spaced_renderParams params, hv.1.spaced_render, by simp⟩
  | named name params body _ =>
    refine spaced_parenthesized ?_
    simp only [List.forall_mem_cons]
    exact ⟨by decide, spaced_of_isWord name.isWord_name, spaced_renderParams params,
      hv.1.spaced_render, by simp⟩
  | _ => exact hv.elim

end Term

/-- **An error is reported on one line**, unless it shows a value that is no symbol. -/
theorem Error.spaced_message {e : Error} (he : e.kind ≠ .notSymbol) : Spaced e.message := by
  cases e with
  | notSymbol => exact absurd rfl he
  | unbound name | duplicate name =>
    exact (by decide : Spaced _).append (spaced_of_isWord name.isWord_name)
  | formShape keyword => cases keyword <;> decide
  | operandCount expected =>
    exact ((by decide : Spaced _).append (spaced_toString expected)).append (by decide)
  | argumentCount expected got =>
    exact (((by decide : Spaced _).append (spaced_toString expected)).append
      (by decide : Spaced ", got ")).append (spaced_toString got)
  | scopeReclaimed _ => exact (by decide : Spaced "static scope environment not found")
  | _ => decide

/-! ## Lines that answer -/

/-- The line that answers a result: the printed value, or the report of an error of the language. -/
def Answer.line : Except Fault Term → String
  | .ok value => value.render
  | .error (.error e) => e.message
  | .error _ => ""

namespace Input

/-- Whether an input is a line of text. -/
def isLine : Input → Bool
  | line _ => true
  | interrupt => false

/-- The lines of text among the inputs. -/
def texts : List Input → List String
  | [] => []
  | line text :: inputs => text :: texts inputs
  | interrupt :: inputs => texts inputs

/-- The lines that answer the inputs, given the results of the lines of text among them: an
interrupt is answered by an empty line. -/
def answers : List Input → List (Except Fault Term) → List String
  | line _ :: inputs, result :: results => Answer.line result :: answers inputs results
  | interrupt :: inputs, results => "" :: answers inputs results
  | _, _ => []

theorem texts_filter_isLine (inputs : List Input) :
    texts (inputs.filter isLine) = texts inputs := by
  induction inputs with
  | nil => rfl
  | cons input inputs ih =>
    cases input with
    | line text => exact congrArg (text :: ·) ih
    | interrupt => exact ih

theorem answers_filter_isLine {inputs : List Input} {results : List (Except Fault Term)}
    (h : results.length = (texts inputs).length) :
    answers (inputs.filter isLine) results = results.map Answer.line := by
  induction inputs generalizing results with
  | nil => rw [List.length_eq_zero_iff.1 h]; rfl
  | cons input inputs ih =>
    cases input with
    | interrupt => exact ih h
    | line text =>
      cases results with
      | nil => cases h
      | cons result results => exact congrArg (_ :: ·) (ih (Nat.succ.inj h))

theorem length_answers {inputs : List Input} {results : List (Except Fault Term)}
    (h : results.length = (texts inputs).length) :
    (answers inputs results).length = inputs.length := by
  induction inputs generalizing results with
  | nil => rfl
  | cons input inputs ih =>
    cases input with
    | interrupt => exact congrArg (· + 1) (ih h)
    | line text =>
      cases results with
      | nil => cases h
      | cons result results => exact congrArg (· + 1) (ih (Nat.succ.inj h))

theorem mem_answers {inputs : List Input} {results : List (Except Fault Term)} {line : String}
    (h : line ∈ answers inputs results) : line = "" ∨ ∃ r ∈ results, line = Answer.line r := by
  fun_induction answers inputs results with
  | case1 _ inputs result results ih =>
    rcases List.mem_cons.1 h with rfl | h
    · exact .inr ⟨result, List.mem_cons_self, rfl⟩
    · exact (ih h).imp_right fun ⟨r, hr, hline⟩ => ⟨r, List.mem_cons_of_mem _ hr, hline⟩
  | case2 inputs results ih => exact (List.mem_cons.1 h).elim .inl ih
  | case3 => cases h

end Input

/-- A result that has an answer: a value, or an error of the language. -/
def Answered (r : Except Fault Term) : Prop := (∃ v, r = .ok v) ∨ ∃ e, r = .error (.error e)

namespace Session

variable {session : Session} {limit : Nat} {source : String}

/-- **A step that is not exhausted has an answer, on one line.** -/
theorem Sound.answered (hs : session.Sound) (hshort : Term.ShortNumerals (Token.scan source))
    (hlevels : (session.eval limit source).1 ≠ .error .exhausted) :
    Answered (session.eval limit source).1 ∧
      Spaced (Answer.line (session.eval limit source).1) := by
  cases hr : (session.eval limit source).1 with
  | ok v =>
    obtain ⟨e, t, hparse, hx, -⟩ := exists_of_eval_ok hr
    have hval := (((hs.activation_proper hparse limit).yields Held.keepsAlive).of_ok hx).2
    exact ⟨.inl ⟨v, rfl⟩, hval.spaced_render⟩
  | error fault =>
    rcases hs.kind_of_eval hshort hr with rfl | ⟨e, rfl, hkind⟩
    · exact absurd hr hlevels
    · refine ⟨.inr ⟨e, rfl⟩, Error.spaced_message fun hsymbol => ?_⟩
      rw [hsymbol] at hkind
      exact absurd hkind (by decide)

theorem Sound.answered_run (hs : session.Sound) {sources : List String}
    (hshort : ∀ source ∈ sources, Term.ShortNumerals (Token.scan source))
    (hlevels : .error .exhausted ∉ (session.run limit sources).1) :
    ∀ r ∈ (session.run limit sources).1, Answered r ∧ Spaced (Answer.line r) := by
  intro r hr
  obtain ⟨n, hn⟩ := List.getElem?_of_mem hr
  rw [getElem?_run] at hn
  obtain ⟨source, hsource, rfl⟩ := Option.map_eq_some_iff.1 hn
  refine (hs.run limit _).answered (hshort source (List.mem_of_getElem? hsource)) fun h => ?_
  rw [h] at hr
  exact hlevels hr

theorem reply_of_answered (h : Answered (session.eval limit source).1) :
    ∃ notes : List Record, session.reply limit source =
      ⟨notes.map .record ++ [.line (Answer.line (session.eval limit source).1)],
        .ok ⟨(session.eval limit source).1.isOk, Answer.line (session.eval limit source).1⟩,
        (session.eval limit source).2⟩ := by
  refine ⟨Session.records source (session.eval limit source).1, ?_⟩
  unfold reply
  rcases h with ⟨v, hr⟩ | ⟨e, hr⟩ <;> simp only [hr, Answer.ofResult] <;> rfl

end Session

/-! ## The loop -/

namespace Interaction

theorem lines_after (events : List Event) (i : Interaction) :
    (after events i).lines = lines ⟨events, i.ending⟩ ++ i.lines := List.filterMap_append

theorem prompts_after (events : List Event) (i : Interaction) :
    (after events i).prompts = prompts ⟨events, i.ending⟩ ++ i.prompts := List.filterMap_append

theorem lines_reply (notes : List Record) (text : String) (ending : Ending) :
    lines ⟨notes.map .record ++ [.line text], ending⟩ = [text] := by
  simp [lines, List.filterMap_append, List.filterMap_map]

theorem prompts_reply (notes : List Record) (text : String) (ending : Ending) :
    prompts ⟨notes.map .record ++ [.line text], ending⟩ = [] := by
  simp [prompts, List.filterMap_append, List.filterMap_map]

/-- **What the loop shows from some state on**: a prompt and a line for every input, and a prompt
and an empty line at the end. -/
theorem answerAll_transcript {limit : Nat} (prompt : String) {session : Session}
    {inputs : List Input}
    (h : ∀ r ∈ (session.run limit (Input.texts inputs)).1, Answered r) :
    (answerAll limit prompt session inputs).ending = .status 0 ∧
      (answerAll limit prompt session inputs).prompts =
        List.replicate (inputs.length + 1) prompt ∧
      (answerAll limit prompt session inputs).lines =
        Input.answers inputs (session.run limit (Input.texts inputs)).1 ++ [""] := by
  induction inputs generalizing session with
  | nil => exact ⟨rfl, rfl, rfl⟩
  | cons input inputs ih =>
    cases input with
    | interrupt =>
      obtain ⟨hending, hprompts, hlines⟩ := ih h
      refine ⟨hending, ?_, ?_⟩
      · rw [answerAll, prompts_after, hprompts]
        rfl
      · rw [answerAll, lines_after, hlines]
        rfl
    | line source =>
      have hfirst : Answered (session.eval limit source).1 := h _ List.mem_cons_self
      have hrest : ∀ r ∈ ((session.eval limit source).2.run limit (Input.texts inputs)).1,
          Answered r := fun r hr => h r (List.mem_cons_of_mem _ hr)
      obtain ⟨hending, hprompts, hlines⟩ := ih hrest
      obtain ⟨notes, hreply⟩ := Session.reply_of_answered hfirst
      have hstep : answerAll limit prompt session (.line source :: inputs) =
          after (.prompt prompt :: (notes.map .record ++
            [.line (Answer.line (session.eval limit source).1)]))
            (answerAll limit prompt (session.eval limit source).2 inputs) := by
        rw [answerAll, hreply]
      refine ⟨by rw [hstep]; exact hending, ?_, ?_⟩
      · rw [hstep, prompts_after, hprompts]
        exact congrArg (prompt :: · ++ _) (prompts_reply notes _ (.status 0))
      · rw [hstep, lines_after, hlines]
        exact congrArg (· ++ _) (lines_reply notes _ (.status 0))

/-! ## Scripts -/

theorem program_transcript {limit : Nat} {source : String}
    (h : Answered (Session.start.eval limit source).1) :
    (program limit source).ending =
        .status (if (Session.start.eval limit source).1.isOk then 0 else 1) ∧
      (program limit source).lines = [Answer.line (Session.start.eval limit source).1] := by
  obtain ⟨notes, hreply⟩ := Session.reply_of_answered h
  unfold program
  rw [hreply]
  exact ⟨rfl, lines_reply notes _ _⟩

theorem lines_loop_line {limit : Nat} (prompt : String) {source : String}
    (h : Answered (Session.start.eval limit source).1) :
    (loop limit prompt [.line source]).lines =
      [banner, Answer.line (Session.start.eval limit source).1, ""] := by
  have hall : ∀ r ∈ (Session.start.run limit (Input.texts [.line source])).1, Answered r := by
    intro r hr
    rw [List.mem_singleton.1 hr]
    exact h
  obtain ⟨-, -, hlines⟩ := answerAll_transcript prompt hall
  rw [loop, lines_after, hlines]
  rfl

end Interaction

namespace Text

/-- The characters of a text in which every line end that has a carriage return is a line feed. -/
def lineFeeds : List Char → List Char
  | '\r' :: '\n' :: cs => '\n' :: lineFeeds cs
  | '\r' :: cs => '\n' :: lineFeeds cs
  | c :: cs => c :: lineFeeds cs
  | [] => []

/-- The text in which every line end that has a carriage return is a line feed. -/
def withLineFeeds (s : String) : String := String.ofList (lineFeeds s.toList)

end Text

theorem Token.scanFrom_lineFeeds (pending cs : List Char) :
    scanFrom pending (lineFeeds cs) = scanFrom pending cs := by
  fun_induction lineFeeds cs generalizing pending with
  | case1 cs ih | case2 cs _ ih => exact congrArg (flush pending ++ ·) (ih [])
  | case3 c cs _ _ ih => simp only [scanFrom, ih]
  | case4 => rfl

theorem Token.scan_withLineFeeds (source : String) : scan (withLineFeeds source) = scan source := by
  rw [scan, withLineFeeds, String.toList_ofList, scanFrom_lineFeeds]
  rfl

theorem Session.eval_withLineFeeds (session : Session) (limit : Nat) (source : String) :
    session.eval limit (withLineFeeds source) = session.eval limit source := by
  have hparse : Term.parse (withLineFeeds source) = Term.parse source := by
    unfold Term.parse TokenStream.ofSource
    rw [Token.scan_withLineFeeds]
  rw [eval, eval, evalWith, evalWith, hparse]

namespace Interaction

/-- **The transcript of a loop.** If no line of text is exhausted or has an overlong numeral, the
loop answers a line of text like a session of these lines alone and an interrupt by an empty line; a
script is answered by the line that a new loop has for its text. -/
theorem loop_transcript (limit : Nat) (prompt : String) (inputs : List Input)
    (hshort : ∀ source ∈ Input.texts inputs, Term.ShortNumerals (Token.scan source))
    (hlevels : .error .exhausted ∉ (Session.start.run limit (Input.texts inputs)).1) :
    let results := (Session.start.run limit (Input.texts inputs)).1
    let answers := Input.answers inputs results
    ((loop limit prompt inputs).ending = .status 0 ∧
      (loop limit prompt inputs).prompts = List.replicate (inputs.length + 1) prompt ∧
      (loop limit prompt inputs).lines = banner :: (answers ++ [""]) ∧
      answers.length = inputs.length ∧ results.length = (Input.texts inputs).length ∧
      (∀ r ∈ results, Answered r) ∧
      ∀ line ∈ answers, ∀ c ∈ line.toList, endsLine c = false) ∧
    ((loop limit prompt (inputs.filter Input.isLine)).ending = .status 0 ∧
      (loop limit prompt (inputs.filter Input.isLine)).lines =
        banner :: (results.map Answer.line ++ [""])) ∧
    ∀ (path : Path) (bytes : List UInt8) (source : String),
      path.toText.toList.contains '\x00' = false → Utf8.decode bytes = .ok source →
      Term.ShortNumerals (Token.scan source) →
      (Session.start.eval limit source).1 ≠ .error .exhausted →
      let result := (Session.start.eval limit source).1
      (loop limit prompt [.line source]).lines = [banner, Answer.line result, ""] ∧
      (loop limit prompt [.line (withLineFeeds source)]).lines = [banner, Answer.line result, ""] ∧
      (script limit path (.ok bytes)).lines = [Answer.line result] ∧
      (script limit path (.ok bytes)).ending = .status (if result.isOk then 0 else 1) := by
  have hsound := Session.start_fresh.toSound
  have hanswered := hsound.answered_run hshort hlevels
  have hlength := Session.length_run limit Session.start (Input.texts inputs)
  intro results answers
  refine ⟨?_, ?_, ?_⟩
  · obtain ⟨hending, hprompts, hlines⟩ :=
      answerAll_transcript prompt fun r hr => (hanswered r hr).1
    refine ⟨hending, ?_, ?_, Input.length_answers hlength, hlength,
      fun r hr => (hanswered r hr).1, fun line hline c hc => ?_⟩
    · rw [loop, prompts_after, hprompts]
      rfl
    · rw [loop, lines_after, hlines]
      rfl
    · rcases Input.mem_answers hline with rfl | ⟨r, hr, rfl⟩
      · cases hc
      · exact (hanswered r hr).2.endsLine_eq_false hc
  · -- without the interrupts, the texts and so the results are the same
    have htexts := Input.texts_filter_isLine inputs
    have hsame : ∀ r ∈ (Session.start.run limit
        (Input.texts (inputs.filter Input.isLine))).1, Answered r := by
      rw [htexts]
      exact fun r hr => (hanswered r hr).1
    obtain ⟨hending, -, hlines⟩ := answerAll_transcript prompt hsame
    refine ⟨hending, ?_⟩
    rw [loop, lines_after, hlines, htexts, Input.answers_filter_isLine hlength]
    rfl
  · intro path bytes source hpath hbytes hsource hexhausted
    have h := (hsound.answered hsource hexhausted).1
    have hunified : Answered (Session.start.eval limit (withLineFeeds source)).1 := by
      rwa [Session.eval_withLineFeeds]
    obtain ⟨hending, hlines⟩ := program_transcript h
    have hscript : script limit path (.ok bytes) =
        after [.record (.script path.toText)] (program limit source) := by
      simp only [script, hpath, hbytes]
      rfl
    refine ⟨lines_loop_line prompt h, ?_, ?_, ?_⟩
    · rw [lines_loop_line prompt hunified, Session.eval_withLineFeeds]
    · rw [hscript, lines_after, hlines]
      rfl
    · rw [hscript]
      exact hending

/-- A loop that is interrupted between a definition and its use, with line ends inside of the lines
of text, and a script that is not closed. -/
theorem loop_transcript_interrupted :
    ∃ inputs, inputs = [.line "(let f\n (fn (x)\r\n x))", .interrupt, .line "(f 3)\u2028",
        .line "(f\n 3"] ∧
      (∀ source ∈ Input.texts inputs, Term.ShortNumerals (Token.scan source)) ∧
      .error .exhausted ∉ (Session.start.run 9 (Input.texts inputs)).1 ∧
      (loop 9 "> " inputs).prompts = ["> ", "> ", "> ", "> ", "> "] ∧
      (loop 9 "> " inputs).lines =
        ["toy lisp", "(fn (x) x)", "", "3", "missing right paren", ""] ∧
      (loop 9 "> " (inputs.filter Input.isLine)).lines =
        ["toy lisp", "(fn (x) x)", "3", "missing right paren", ""] ∧
      (script 9 ⟨"", ["a"]⟩ (.ok [0x28, 0x0d, 0x0a])).lines = ["missing right paren"] ∧
      (script 9 ⟨"", ["a"]⟩ (.ok [0x28, 0x0d, 0x0a])).ending = .status 1 := by
  obtain ⟨inputs, hinputs⟩ : ∃ inputs : List Input, inputs = [.line "(let f\n (fn (x)\r\n x))",
    .interrupt, .line "(f 3)\u2028", .line "(f\n 3"] := ⟨_, rfl⟩
  have hshort : ∀ source ∈ Input.texts inputs, Term.ShortNumerals (Token.scan source) := by
    rw [hinputs]
    decide +kernel
  have hresults : (Session.start.run 9 (Input.texts inputs)).1.map Answer.line =
      ["(fn (x) x)", "3", "missing right paren"] := by
    rw [hinputs]
    decide +kernel
  have hanswers : Input.answers inputs (Session.start.run 9 (Input.texts inputs)).1 =
      ["(fn (x) x)", "", "3", "missing right paren"] := by
    rw [hinputs]
    decide +kernel
  have hlevels : .error .exhausted ∉ (Session.start.run 9 (Input.texts inputs)).1 := by
    intro h
    have hempty := List.mem_map_of_mem (f := Answer.line) h
    rw [hresults] at hempty
    exact absurd hempty (by decide)
  obtain ⟨⟨-, hprompts, hlines, -⟩, ⟨-, hfiltered⟩, hscript⟩ :=
    loop_transcript 9 "> " inputs hshort hlevels
  rw [hanswers] at hlines
  rw [hresults] at hfiltered
  have hunclosed : Answer.line (Session.start.eval 9 "(\r\n").1 = "missing right paren" := by
    decide +kernel
  obtain ⟨-, -, hline, hending⟩ := hscript ⟨"", ["a"]⟩ [0x28, 0x0d, 0x0a] "(\r\n"
    (by decide +kernel) rfl (by decide +kernel) fun h => by
      rw [h] at hunclosed
      exact absurd hunclosed (by decide)
  rw [hunclosed] at hline
  refine ⟨inputs, hinputs, hshort, hlevels, ?_, hlines, hfiltered, hline, hending⟩
  rw [hprompts, hinputs]
  rfl

end Interaction

end ScopedLisp
