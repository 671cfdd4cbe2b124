import Mathlib.Data.List.Nodup
import Mathlib.Order.Bounds.Basic
import ScopedLisp.Term.Reader

/-!
# The grammar of programs

A program is one tree of words and parentheses. Which of its errors a text has is decided by the
depth of its tokens: the opening parentheses so far less the closing ones.

* `TokenTree`, `TokenTree.tokens`, `TokenTree.term`: a tree, the tokens it is written with, and the
  term it is;
* `Token.depth`, `Token.FirstEnds`: the depth of tokens, and the number of tokens of the first tree;
* `readFrom_tokens`, `exists_readFrom_append`: what reading makes of the tokens of a tree, and of
  tokens that do not close what they open;
* `Token.first_cases`: every sequence of tokens starts in one of four ways;
* **`Term.parse_spec`**: a text is read exactly if its tokens are those of one tree, and the report
  of every other text is told by the depths.
-/

namespace ScopedLisp

/-- A word, or trees in parentheses. -/
inductive TokenTree where
  | word (text : String)
  | list (items : List TokenTree)

namespace TokenTree

mutual

/-- The tokens that a tree is written with. -/
def tokens : TokenTree → List Token
  | word text => [⟨.word, text⟩]
  | list items => .opening :: (tokensOfAll items ++ [.closing])

/-- The tokens that trees are written with, one after the other. -/
def tokensOfAll : List TokenTree → List Token
  | [] => []
  | t :: ts => t.tokens ++ tokensOfAll ts

end

mutual

/-- The term of a tree, where each word is taken by itself. -/
def term : TokenTree → Except WordFault Term
  | word text => Term.ofWord text
  | list items => (termsOfAll items).map Term.list

/-- The terms of trees. -/
def termsOfAll : List TokenTree → Except WordFault (List Term)
  | [] => .ok []
  | t :: ts =>
    match t.term with
    | .error f => .error f
    | .ok x => (termsOfAll ts).map (x :: ·)

end

end TokenTree

/-! ## Tokens of texts -/

namespace Token

/-- A token that a text can have: a parenthesis, or a word in the characters of words. -/
def IsScanned (t : Token) : Prop :=
  t = opening ∨ t = closing ∨ ∃ cs, isWord cs = true ∧ t = word cs

theorem isScanned_of_mem_flush {cs : List Char} (hcs : ∀ c ∈ cs, isWordChar c = true) {t : Token}
    (ht : t ∈ flush cs) : t.IsScanned := by
  cases cs with
  | nil => cases ht
  | cons c cs =>
    simp only [flush, List.mem_singleton] at ht
    refine .inr (.inr ⟨(c :: cs).reverse, ?_, ht⟩)
    simp only [isWord, Bool.and_eq_true, List.all_eq_true, List.mem_reverse]
    exact ⟨by simp, hcs⟩

theorem isScanned_of_mem_scanFrom {cs pending : List Char}
    (hp : ∀ c ∈ pending, isWordChar c = true) {t : Token} (ht : t ∈ scanFrom pending cs) :
    t.IsScanned := by
  induction cs generalizing pending with
  | nil => exact isScanned_of_mem_flush hp ht
  | cons c cs ih =>
    have hnil : ∀ c ∈ ([] : List Char), isWordChar c = true := fun _ h => nomatch h
    unfold scanFrom at ht
    split_ifs at ht with h1 h2 h3
    · rw [List.mem_append, List.mem_cons] at ht
      rcases ht with ht | rfl | ht
      · exact isScanned_of_mem_flush hp ht
      · exact .inl rfl
      · exact ih hnil ht
    · rw [List.mem_append, List.mem_cons] at ht
      rcases ht with ht | rfl | ht
      · exact isScanned_of_mem_flush hp ht
      · exact .inr (.inl rfl)
      · exact ih hnil ht
    · rw [List.mem_append] at ht
      rcases ht with ht | ht
      · exact isScanned_of_mem_flush hp ht
      · exact ih hnil ht
    · refine ih (fun d hd => ?_) ht
      rcases List.mem_cons.1 hd with rfl | hd
      · simp only [beq_iff_eq] at h1 h2
        simp [isWordChar, h1, h2, h3]
      · exact hp d hd

theorem isScanned_of_mem_scan {source : String} {t : Token} (ht : t ∈ scan source) :
    t.IsScanned :=
  isScanned_of_mem_scanFrom (by simp) ht

/-! ## Depth -/

/-- The number of opening parentheses less the number of closing ones. -/
def depth (ts : List Token) : Int :=
  ts.countP (·.kind = .opening) - ts.countP (·.kind = .closing)

@[simp]
theorem depth_nil : depth [] = 0 := rfl

@[simp]
theorem depth_opening (ts : List Token) : depth (opening :: ts) = depth ts + 1 := by
  simp [depth, opening]
  omega

@[simp]
theorem depth_closing (ts : List Token) : depth (closing :: ts) = depth ts - 1 := by
  simp [depth, closing]
  omega

@[simp]
theorem depth_word (text : String) (ts : List Token) : depth (⟨.word, text⟩ :: ts) = depth ts := by
  simp [depth]

theorem depth_append (ts us : List Token) : depth (ts ++ us) = depth ts + depth us := by
  simp only [depth, List.countP_append]
  omega

end Token

namespace TokenTree

open Token

mutual

theorem depth_tokens (t : TokenTree) : depth t.tokens = 0 := by
  cases t with
  | word text => simp [tokens]
  | list items =>
    have h := depth_tokensOfAll items
    simp [tokens, depth_append, h]

theorem depth_tokensOfAll (ts : List TokenTree) : depth (tokensOfAll ts) = 0 := by
  cases ts with
  | nil => rfl
  | cons t ts => rw [tokensOfAll, depth_append, depth_tokens t, depth_tokensOfAll ts, Int.add_zero]

end

theorem take_tokens_list {items : List TokenTree} {k : Nat}
    (hk : k + 1 < (list items).tokens.length) :
    (list items).tokens.take (k + 1) = opening :: (tokensOfAll items).take k := by
  simp only [tokens, List.length_cons, List.length_append, List.length_nil] at hk
  rw [tokens, List.take_succ_cons, List.take_append_of_le_length (by omega)]

mutual

theorem depth_take_tokens_nonneg (t : TokenTree) (k : Nat) : 0 ≤ depth (t.tokens.take k) := by
  cases t with
  | word text => cases k <;> simp [tokens]
  | list items =>
    cases k with
    | zero => simp
    | succ k =>
      by_cases hk : k + 1 < (list items).tokens.length
      · rw [take_tokens_list hk, depth_opening]
        have := depth_take_tokensOfAll_nonneg items k
        omega
      · rw [List.take_of_length_le (by omega), depth_tokens]

theorem depth_take_tokensOfAll_nonneg (ts : List TokenTree) (k : Nat) :
    0 ≤ depth ((tokensOfAll ts).take k) := by
  cases ts with
  | nil => simp [tokensOfAll]
  | cons t ts =>
    rw [tokensOfAll, List.take_append, depth_append]
    have h1 := depth_take_tokens_nonneg t k
    have h2 := depth_take_tokensOfAll_nonneg ts (k - t.tokens.length)
    omega

end

theorem one_le_depth_take_list (items : List TokenTree) {k : Nat} (h1 : 1 ≤ k)
    (hk : k < (list items).tokens.length) : 1 ≤ depth ((list items).tokens.take k) := by
  obtain ⟨k, rfl⟩ : ∃ j, k = j + 1 := ⟨k - 1, by omega⟩
  rw [take_tokens_list hk, depth_opening]
  have := depth_take_tokensOfAll_nonneg items k
  omega

/-! ## A sequence of tokens is written by one tree at most -/

theorem tokens_ne_closing (t : TokenTree) (ts : List Token) :
    ∀ us, t.tokens ++ ts ≠ closing :: us := by
  intro us h
  cases t with
  | word text =>
    rw [tokens, List.singleton_append, List.cons_eq_cons] at h
    exact TokenKind.noConfusion (congrArg Token.kind h.1)
  | list items =>
    rw [tokens, List.cons_append, List.cons_eq_cons] at h
    exact absurd h.1 (by decide)

mutual

theorem tokens_append_inj {a b : TokenTree} {r r' : List Token}
    (h : a.tokens ++ r = b.tokens ++ r') : a = b ∧ r = r' := by
  cases a with
  | word text =>
    cases b with
    | word text' =>
      simp only [tokens, List.singleton_append, List.cons.injEq, Token.mk.injEq, true_and] at h
      exact ⟨by rw [h.1], h.2⟩
    | list items' =>
      simp only [tokens, List.cons_append, List.cons.injEq] at h
      exact TokenKind.noConfusion (congrArg Token.kind h.1)
  | list items =>
    cases b with
    | word text' =>
      simp only [tokens, List.cons_append, List.cons.injEq] at h
      exact TokenKind.noConfusion (congrArg Token.kind h.1)
    | list items' =>
      simp only [tokens, List.cons_append, List.append_assoc, List.cons.injEq, true_and] at h
      obtain ⟨rfl, hr⟩ := tokensOfAll_append_inj h
      exact ⟨rfl, hr⟩

theorem tokensOfAll_append_inj {as bs : List TokenTree} {r r' : List Token}
    (h : tokensOfAll as ++ closing :: r = tokensOfAll bs ++ closing :: r') : as = bs ∧ r = r' := by
  cases as with
  | nil =>
    cases bs with
    | nil => exact ⟨rfl, by simpa [tokensOfAll] using h⟩
    | cons b bs =>
      rw [tokensOfAll, tokensOfAll, List.append_assoc] at h
      exact absurd h.symm (tokens_ne_closing b _ _)
  | cons a as =>
    cases bs with
    | nil =>
      rw [tokensOfAll, tokensOfAll, List.append_assoc] at h
      exact absurd h (tokens_ne_closing a _ _)
    | cons b bs =>
      rw [tokensOfAll, tokensOfAll, List.append_assoc, List.append_assoc] at h
      obtain ⟨rfl, hall⟩ := tokens_append_inj h
      obtain ⟨rfl, hr⟩ := tokensOfAll_append_inj hall
      exact ⟨rfl, hr⟩

end

theorem tokens_injective {a b : TokenTree} (h : a.tokens = b.tokens) : a = b := by
  have happend : a.tokens ++ [] = b.tokens ++ [] := by rw [h]
  exact (tokens_append_inj happend).1

end TokenTree

/-! ## How tokens start -/

namespace Token

open TokenTree

/-- After an opening parenthesis, tokens either never close it or are those of trees and the
parenthesis that closes it. -/
theorem closes_cases (ts : List Token) (hts : ∀ t ∈ ts, t.IsScanned) :
    (∀ k, 0 ≤ depth (ts.take k)) ∨ ∃ trees rest, ts = tokensOfAll trees ++ closing :: rest := by
  -- a list in front is cut off by the hypothesis for its own tokens, then the rest is shorter
  induction hn : ts.length using Nat.strong_induction_on generalizing ts with
  | _ n ih =>
  cases ts with
  | nil => exact .inl fun k => by simp
  | cons t us =>
    have hus : ∀ u ∈ us, u.IsScanned := fun u hu => hts u (List.mem_cons_of_mem _ hu)
    have hlen : us.length < n := by simp only [← hn, List.length_cons]; omega
    rcases hts t List.mem_cons_self with rfl | rfl | ⟨cs, -, rfl⟩
    · rcases ih us.length hlen us hus rfl with h | ⟨trees, rest, rfl⟩
      · refine .inl fun k => ?_
        cases k with
        | zero => simp
        | succ k =>
          rw [List.take_succ_cons, depth_opening]
          have := h k
          omega
      · have hrest : ∀ u ∈ rest, u.IsScanned := fun u hu => hus u (by simp [hu])
        have hlen' : rest.length < n := by
          simp only [List.length_append, List.length_cons] at hlen
          omega
        have hsplit : opening :: (tokensOfAll trees ++ closing :: rest) =
            (list trees).tokens ++ rest := by simp [tokens]
        rw [hsplit]
        rcases ih rest.length hlen' rest hrest rfl with h | ⟨more, rest', rfl⟩
        · refine .inl fun k => ?_
          rw [List.take_append, depth_append]
          have h1 := depth_take_tokens_nonneg (list trees) k
          have h2 := h (k - (list trees).tokens.length)
          omega
        · exact .inr ⟨list trees :: more, rest', by simp [tokensOfAll]⟩
    · exact .inr ⟨[], us, rfl⟩
    · rcases ih us.length hlen us hus rfl with h | ⟨trees, rest, rfl⟩
      · refine .inl fun k => ?_
        cases k with
        | zero => simp
        | succ k =>
          rw [List.take_succ_cons, word, depth_word]
          exact h k
      · exact .inr ⟨.word (String.ofList cs) :: trees, rest, by simp [tokensOfAll, tokens, word]⟩

theorem first_cases (ts : List Token) (hts : ∀ t ∈ ts, t.IsScanned) :
    ts = [] ∨ (∃ us, ts = closing :: us) ∨
      (∃ us, ts = opening :: us ∧ ∀ k, 0 ≤ depth (us.take k)) ∨
      ∃ (tree : TokenTree) (rest : List Token), ts = tree.tokens ++ rest := by
  cases ts with
  | nil => exact .inl rfl
  | cons t us =>
    have hus : ∀ u ∈ us, u.IsScanned := fun u hu => hts u (List.mem_cons_of_mem _ hu)
    rcases hts t List.mem_cons_self with rfl | rfl | ⟨cs, -, rfl⟩
    · rcases closes_cases us hus with h | ⟨trees, rest, rfl⟩
      · exact .inr (.inr (.inl ⟨us, rfl, h⟩))
      · exact .inr (.inr (.inr ⟨.list trees, rest, by simp [tokens]⟩))
    · exact .inr (.inl ⟨us, rfl⟩)
    · exact .inr (.inr (.inr ⟨.word (String.ofList cs), us, rfl⟩))

/-- The tokens start with an opening parenthesis that none of them closes. -/
def Unclosed (ts : List Token) : Prop :=
  ts.head? = some opening ∧ ∀ k, 1 ≤ k → k ≤ ts.length → 1 ≤ depth (ts.take k)

theorem unclosed_opening {us : List Token} (h : ∀ k, 0 ≤ depth (us.take k)) :
    Unclosed (opening :: us) := by
  refine ⟨rfl, fun k h1 _ => ?_⟩
  obtain ⟨k, rfl⟩ : ∃ j, k = j + 1 := ⟨k - 1, by omega⟩
  rw [List.take_succ_cons, depth_opening]
  have := h k
  omega

theorem not_unclosed_tokens (tree : TokenTree) (rest : List Token) :
    ¬ Unclosed (tree.tokens ++ rest) := by
  rintro ⟨-, h⟩
  have hpos : 1 ≤ tree.tokens.length := by cases tree <;> simp [tokens]
  have := h tree.tokens.length hpos (by simp)
  rw [List.take_left, depth_tokens] at this
  omega

/-- The first term of the tokens has `m` of them: one if it is a word, and else as few as open and
close equally often. -/
def FirstEnds (ts : List Token) (m : Nat) : Prop :=
  (∃ t, ts.head? = some t ∧ t.kind = .word ∧ m = 1) ∨
    ts.head? = some opening ∧ IsLeast {k | 1 ≤ k ∧ k ≤ ts.length ∧ depth (ts.take k) = 0} m

theorem firstEnds_tokens (tree : TokenTree) (rest : List Token) :
    FirstEnds (tree.tokens ++ rest) tree.tokens.length := by
  cases tree with
  | word text => exact .inl ⟨⟨.word, text⟩, rfl, rfl, rfl⟩
  | list items =>
    refine .inr ⟨rfl, ⟨by simp [tokens], by simp, ?_⟩, ?_⟩
    · rw [List.take_left, depth_tokens]
    · rintro k ⟨h1, -, hk⟩
      by_contra hlt
      rw [List.take_append_of_le_length (by omega)] at hk
      have := one_le_depth_take_list items h1 (by omega)
      omega

end Token

/-! ## Reading -/

namespace Term

open Token TokenTree

/-- Goes on after a term that has been read inside the lists of `stack`. -/
def resume : (stack : List (List Term)) → Term → List (Option Token) →
    Except Fault Term × List (Option Token)
  | [], t, rest => (.ok t, rest)
  | items :: stack, t, rest => readFrom ((t :: items) :: stack) rest

theorem readFrom_opening (stack : List (List Term)) (rest : List (Option Token)) :
    readFrom stack (some opening :: rest) = readFrom ([] :: stack) rest := by
  cases stack <;> rfl

theorem readFrom_closing (items : List Term) (stack : List (List Term))
    (rest : List (Option Token)) :
    readFrom (items :: stack) (some closing :: rest) = resume stack (.list items.reverse) rest := by
  cases stack <;> rfl

theorem readFrom_word {text : String} {t : Term} (h : ofWord text = .ok t)
    (stack : List (List Term)) (rest : List (Option Token)) :
    readFrom stack (some ⟨.word, text⟩ :: rest) = resume stack t rest := by
  rw [readFrom.eq_def]
  cases stack <;> simp only [h] <;> rfl

mutual

/-- **Reading the tokens of a tree gives its term**, wherever they stand. -/
theorem readFrom_tokens {tree : TokenTree} {t : Term} (h : tree.term = .ok t)
    (stack : List (List Term)) (rest : List (Option Token)) :
    readFrom stack (tree.tokens.map some ++ rest) = resume stack t rest := by
  cases tree with
  | word text => exact readFrom_word h stack rest
  | list items =>
    rw [term] at h
    cases hts : termsOfAll items with
    | error f => rw [hts] at h; cases h
    | ok ts =>
      rw [hts] at h
      cases h
      have hall := readFrom_tokensOfAll hts [] stack (some closing :: rest)
      rw [tokens, List.map_cons, List.cons_append, readFrom_opening, List.map_append,
        List.append_assoc]
      simp only [List.map_cons, List.map_nil, List.cons_append, List.nil_append]
      rw [hall, readFrom_closing, List.append_nil, List.reverse_reverse]

theorem readFrom_tokensOfAll {trees : List TokenTree} {ts : List Term}
    (h : termsOfAll trees = .ok ts) (items : List Term) (stack : List (List Term))
    (rest : List (Option Token)) :
    readFrom (items :: stack) ((tokensOfAll trees).map some ++ rest) =
      readFrom ((ts.reverse ++ items) :: stack) rest := by
  cases trees with
  | nil => cases h; rfl
  | cons tree trees =>
    rw [termsOfAll] at h
    cases ht : tree.term with
    | error f => rw [ht] at h; cases h
    | ok t =>
      rw [ht] at h
      cases hts : termsOfAll trees with
      | error f => simp only [hts] at h; cases h
      | ok us =>
        simp only [hts] at h
        cases h
        rw [tokensOfAll, List.map_append, List.append_assoc, readFrom_tokens ht, resume,
          readFrom_tokensOfAll hts]
        simp

end

/-- The integer numerals among the tokens have no more digits than the reader takes. -/
def ShortNumerals (ts : List Token) : Prop :=
  ∀ t ∈ ts, t.kind = .word →
    (Numeral.ofSource? t.text.toList).all (·.digits.length ≤ maxDigits) = true

instance : DecidablePred ShortNumerals := fun ts => by unfold ShortNumerals; infer_instance

theorem ofWord_of_isWord {text : String} (hw : isWord text.toList = true)
    (hd : (Numeral.ofSource? text.toList).all (·.digits.length ≤ maxDigits) = true) :
    ∃ t, ofWord text = .ok t := by
  have hsym : symbolOf text = .ok (.symbol ⟨text, hw⟩) := by simp [symbolOf, Symbol.ofName?, hw]
  unfold ofWord
  split_ifs
  · exact ⟨_, rfl⟩
  · exact ⟨_, rfl⟩
  · cases hn : Numeral.ofSource? text.toList with
    | none => exact ⟨_, hsym⟩
    | some n =>
      rw [hn, Option.all_some, decide_eq_true_eq] at hd
      simp only [if_neg (Nat.not_lt.2 hd)]
      split_ifs
      · exact ⟨_, rfl⟩
      · exact ⟨_, hsym⟩

theorem ofWord_of_isScanned {ts : List Token} (hts : ∀ t ∈ ts, t.IsScanned)
    (hs : ShortNumerals ts) {text : String} (h : ⟨.word, text⟩ ∈ ts) :
    ∃ t, ofWord text = .ok t := by
  refine ofWord_of_isWord ?_ (hs _ h rfl)
  rcases hts _ h with h | h | ⟨cs, hw, h⟩
  · cases h
  · cases h
  · cases h
    rwa [String.toList_ofList]

mutual

theorem exists_term (tree : TokenTree)
    (h : ∀ text, (⟨.word, text⟩ : Token) ∈ tree.tokens → ∃ t, ofWord text = .ok t) :
    ∃ t, tree.term = .ok t := by
  cases tree with
  | word text => exact h text (by simp [tokens])
  | list items =>
    obtain ⟨ts, hts⟩ := exists_termsOfAll items fun text ht =>
      h text (by simp [tokens, ht])
    exact ⟨.list ts, by rw [term, hts]; rfl⟩

theorem exists_termsOfAll (trees : List TokenTree)
    (h : ∀ text, (⟨.word, text⟩ : Token) ∈ tokensOfAll trees → ∃ t, ofWord text = .ok t) :
    ∃ ts, termsOfAll trees = .ok ts := by
  cases trees with
  | nil => exact ⟨[], rfl⟩
  | cons tree trees =>
    obtain ⟨t, ht⟩ := exists_term tree fun text htext =>
      h text (by simp [tokensOfAll, htext])
    obtain ⟨ts, hts⟩ := exists_termsOfAll trees fun text htext =>
      h text (by simp [tokensOfAll, htext])
    exact ⟨t :: ts, by rw [termsOfAll, ht]; simp only [hts]; rfl⟩

end

theorem exists_readFrom_append (ts : List Token) (hts : ∀ t ∈ ts, t.IsScanned)
    (hw : ∀ text, (⟨.word, text⟩ : Token) ∈ ts → ∃ t, ofWord text = .ok t)
    (stack : List (List Term)) (hd : ∀ k, 1 ≤ stack.length + depth (ts.take k))
    (rest : List (Option Token)) :
    ∃ items outer, readFrom stack (ts.map some ++ rest) = readFrom (items :: outer) rest := by
  induction ts generalizing stack with
  | nil =>
    cases stack with
    | nil => exact absurd (hd 0) (by simp)
    | cons items stack => exact ⟨items, stack, rfl⟩
  | cons t ts ih =>
    have hts' : ∀ u ∈ ts, u.IsScanned := fun u hu => hts u (List.mem_cons_of_mem _ hu)
    have hw' : ∀ text, (⟨.word, text⟩ : Token) ∈ ts → ∃ t, ofWord text = .ok t := fun text h =>
      hw text (List.mem_cons_of_mem _ h)
    cases stack with
    | nil => exact absurd (hd 0) (by simp)
    | cons items stack =>
      rw [List.map_cons, List.cons_append]
      rcases hts t List.mem_cons_self with rfl | rfl | ⟨cs, -, rfl⟩
      · rw [readFrom_opening]
        refine ih hts' hw' _ fun k => ?_
        have := hd (k + 1)
        rw [List.take_succ_cons, depth_opening] at this
        simp only [List.length_cons] at this ⊢
        omega
      · rw [readFrom_closing]
        -- the depths say that the list that is closed is not the outermost one
        cases stack with
        | nil => exact absurd (hd 1) (by simp)
        | cons outer stack =>
          refine ih hts' hw' _ fun k => ?_
          have := hd (k + 1)
          rw [List.take_succ_cons, depth_closing] at this
          simp only [List.length_cons] at this ⊢
          omega
      · obtain ⟨t, ht⟩ := hw (String.ofList cs) List.mem_cons_self
        rw [Token.word, readFrom_word ht]
        refine ih hts' hw' _ fun k => ?_
        have := hd (k + 1)
        rw [List.take_succ_cons, Token.word, depth_word] at this
        simpa using this

theorem exists_readFrom_opening {us : List Token} (hts : ∀ t ∈ opening :: us, t.IsScanned)
    (hw : ∀ text, (⟨.word, text⟩ : Token) ∈ opening :: us → ∃ t, ofWord text = .ok t)
    (hd : ∀ k, 0 ≤ depth (us.take k)) (rest : List (Option Token)) :
    ∃ items outer, readFrom [] ((opening :: us).map some ++ rest) =
      readFrom (items :: outer) rest := by
  rw [List.map_cons, List.cons_append, readFrom_opening]
  refine exists_readFrom_append us (fun t ht => hts t (List.mem_cons_of_mem _ ht))
    (fun text ht => hw text (List.mem_cons_of_mem _ ht)) _ (fun k => ?_) rest
  have := hd k
  simp only [List.length_cons, List.length_nil]
  omega

/-! ## Programs -/

theorem parse_of_error {source : String} {f : Fault} (rest : List (Option Token))
    (h : readFrom [] ((scan source).map some) = (.error f, rest)) : parse source = .error f := by
  simp only [parse, TokenStream.readTerm, TokenStream.ofSource, TokenStream.toList_ofList, h]

theorem parse_of_ok {source : String} {t : Term} (rest : List Token)
    (h : readFrom [] ((scan source).map some) = (.ok t, rest.map some)) :
    parse source = if rest = [] then .ok t else .error (.error .trailingTokens) := by
  simp only [parse, TokenStream.readTerm, TokenStream.ofSource, TokenStream.toList_ofList, h]
  cases rest <;> rfl

theorem parse_of_tokens {source : String} {tree : TokenTree} {t : Term}
    (h : scan source = tree.tokens) (ht : tree.term = .ok t) : parse source = .ok t := by
  have hread := readFrom_tokens ht [] []
  rw [List.append_nil, ← h] at hread
  exact parse_of_ok [] hread

theorem parse_of_tokens_append {source : String} {tree : TokenTree} {t : Term} {rest : List Token}
    (h : scan source = tree.tokens ++ rest) (ht : tree.term = .ok t) (hrest : rest ≠ []) :
    parse source = .error (.error .trailingTokens) := by
  have hread := readFrom_tokens ht [] (rest.map some)
  rw [← List.map_append, ← h] at hread
  rw [parse_of_ok rest hread, if_neg hrest]

/-- A program is read, or its tokens start in one of the ways in which no term can. -/
theorem parse_cases {source : String} (hs : ShortNumerals (scan source)) :
    (scan source = [] ∧ parse source = .error (.error .noToken)) ∨
    (∃ us, scan source = closing :: us ∧ parse source = .error (.error .unexpectedClose)) ∨
    (∃ us, scan source = opening :: us ∧ (∀ k, 0 ≤ depth (us.take k)) ∧
      parse source = .error (.error .missingClose)) ∨
    (∃ (tree : TokenTree) (t : Term), scan source = tree.tokens ∧ tree.term = .ok t ∧
      parse source = .ok t) ∨
    ∃ (tree : TokenTree) (rest : List Token), rest ≠ [] ∧ scan source = tree.tokens ++ rest ∧
      parse source = .error (.error .trailingTokens) := by
  have hts : ∀ t ∈ scan source, t.IsScanned := fun t => isScanned_of_mem_scan
  have hw : ∀ text, (⟨.word, text⟩ : Token) ∈ scan source → ∃ t, ofWord text = .ok t :=
    fun text => ofWord_of_isScanned hts hs
  rcases first_cases (scan source) hts with h | ⟨us, h⟩ | ⟨us, h, hd⟩ | ⟨tree, rest, h⟩
  · exact .inl ⟨h, parse_of_error [] (by rw [h]; rfl)⟩
  · exact .inr (.inl ⟨us, h, parse_of_error (us.map some) (by rw [h]; rfl)⟩)
  · refine .inr (.inr (.inl ⟨us, h, hd, parse_of_error [] ?_⟩))
    rw [h] at hts hw ⊢
    obtain ⟨items, outer, hread⟩ := exists_readFrom_opening hts hw hd []
    rw [List.append_nil] at hread
    rw [hread]
    rfl
  · obtain ⟨t, ht⟩ := exists_term tree fun text htext =>
      hw text (by rw [h]; exact List.mem_append_left _ htext)
    by_cases hrest : rest = []
    · subst hrest
      rw [List.append_nil] at h
      exact .inr (.inr (.inr (.inl ⟨tree, t, h, ht, parse_of_tokens h ht⟩)))
    · exact .inr (.inr (.inr (.inr ⟨tree, rest, hrest, h, parse_of_tokens_append h ht hrest⟩)))

theorem parse_eq_noToken_iff {source : String} (hs : ShortNumerals (scan source)) :
    parse source = .error (.error .noToken) ↔ (scan source).length = 0 := by
  rcases parse_cases hs with ⟨h, hp⟩ | ⟨us, h, hp⟩ | ⟨us, h, -, hp⟩ | ⟨tree, t, h, -, hp⟩ |
    ⟨tree, rest, -, h, hp⟩
  · simp [h, hp]
  · simp [h, hp]
  · simp [h, hp]
  · cases tree <;> simp [h, hp, tokens]
  · cases tree <;> simp [h, hp, tokens]

theorem parse_eq_unexpectedClose_iff {source : String} (hs : ShortNumerals (scan source)) :
    parse source = .error (.error .unexpectedClose) ↔ (scan source).head? = some closing := by
  rcases parse_cases hs with ⟨h, hp⟩ | ⟨us, h, hp⟩ | ⟨us, h, -, hp⟩ | ⟨tree, t, h, -, hp⟩ |
    ⟨tree, rest, -, h, hp⟩
  · simp [h, hp]
  · simp [h, hp]
  · simp [h, hp, opening, closing]
  · cases tree <;> simp [h, hp, tokens, opening, closing]
  · cases tree <;> simp [h, hp, tokens, opening, closing]

theorem parse_eq_missingClose_iff {source : String} (hs : ShortNumerals (scan source)) :
    parse source = .error (.error .missingClose) ↔ Unclosed (scan source) := by
  rcases parse_cases hs with ⟨h, hp⟩ | ⟨us, h, hp⟩ | ⟨us, h, hd, hp⟩ | ⟨tree, t, h, -, hp⟩ |
    ⟨tree, rest, -, h, hp⟩
  · simp [h, hp, Unclosed]
  · simp [h, hp, Unclosed, opening, closing]
  · rw [h]
    exact iff_of_true hp (unclosed_opening hd)
  · have := not_unclosed_tokens tree []
    rw [List.append_nil] at this
    simp [h, hp, this]
  · simp [h, hp, not_unclosed_tokens]

theorem parse_eq_ok_iff {source : String} (hs : ShortNumerals (scan source)) {t : Term} :
    parse source = .ok t ↔ ∃ tree : TokenTree, tree.tokens = scan source ∧ tree.term = .ok t := by
  constructor
  · intro hok
    rcases parse_cases hs with ⟨-, hp⟩ | ⟨us, -, hp⟩ | ⟨us, -, -, hp⟩ | ⟨tree, t', h, ht, hp⟩ |
      ⟨tree, rest, -, -, hp⟩
    · rw [hok] at hp; cases hp
    · rw [hok] at hp; cases hp
    · rw [hok] at hp; cases hp
    · rw [hok] at hp
      cases hp
      exact ⟨tree, h.symm, ht⟩
    · rw [hok] at hp; cases hp
  · rintro ⟨tree, h, ht⟩
    exact parse_of_tokens h.symm ht

theorem parse_of_firstEnds {source : String} (hs : ShortNumerals (scan source))
    (hne : (scan source).length ≠ 0) (hc : (scan source).head? ≠ some closing)
    (hu : ¬ Unclosed (scan source)) :
    ∃ m, FirstEnds (scan source) m ∧
      (parse source = .error (.error .trailingTokens) ↔ m < (scan source).length) ∧
      ((∃ t, parse source = .ok t) ↔ m = (scan source).length) := by
  rcases parse_cases hs with ⟨h, -⟩ | ⟨us, h, -⟩ | ⟨us, h, hd, -⟩ | ⟨tree, t, h, ht, hp⟩ |
    ⟨tree, rest, hrest, h, hp⟩
  · simp [h] at hne
  · simp [h] at hc
  · exact absurd (h ▸ unclosed_opening hd) hu
  · have hends := firstEnds_tokens tree []
    rw [List.append_nil] at hends
    refine ⟨tree.tokens.length, h ▸ hends, ?_, ?_⟩ <;> simp [h, hp]
  · have hpos : 0 < rest.length := List.length_pos_iff.2 hrest
    refine ⟨tree.tokens.length, h ▸ firstEnds_tokens tree rest, ?_, ?_⟩
    · simp [h, hp, hpos]
    · simp [h, hp, hrest]

/-- Reading a program fails with the given report. -/
def ParseReports (source report : String) : Prop :=
  ∃ e : Error, parse source = .error (.error e) ∧ e.kind = .reading ∧ e.message = report

/-- The errors of the reader. -/
def readingErrors : List Error := [.noToken, .unexpectedClose, .missingClose, .trailingTokens]

theorem mem_readingErrors {e : Error} (h : e.kind = .reading) : e ∈ readingErrors := by
  cases e <;> simp_all [Error.kind, readingErrors]

theorem nodup_readingErrors_message : (readingErrors.map Error.message).Nodup := by
  decide

theorem parseReports_message_iff {source : String} {e : Error} (he : e.kind = .reading) :
    ParseReports source e.message ↔ parse source = .error (.error e) := by
  constructor
  · rintro ⟨e', hp, hk, hm⟩
    have heq : e' = e := List.inj_on_of_nodup_map nodup_readingErrors_message
      (mem_readingErrors hk) (mem_readingErrors he) hm
    rw [hp, heq]
  · exact fun hp => ⟨e, hp, he, rfl⟩

/-- **A text is a program exactly if its tokens are those of one tree**, and then it is the term of
that tree. Otherwise the depths of its tokens tell which report it gets. -/
theorem parse_spec (source : String) (hs : ShortNumerals (scan source)) :
    let ts := scan source
    (ParseReports source "required at least one token" ↔ ts.length = 0) ∧
    (ParseReports source "unexpected right paren" ↔ ts.head? = some closing) ∧
    (ParseReports source "missing right paren" ↔ Unclosed ts) ∧
    (ts.length ≠ 0 → ts.head? ≠ some closing → ¬ Unclosed ts →
      ∃ m, FirstEnds ts m ∧
        (ParseReports source "invalid expression" ↔ m < ts.length) ∧
        ((∃ t, parse source = .ok t) ↔ m = ts.length)) ∧
    ∀ t, parse source = .ok t ↔
      ∃ tree : TokenTree, tree.tokens = ts ∧ tree.term = .ok t ∧
        ∀ other : TokenTree, other.tokens = ts → other = tree := by
  intro ts
  refine ⟨?_, ?_, ?_, ?_, ?_⟩
  · exact (parseReports_message_iff (e := .noToken) rfl).trans (parse_eq_noToken_iff hs)
  · exact (parseReports_message_iff (e := .unexpectedClose) rfl).trans
      (parse_eq_unexpectedClose_iff hs)
  · exact (parseReports_message_iff (e := .missingClose) rfl).trans (parse_eq_missingClose_iff hs)
  · intro hne hc hu
    obtain ⟨m, hm, htrail, hok⟩ := parse_of_firstEnds hs hne hc hu
    exact ⟨m, hm, (parseReports_message_iff (e := .trailingTokens) rfl).trans htrail, hok⟩
  · intro t
    rw [parse_eq_ok_iff hs]
    constructor
    · rintro ⟨tree, h, ht⟩
      exact ⟨tree, h, ht, fun other ho => tokens_injective (ho.trans h.symm)⟩
    · rintro ⟨tree, h, ht, -⟩
      exact ⟨tree, h, ht⟩

/-- Nested lists, a signed numeral and a boolean. -/
theorem parse_spec_nested :
    ShortNumerals (scan "(f (+07 ()) true)") ∧
      ∃ t, parse "(f (+07 ()) true)" = .ok t ∧ t.render = "(f (7 ()) true)" := by
  have hs : ShortNumerals (scan "(f (+07 ()) true)") := by decide +kernel
  let tree : TokenTree := .list [.word "f", .list [.word "+07", .list []], .word "true"]
  have htokens : tree.tokens = scan "(f (+07 ()) true)" := by decide +kernel
  obtain ⟨t, ht, hr⟩ : ∃ t, tree.term = .ok t ∧ t.render = "(f (7 ()) true)" := by
    refine ⟨_, rfl, ?_⟩
    decide +kernel
  refine ⟨hs, t, ((parse_spec _ hs).2.2.2.2 t).2 ⟨tree, htokens, ht, fun other ho => ?_⟩, hr⟩
  exact tokens_injective (ho.trans htokens.symm)

end Term

end ScopedLisp
