import ScopedLisp.Symbol

/-!
# Tokens

A source text is a sequence of parentheses and words, with blanks between them where two words
meet.

* `Token`: a kind and the text it is written with;
* `Token.scan`: the tokens of a source text.
-/

namespace ScopedLisp

/-- The kinds of tokens. A token made by hand can be of any other kind. -/
inductive TokenKind where
  | opening
  | closing
  | word
  | other (label : String)
deriving DecidableEq, Repr

/-- A token and its text. -/
structure Token where
  kind : TokenKind
  text : String
deriving DecidableEq, Repr

namespace Token

/-- The opening parenthesis. -/
def opening : Token := ⟨.opening, "("⟩

/-- The closing parenthesis. -/
def closing : Token := ⟨.closing, ")"⟩

/-- The word with the given characters. -/
def word (cs : List Char) : Token := ⟨.word, String.ofList cs⟩

/-- The word of which the characters have been read, the last one first, if there are any. -/
def flush : List Char → List Token
  | [] => []
  | cs => [word cs.reverse]

/-- The tokens of the rest of a text, after the characters `pending` of a word, the last one
first. -/
def scanFrom (pending : List Char) : List Char → List Token
  | [] => flush pending
  | c :: cs =>
    if c == '(' then flush pending ++ opening :: scanFrom [] cs
    else if c == ')' then flush pending ++ closing :: scanFrom [] cs
    else if Text.isBlank c then flush pending ++ scanFrom [] cs
    else scanFrom (c :: pending) cs

/-- The tokens of a source text. -/
def scan (source : String) : List Token := scanFrom [] source.toList

end Token

end ScopedLisp
