import ScopedLisp.Term.Basic

/-!
# Keywords

A list that starts with a keyword is a form with rules of its own, whatever the symbol may be
bound to.

* `Keyword`: the five keywords, and the words they are written with;
* `Keyword.ofTerm?`, `Keyword.term`: the keyword that a term is, and the term of a keyword.
-/

namespace ScopedLisp

/-- The heads of forms. -/
inductive Keyword where
  /-- Evaluates its parts in a scope of their own. -/
  | block
  /-- Binds a name to a value. -/
  | bind
  /-- Chooses between two parts. -/
  | choose
  /-- Defines a named function. -/
  | define
  /-- Makes a closure. -/
  | lambda
deriving DecidableEq, Repr

namespace Keyword

/-- All keywords. -/
def all : List Keyword := [block, bind, choose, define, lambda]

/-- The word that a keyword is written with. -/
def word : Keyword → String
  | block => "do"
  | bind => "let"
  | choose => "if"
  | define => "defn"
  | lambda => "fn"

/-- The keyword that a name is. -/
def ofName? (name : String) : Option Keyword := all.find? (·.word == name)

/-- The keyword that a term is. -/
def ofTerm? (t : Term) : Option Keyword := t.symbol?.bind fun s => ofName? s.name

@[simp]
theorem ofName?_word (k : Keyword) : ofName? k.word = some k := by
  cases k <;> decide

theorem isWord_word (k : Keyword) : isWord k.word.toList = true := by
  cases k <;> decide

/-- The term that a keyword is written as. -/
def term (k : Keyword) : Term := .symbol ⟨k.word, k.isWord_word⟩

@[simp]
theorem ofTerm?_term (k : Keyword) : ofTerm? k.term = some k := ofName?_word k

end Keyword

end ScopedLisp
