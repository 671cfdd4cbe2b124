import ScopedLisp.Text.Blank

/-!
# Symbols

A symbol is a name that can stand in a source text as one word: it is not empty and holds neither
blanks nor parentheses.

* `isWordChar`, `isWord`: the characters and the texts of words;
* `Symbol`: a name that is a word; two symbols are equal exactly when their names are.
-/

namespace ScopedLisp

/-- A character that can belong to a word. -/
def isWordChar (c : Char) : Bool := !Text.isBlank c && c != '(' && c != ')'

/-- A nonempty sequence of characters of words. -/
def isWord (cs : List Char) : Bool := !cs.isEmpty && cs.all isWordChar

/-- A name that can be written as one word. -/
structure Symbol where
  name : String
  isWord_name : isWord name.toList = true
deriving DecidableEq

namespace Symbol

/-- The symbol of a name, if the name is a word. -/
def ofName? (name : String) : Option Symbol :=
  if h : isWord name.toList = true then some ⟨name, h⟩ else none

theorem ext_name {s t : Symbol} (h : s.name = t.name) : s = t := by
  cases s; cases t; simp_all

@[simp]
theorem ofName?_name (s : Symbol) : ofName? s.name = some s := by
  simp [ofName?, s.isWord_name]

theorem name_of_ofName?_eq_some {name : String} {s : Symbol} (h : ofName? name = some s) :
    s.name = name := by
  unfold ofName? at h
  split at h
  · cases h; rfl
  · cases h

theorem ofName?_eq_none_iff {name : String} :
    ofName? name = none ↔ isWord name.toList = false := by
  unfold ofName?
  split <;> simp_all

end Symbol

end ScopedLisp
