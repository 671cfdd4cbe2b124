import ScopedLisp.Token

/-!
# Token streams

A stream hands out tokens one by one and can look one token ahead. A missing token marks the end
of the input; a stream made by hand can hold such marks anywhere, and then goes on after them.

* `TokenStream.peek`: the next token, which stays in the stream;
* `TokenStream.advance`: the next token, which leaves the stream;
* `TokenStream.toList`: the tokens still to come.
-/

namespace ScopedLisp

/-- A stream of tokens and end marks, with room for the one that was looked at. -/
structure TokenStream where
  ahead : Option (Option Token)
  rest : List (Option Token)

namespace TokenStream

/-- The stream of the given tokens and end marks. -/
def ofList (items : List (Option Token)) : TokenStream := ⟨none, items⟩

/-- The stream of the tokens of a source text. -/
def ofSource (source : String) : TokenStream := ofList ((Token.scan source).map some)

/-- The tokens and end marks still to come. -/
def toList (s : TokenStream) : List (Option Token) := s.ahead.toList ++ s.rest

/-- Looks at the next token. -/
def peek (s : TokenStream) : Option Token × TokenStream :=
  match s.ahead, s.rest with
  | some item, _ => (item, s)
  | none, [] => (none, s)
  | none, item :: rest => (item, ⟨some item, rest⟩)

/-- Takes the next token. -/
def advance (s : TokenStream) : Option Token × TokenStream :=
  match s.ahead, s.rest with
  | some item, rest => (item, ⟨none, rest⟩)
  | none, [] => (none, s)
  | none, item :: rest => (item, ⟨none, rest⟩)

/-- Whether the next token is missing. -/
def atEnd (s : TokenStream) : Bool × TokenStream :=
  let (item, s) := s.peek
  (item.isNone, s)

@[simp]
theorem toList_ofList (items : List (Option Token)) : (ofList items).toList = items := rfl

theorem peek_fst (s : TokenStream) : s.peek.1 = s.toList.head?.join := by
  unfold peek toList
  split <;> simp_all

@[simp]
theorem toList_peek (s : TokenStream) : s.peek.2.toList = s.toList := by
  unfold peek toList
  split <;> simp_all

theorem advance_fst (s : TokenStream) : s.advance.1 = s.toList.head?.join := by
  unfold advance toList
  split <;> simp_all

@[simp]
theorem toList_advance (s : TokenStream) : s.advance.2.toList = s.toList.tail := by
  unfold advance toList
  split <;> simp_all

@[simp]
theorem toList_atEnd (s : TokenStream) : s.atEnd.2.toList = s.toList := toList_peek s

end TokenStream

end ScopedLisp
