import ScopedLisp.Error
import ScopedLisp.Numeral
import ScopedLisp.Token.Stream

/-!
# Reading terms

* `Term.ofWord`: the boolean, integer or symbol that a word is;
* `Term.readFrom`: the first term of a sequence of tokens, and the tokens after it;
* `TokenStream.readTerm`: the next term of a stream;
* `Term.parse`: the one term that a program is.
-/

namespace ScopedLisp

namespace Term

/-- The symbol of a text. -/
def symbolOf (text : String) : Except WordFault Term :=
  match Symbol.ofName? text with
  | some s => .ok (.symbol s)
  | none => .error (.notWord text)

/-- The term that a word is: a boolean, an integer of 64 bits, and else a symbol. -/
def ofWord (text : String) : Except WordFault Term :=
  if text == "true" then .ok (.bool true)
  else if text == "false" then .ok (.bool false)
  else match Numeral.ofSource? text.toList with
    | some n =>
      if maxDigits < n.digits.length then .error (.tooManyDigits n.digits.length)
      else if inRange n.value then .ok (.int n.value)
      else symbolOf text
    | none => symbolOf text

/-- Reads on inside the lists of `stack`, the innermost first, each with its terms read so far, the
last one first. Gives the term or the fault, and the tokens that are left: the token at fault is
taken, but an end mark inside a list is not. -/
def readFrom : (stack : List (List Term)) → List (Option Token) →
    Except Fault Term × List (Option Token)
  | [], [] => (.error (.error .noToken), [])
  | [], none :: rest => (.error (.error .noToken), rest)
  | _ :: _, [] => (.error (.error .missingClose), [])
  | _ :: _, none :: rest => (.error (.error .missingClose), none :: rest)
  | stack, some token :: rest =>
    match token.kind with
    | .closing =>
      match stack with
      | [] => (.error (.error .unexpectedClose), rest)
      | [items] => (.ok (.list items.reverse), rest)
      | items :: outer :: stack => readFrom ((.list items.reverse :: outer) :: stack) rest
    | .word =>
      match ofWord token.text with
      | .error f => (.error (.word f), rest)
      | .ok t =>
        match stack with
        | [] => (.ok t, rest)
        | items :: stack => readFrom ((t :: items) :: stack) rest
    | .opening | .other _ => readFrom ([] :: stack) rest

end Term

/-- Takes the tokens of the next term. -/
def TokenStream.readTerm (s : TokenStream) : Except Fault Term × TokenStream :=
  let (result, rest) := Term.readFrom [] s.toList
  (result, ofList rest)

/-- The term that a program is: there is one, and nothing follows it. -/
def Term.parse (source : String) : Except Fault Term :=
  match (TokenStream.ofSource source).readTerm with
  | (.error f, _) => .error f
  | (.ok t, rest) => if rest.atEnd.1 then .ok t else .error (.error .trailingTokens)

end ScopedLisp
