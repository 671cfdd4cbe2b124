import ScopedLisp.Text.Digit

/-!
# Integer numerals

A numeral is an optional sign and decimal digits. Source texts use the ASCII digits and nothing
else; settings take the digits of every script, with single underscores between them.

* `Numeral`: a sign and digits; `Numeral.value`;
* `Numeral.ofSource?`: the numerals of source texts;
* `Numeral.ofSetting?`: the numerals of settings.
-/

namespace ScopedLisp

/-- A sign and the values of decimal digits, the first one leading. -/
structure Numeral where
  negative : Bool
  digits : List Nat
deriving DecidableEq, Repr

namespace Numeral

/-- The number that decimal digits stand for. -/
def magnitude (digits : List Nat) : Nat := digits.foldl (fun n d => 10 * n + d) 0

/-- The integer that a numeral stands for. -/
def value (n : Numeral) : Int :=
  if n.negative then -(magnitude n.digits : Int) else magnitude n.digits

/-- Takes the sign off a text. -/
def splitSign : List Char → Bool × List Char
  | '+' :: cs => (false, cs)
  | '-' :: cs => (true, cs)
  | cs => (false, cs)

/-- The value of an ASCII digit. -/
def asciiDigit? (c : Char) : Option Nat :=
  if '0' ≤ c ∧ c ≤ '9' then some (c.toNat - '0'.toNat) else none

/-- The numeral that a text in a source program is. -/
def ofSource? (cs : List Char) : Option Numeral :=
  let (negative, rest) := splitSign cs
  match rest with
  | [] => none
  | _ => (rest.mapM asciiDigit?).map (⟨negative, ·⟩)

/-- The digits of a text with single underscores between digits, where `afterDigit` says whether a
digit precedes the text. -/
def groupedDigits? (afterDigit : Bool) : List Char → Option (List Nat)
  | [] => if afterDigit then some [] else none
  | c :: cs =>
    if c == '_' && afterDigit then groupedDigits? false cs
    else (Text.digit? c).bind fun d => (groupedDigits? true cs).map (d :: ·)

/-- The numeral that the text of a setting is. -/
def ofSetting? (cs : List Char) : Option Numeral :=
  let (negative, rest) := splitSign cs
  (groupedDigits? false rest).map (⟨negative, ·⟩)

end Numeral

end ScopedLisp
