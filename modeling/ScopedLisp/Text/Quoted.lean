import ScopedLisp.Text.Printable

/-!
# Quoted text

A quoted text stands between single quotes, or between double quotes if it holds a single quote
and no double one. The quote in use and the backslash are escaped, and a character that is not
printable is written by its code.

* `escape`: the written form of one character;
* `quote`: the written form of a text.
-/

namespace ScopedLisp.Text

/-- The single quote. -/
def singleQuote : Char := '\x27'

/-- The double quote. -/
def doubleQuote : Char := '\x22'

/-- The character that introduces an escape. -/
def backslash : Char := '\x5c'

/-- The last `width` hexadecimal digits of a number, in lower case. -/
def hexDigits : (width : Nat) → Nat → List Char
  | 0, _ => []
  | width + 1, n => hexDigits width (n / 16) ++ [Nat.digitChar (n % 16)]

/-- The code of a character that is not printable: two, four or eight hexadecimal digits, as many
as it needs. -/
def escapeCode (n : Nat) : List Char :=
  if n < 0x100 then 'x' :: hexDigits 2 n
  else if n < 0x10000 then 'u' :: hexDigits 4 n
  else 'U' :: hexDigits 8 n

/-- The written form of a character between the quotes `q`. -/
def escape (q c : Char) : List Char :=
  if c == q || c == backslash then [backslash, c]
  else if c == '\t' then [backslash, 't']
  else if c == '\n' then [backslash, 'n']
  else if c == '\r' then [backslash, 'r']
  else if isPrintable c then [c]
  else backslash :: escapeCode c.toNat

/-- The quote that a text is written with. -/
def quoteFor (cs : List Char) : Char :=
  if cs.contains singleQuote && !cs.contains doubleQuote then doubleQuote else singleQuote

/-- The written form of a text. -/
def quote (s : String) : String :=
  let cs := s.toList
  let q := quoteFor cs
  String.ofList (q :: cs.flatMap (escape q) ++ [q])

end ScopedLisp.Text
