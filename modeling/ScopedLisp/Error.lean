import ScopedLisp.Keyword
import ScopedLisp.Term.Printer

/-!
# Errors

What can go wrong with a program. An `Error` is an error of the language: it is reported to the
user and a session goes on. A `Fault` is any way in which a step of a session can fail to give a
value; besides the errors of the language these are words that the reader cannot take in, and
evaluations nested too deeply.

* `Error`, `Error.kind`, `Error.message`;
* `WordFault`, `WordFault.message`;
* `Fault`.
-/

namespace ScopedLisp

/-- The errors of the language. -/
inductive Error where
  /-- There is no token to read. -/
  | noToken
  /-- A closing parenthesis stands where a term should start. -/
  | unexpectedClose
  /-- A list is not closed. -/
  | missingClose
  /-- A program goes on after its term. -/
  | trailingTokens
  /-- A name to be defined is not a symbol. -/
  | notSymbol (name : Term)
  /-- No scope binds the name. -/
  | unbound (name : Symbol)
  /-- The scope binds the name already. -/
  | duplicate (name : Symbol)
  /-- The empty list has no value. -/
  | emptyList
  /-- The form has a wrong number of parts. -/
  | formShape (keyword : Keyword)
  /-- An operand is not an integer. -/
  | notNumber
  /-- An operand is not a boolean. -/
  | notBoolean
  /-- The head of a call is not a function. -/
  | notFunction
  /-- The name of a binding is not a symbol. -/
  | bindTarget
  /-- The name of a function is not a symbol. -/
  | defineTarget
  /-- The test of a choice is not a boolean. -/
  | chooseTest
  /-- The parameters are not a list. -/
  | paramList
  /-- A parameter is not a symbol. -/
  | paramName
  /-- A builtin function takes another number of operands. -/
  | operandCount (expected : Nat)
  /-- A function takes another number of arguments. -/
  | argumentCount (expected got : Nat)
  /-- The scope of the named function is gone. -/
  | scopeReclaimed (name : Symbol)
  /-- A result does not fit into 64 bits. -/
  | overflow
  /-- The divisor is zero. -/
  | divisionByZero
  /-- The term is none that a program can hold. -/
  | unsupported

/-- The kinds of errors. -/
inductive ErrorKind where
  | reading
  | notSymbol
  | unbound
  | duplicate
  | form
  | type
  | arity
  | scope
  | arithmetic
  | unsupported
deriving DecidableEq, Repr

/-- The kind of an error. -/
def Error.kind : Error → ErrorKind
  | noToken | unexpectedClose | missingClose | trailingTokens => .reading
  | notSymbol _ => .notSymbol
  | unbound _ => .unbound
  | duplicate _ => .duplicate
  | emptyList | formShape _ => .form
  | notNumber | notBoolean | notFunction | bindTarget | defineTarget | chooseTest | paramList
  | paramName => .type
  | operandCount _ | argumentCount _ _ => .arity
  | scopeReclaimed _ => .scope
  | overflow | divisionByZero => .arithmetic
  | unsupported => .unsupported

/-- The report of a form with a wrong number of parts. -/
def Keyword.shapeMessage : Keyword → String
  | block => "sub-expressions are required in DO expression"
  | bind => "expected 2 sub-expressions for the LET expression"
  | choose => "expected 3 sub-expressions for the IF expression"
  | define => "expected 3 sub-expressions for the DEFN expression"
  | lambda => "expected 2 sub-expressions for the FN expression"

/-- The report of an error. -/
def Error.message : Error → String
  | noToken => "required at least one token"
  | unexpectedClose => "unexpected right paren"
  | missingClose => "missing right paren"
  | trailingTokens => "invalid expression"
  | notSymbol name => "Cannot define " ++ name.display ++ " as a symbol"
  | unbound name => "identifier not found: " ++ name.name
  | duplicate name => "identifier already exists: " ++ name.name
  | emptyList => "empty list cannot be evaluated"
  | formShape keyword => keyword.shapeMessage
  | notNumber => "the object is not a number"
  | notBoolean => "the object is not a boolean"
  | notFunction => "expected a function"
  | bindTarget => "the identifier should be a symbol"
  | defineTarget => "function name should be a symbol"
  | chooseTest => "expected a bool value for the IF test expression"
  | paramList => "expected parameter name list"
  | paramName => "parameter name should be a symbol"
  | operandCount expected => "required " ++ toString expected ++ " arguments"
  | argumentCount expected got =>
    "args length error: expected " ++ toString expected ++ ", got " ++ toString got
  | scopeReclaimed _ => "static scope environment not found"
  | overflow => "integer overflow"
  | divisionByZero => "division by zero"
  | unsupported => "unsupported object"

/-- Why a text is not taken in as a word. -/
inductive WordFault where
  /-- It is not a word. -/
  | notWord (text : String)
  /-- It is an integer numeral with too many digits. -/
  | tooManyDigits (count : Nat)

/-- The greatest number of digits of an integer numeral. -/
def maxDigits : Nat := 4300

/-- The report of a text that is not taken in. -/
def WordFault.message : WordFault → String
  | notWord text => "not a valid symbol name: " ++ Text.quote text
  | tooManyDigits count =>
    "Exceeds the limit (" ++ toString maxDigits ++
      " digits) for integer string conversion: value has " ++ toString count ++
      " digits; use sys.set_int_max_str_digits() to increase the limit"

/-- The ways in which a step gives no value. -/
inductive Fault where
  | error (e : Error)
  | word (f : WordFault)
  /-- The evaluations are nested too deeply. -/
  | exhausted

end ScopedLisp
