import ScopedLisp.Error

/-!
# Builtin functions

The number of operands is checked first, then their types from left to right, then the result.
Integers are computed exactly, and a result that does not fit into 64 bits is an error.

* `Builtin.call`: the value of a builtin function at its operands.
-/

namespace ScopedLisp

namespace Builtin

/-- The integer that an operand is. -/
def toInt : Term → Except Error Int
  | .int n => .ok n
  | _ => .error .notNumber

/-- The boolean that an operand is. -/
def toBool : Term → Except Error Bool
  | .bool b => .ok b
  | _ => .error .notBoolean

/-- Two operands, converted from left to right. -/
def pairOf {α : Type} (convert : Term → Except Error α) : List Term → Except Error (α × α)
  | [a, b] => do
    let x ← convert a
    let y ← convert b
    pure (x, y)
  | _ => .error (.operandCount 2)

/-- An integer that fits into 64 bits. -/
def checked (n : Int) : Except Error Term :=
  if Term.inRange n then .ok (.int n) else .error .overflow

/-- A function of two integers. -/
def arithmetic (f : Int → Int → Int) (args : List Term) : Except Error Term := do
  let (x, y) ← pairOf toInt args
  checked (f x y)

/-- The quotient of the absolute values, with a minus sign if one of the two is negative. -/
def signedQuotient (x y : Int) : Int :=
  let quotient : Int := x.natAbs / y.natAbs
  if (x < 0) != (y < 0) then -quotient else quotient

/-- The quotient, cut off towards zero. -/
def quotient (args : List Term) : Except Error Term := do
  let (x, y) ← pairOf toInt args
  if y = 0 then .error .divisionByZero else checked (signedQuotient x y)

/-- A relation between two integers. -/
def comparison (r : Int → Int → Bool) (args : List Term) : Except Error Term := do
  let (x, y) ← pairOf toInt args
  pure (.bool (r x y))

/-- A function of two booleans. -/
def connective (f : Bool → Bool → Bool) (args : List Term) : Except Error Term := do
  let (p, q) ← pairOf toBool args
  pure (.bool (f p q))

/-- Equality of two integers or two booleans. -/
def equal (args : List Term) : Except Error Bool :=
  match pairOf toInt args with
  | .ok (x, y) => .ok (x == y)
  | .error _ => (pairOf toBool args).map fun (p, q) => p == q

/-- The negation of one boolean. -/
def negation : List Term → Except Error Term
  | [a] => (toBool a).map fun b => .bool !b
  | _ => .error (.operandCount 1)

/-- The value of a builtin function at its operands. -/
def call : Builtin → List Term → Except Error Term
  | add => arithmetic (· + ·)
  | sub => arithmetic (· - ·)
  | mul => arithmetic (· * ·)
  | div => quotient
  | gt => comparison fun x y => y < x
  | gte => comparison fun x y => y ≤ x
  | lt => comparison fun x y => x < y
  | lte => comparison fun x y => x ≤ y
  | eq => fun args => (equal args).map .bool
  | neq => fun args => (equal args).map fun b => .bool !b
  | and => connective (· && ·)
  | or => connective (· || ·)
  | not => negation

end Builtin

end ScopedLisp
