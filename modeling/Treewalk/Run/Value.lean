import Treewalk.Text.Quoted
import Treewalk.Tree.Basic

/-!
# Run — Values and operations

A value is an integer of 64 bits or a text.  Operators and conditions work on integers alone, and
there a text counts as zero.  Sums, differences and products wrap around; a quotient is cut off
toward zero and a remainder has the sign of the dividend.  A zero divisor is the one thing that can
go wrong.
-/

namespace Treewalk

/-- What a node evaluates to. -/
inductive Value where
  | int (n : Int64)
  | text (s : String)
  deriving DecidableEq, Repr

namespace Value

/-- The value of a statement that has none of its own, and of a name that was never assigned. -/
def unit : Value := .int 0

/-- The integer that operators and conditions see. -/
def toInt : Value → Int64
  | int n => n
  | text _ => 0

/-- The value counts as true. -/
def holds (v : Value) : Bool := v.toInt != 0

/-- The value as it is printed. -/
def display : Value → String
  | int n => Numeral.ofWord n
  | text s => s

/-- The value as listings show it. -/
def label : Value → String
  | int n => "Int(" ++ Numeral.ofWord n ++ ")"
  | text s => "Str(" ++ Text.quote s ++ ")"

end Value

/-- What ends a run before its time. -/
inductive Fault where
  | divisionByZero
  | moduloByZero
  deriving DecidableEq, Repr

namespace Fault

/-- The fault in words. -/
def message : Fault → String
  | divisionByZero => "division by zero"
  | moduloByZero => "modulo by zero"

/-- The operator at fault. -/
def operator : Fault → Operator
  | divisionByZero => .div
  | moduloByZero => .mod

end Fault

/-- One for true and zero for false. -/
def Value.ofBool (b : Bool) : Int64 := if b then 1 else 0

/-- The operator applied to its operands. -/
def Operator.apply : Operator → Int64 → Int64 → Except Fault Int64
  | add, a, b => .ok (a + b)
  | sub, a, b => .ok (a - b)
  | mul, a, b => .ok (a * b)
  | div, a, b => if b = 0 then .error .divisionByZero else .ok (a / b)
  | mod, a, b => if b = 0 then .error .moduloByZero else .ok (a % b)
  | greater, a, b => .ok (Value.ofBool (b < a))
  | less, a, b => .ok (Value.ofBool (a < b))
  | equal, a, b => .ok (Value.ofBool (a = b))

end Treewalk
