import LoxLang.Fault
import LoxLang.Value.Text

/-!
# Operators on values

What an operator makes of its operands. A fault points at the operand to blame, and at
the operator only for a division by zero.
-/

namespace LoxLang

/-- An operand and where faults about it are reported. -/
abbrev Operand := Placed Value

namespace Operand

/-- The number that an operand has to be (`as_number`). -/
def number (v : Operand) : Except Fault Float :=
  match v.value with
  | .number x => .ok x
  | other => .error ⟨v.place, .notNumber other.text⟩

/-- Both numbers, the left operand checked first. -/
def numbers (left right : Operand) : Except Fault (Float × Float) := do
  let x ← left.number
  let y ← right.number
  return (x, y)

/-- The sum of two numbers, or one string after another (`addition_fault`). The operand to blame is
the right one if the left one could be added to something. -/
def sum (left right : Operand) : Except Fault Value :=
  match left.value, right.value with
  | .number x, .number y => .ok (.number (x + y))
  | .string s, .string t => .ok (.string (s ++ t))
  | .number _, _ | .string _, _ => .error ⟨right.place, .notAddable⟩
  | _, _ => .error ⟨left.place, .notAddable⟩

end Operand

def UnaryOp.apply (op : UnaryOp) (v : Operand) : Except Fault Value :=
  match op with
  | .negate => return .number (-(← v.number))
  | .not => .ok (.bool !v.value.isTrue)

/-- Arithmetic and order; operators that take more than numbers have no case here. -/
def BinaryOp.arithmetic (op : BinaryOp) (x y : Float) (place : Place) : Except Fault Value :=
  match op with
  | .subtract => .ok (.number (x - y))
  | .multiply => .ok (.number (x * y))
  | .divide => if y == 0 then .error ⟨place, .zeroDivision⟩ else .ok (.number (x / y))
  | .less => .ok (.bool (x < y))
  | .lessEqual => .ok (.bool (x ≤ y))
  | .greater => .ok (.bool (x > y))
  | .greaterEqual => .ok (.bool (x ≥ y))
  | _ => .ok (.number (x + y))

/-- Applies an operator to two operands (`Interpreter::evaluate_binary`). `and` and `or` are given
their right operand only when the left one does not decide. -/
def BinaryOp.apply (op : BinaryOp) (left right : Operand) (place : Place) :
    Except Fault Value :=
  match op with
  | .add => Operand.sum left right
  | .equal => .ok (.bool (left.value.equal right.value))
  | .differ => .ok (.bool !(left.value.equal right.value))
  | .and | .or => .ok right.value
  | _ => do
    let (x, y) ← Operand.numbers left right
    op.arithmetic x y place

/-- Does the left operand alone decide the result, being the result itself? -/
def BinaryOp.decidedBy (op : BinaryOp) (left : Value) : Bool :=
  match op with
  | .or => left.isTrue
  | .and => !left.isTrue
  | _ => false

end LoxLang
