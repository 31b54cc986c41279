import Treewalk.Arrays

/-!
# Operators

What operators and indices make of values. A failure points at the operator or at the closing
bracket.
-/

namespace Treewalk.Operator

def fail (t : Token) (fault : RuntimeFault) : Except Halt α :=
  .error (.error (.runtime t.site fault))

def unary (op : Token) (right : Value) : Except Halt Value :=
  match op.kind, right with
  | .bang, right => .ok (.bool !right.isTruthy)
  | .minus, .number x => .ok (.number (-x))
  | .minus, _ => fail op .operand
  | _, _ => fail op .unaryOperator

/-- An operator that works on two numbers. -/
def onNumbers (op : Token) (left right : Value) (f : Float → Float → Value) : Except Halt Value :=
  match left, right with
  | .number x, .number y => .ok (f x y)
  | _, _ => fail op .operands

/-- Two numbers are added; anything else is joined as text. -/
def plus (as : Arrays) (left right : Value) : Except Halt Value :=
  match left, right with
  | .number x, .number y => .ok (.number (x + y))
  | _, _ => return .text ((← as.text left) ++ (← as.text right))

def divide (op : Token) (left right : Value) : Except Halt Value :=
  match left, right with
  | .number x, .number y => if y == 0 then fail op .divisionByZero else .ok (.number (x / y))
  | _, _ => fail op .operands

def binary (as : Arrays) (op : Token) (left right : Value) : Except Halt Value :=
  match op.kind with
  | .comma => .ok right
  | .equalEqual => .ok (.bool (left.isEqual right))
  | .bangEqual => .ok (.bool !left.isEqual right)
  | .plus => plus as left right
  | .minus => onNumbers op left right fun x y => .number (x - y)
  | .star => onNumbers op left right fun x y => .number (x * y)
  | .slash => divide op left right
  | .percent => onNumbers op left right fun x y => .number (Number.remainder x y)
  | .bar => onNumbers op left right fun x y =>
    .number (Number.ofWord (Number.word x ||| Number.word y))
  | .caret => onNumbers op left right fun x y =>
    .number (Number.ofWord (Number.word x ^^^ Number.word y))
  | .greater => onNumbers op left right fun x y => .bool (x > y)
  | .greaterEqual => onNumbers op left right fun x y => .bool (x ≥ y)
  | .less => onNumbers op left right fun x y => .bool (x < y)
  | .lessEqual => onNumbers op left right fun x y => .bool (x ≤ y)
  | _ => fail op .binaryOperator

/-- The place that a number points at: its integer part, unless that is negative. -/
def position? (x : Float) : Option Nat :=
  (Number.saturate (-9223372036854775808) 9223372036854775807 x).toNat?

def index (as : Arrays) (bracket : Token) (target position : Value) : Except Halt Value :=
  match position with
  | .number x =>
    match target with
    | .array id =>
      match (position? x).bind ((as.elements id)[·]?) with
      | some element => .ok element
      | none => fail bracket .arrayBounds
    | .text contents =>
      match (position? x).bind (contents.toList[·]?) with
      | some c => .ok (.text c.toString)
      | none => fail bracket .stringBounds
    | _ => fail bracket .notIndexable
  | _ => fail bracket .indexKind

end Treewalk.Operator
