import Treewalk.Arrays

/-!
# Native functions

The three functions that every session starts with. A failure is a message in the function's own
words, placed where the function is called.
-/

namespace Treewalk.Native

def fail (site : Site) (message : String) : Except Halt Value :=
  .error (.error (.runtime site (.raised message)))

/-- The number of elements of an array, or of characters in the text of any other value but a
number. -/
def length (as : Arrays) (site : Site) (value : Value) : Except Halt Value :=
  match value with
  | .number _ => fail site "Argument to 'len' must be a string or an array."
  | .array id => .ok (.number (Number.ofCount (as.elements id).length))
  | other => return .number (Number.ofCount (← as.text other).length)

/-- The result of a native function that is called at the time `now`. -/
def call (as : Arrays) (now : Float) (site : Site) : Native → List Value → Except Halt Value
  | clock, _ => .ok (.number now)
  | error, message :: _ => do fail site (← as.text message)
  | error, [] => fail site "Error thrown with no message."
  | len, value :: _ => length as site value
  | len, [] => fail site "Expected 1 arguments but got 0."

end Treewalk.Native
