import Treewalk.Session.Evaluation

/-!
# Running sources in a session

The ways in which source text enters a session: as a unit, as an expression, and as a line typed at
a prompt.
-/

namespace Treewalk

namespace Run

def unit (fuel : Nat) (source : String) : Run Unit := do
  let body ← prepare (Prepared.program source)
  executeUnit fuel body

def expression (fuel : Nat) (source : String) : Run Value := do
  let e ← prepare (Prepared.loneExpression source)
  evaluate fuel e

/-- Runs a typed line; an expression at its end gives a value to show. -/
def line (fuel : Nat) (source : String) : Run (Option Value) := do
  match ← prepare (Prepared.line source) with
  | .statements body =>
    executeUnit fuel body
    return none
  | .expression e => return some (← evaluate fuel e)

/-- Reads a source with new node identities and without analysing its scopes, so that every name
in it is global. -/
def readUnscoped (read : List Token → NodeId → Except Error α × NodeId) (source : String) :
    Run α := do
  let tokens ← ofExcept (Lexer.scan (Text.Utf8.encode source))
  let (result, nextId) := read tokens (← get).nextId
  modify fun s => { s with nextId := nextId }
  ofExcept result

end Run

/-- The exported names of a loaded module, in order. -/
def Session.exports? (s : Session) (path : String) : Option (List String) :=
  (s.modules.get? path).map (·.exports.sortedNames)

end Treewalk
