import Treewalk.Error
import Treewalk.Tree

/-!
# Reading tokens

A cursor stands before the tokens that are still to be read. A reader moves it and gives a result
or an error; after an error the cursor stays where the reader stopped, so that reading can resume
from there.
-/

namespace Treewalk.Parser

structure Cursor where
  /-- The tokens still to be read, without the closing one. -/
  rest : List Token
  /-- The closing token, at which every source ends. -/
  stop : Token
  /-- Whether an expression statement at the very end may do without its semicolon. -/
  lenient : Bool
  /-- Whether such a statement has been read. -/
  bare : Bool
  nextId : NodeId

/-- A cursor before the tokens up to the first closing one. A list that has none is closed on the
line of its last token. -/
def Cursor.ofTokens (tokens : List Token) (lenient : Bool) (nextId : NodeId) : Cursor where
  rest := tokens.takeWhile (·.kind ≠ .endOfInput)
  stop := (tokens.find? (·.kind = .endOfInput)).getD
    (Token.finish ((tokens.getLast?.map Token.line).getD 1))
  lenient := lenient
  bare := false
  nextId := nextId

/-- The token that is read next; at the end it is the closing token. -/
def Cursor.peek (c : Cursor) : Token :=
  c.rest.head?.getD c.stop

/-- The keywords that a statement can be taken to begin with. -/
def startsStatement : Kind → Bool
  | .kwClass | .kwFun | .kwVar | .kwFor | .kwIf | .kwWhile | .kwPrint | .kwReturn | .kwImport
  | .kwExport => true
  | _ => false

/-- Drops at least one token, up to the end of a statement or the start of the next one. -/
def resume : List Token → List Token
  | [] => []
  | t :: rest =>
    if t.kind = .semicolon ∨ rest.head?.any (startsStatement ·.kind) then rest else resume rest

abbrev Reader := ExceptT Error (StateM Cursor)

def peek : Reader Token :=
  return (← get).peek

def atEnd : Reader Bool :=
  return (← get).rest.isEmpty

/-- Moves past one token; at the end it stays. -/
def advance : Reader Unit :=
  modify fun c => { c with rest := c.rest.tail }

def fail (fault : ParseFault) : Reader α := do
  throw (.parse (← peek).site fault)

def check (kind : Kind) : Reader Bool :=
  return (← get).rest.head?.any (·.kind = kind)

/-- Moves past the next token if its kind satisfies `p`, and gives that token. -/
def acceptIf (p : Kind → Bool) : Reader (Option Token) := do
  match (← get).rest with
  | t :: _ => if p t.kind then advance; return some t else return none
  | [] => return none

def accept? (kind : Kind) : Reader (Option Token) :=
  acceptIf (· = kind)

def expect (kind : Kind) (fault : ParseFault) : Reader Token := do
  match ← accept? kind with
  | some t => return t
  | none => fail fault

/-- A node identity that no other node has. -/
def freshId : Reader NodeId :=
  modifyGet fun c => (c.nextId, { c with nextId := c.nextId + 1 })

/-- Skips to where reading can resume if `reader` fails, and fails all the same. -/
def recovering (reader : Reader α) : Reader α :=
  tryCatch reader fun e => do
    modify fun c => { c with rest := resume c.rest }
    throw e

/-- The most parameters, arguments or elements that a list can have. -/
def listLimit : Nat :=
  255

end Treewalk.Parser
