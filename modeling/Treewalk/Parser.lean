import Treewalk.Parser.Statement
import Treewalk.Tree.Equality

/-!
# Reading whole sources

The three things that a list of tokens can be read as: a program, an expression, and a line typed
at a prompt. Each gives its result or the first error, and the next unused node identity.
-/

namespace Treewalk

/-- What a typed line turns out to be. -/
inductive Line where
  | statements (body : List Stmt)
  /-- A last expression without semicolon, whose value is to be shown. -/
  | expression (e : Expr)
deriving DecidableEq

namespace Parser

/-- Declarations up to the end. After an error reading goes on, but the first error stands. -/
def readProgram : (fuel : Nat) → Cursor → Except Error (List Stmt) × Cursor
  | 0, c => (.error (.parse c.peek.site .depth), c)
  | fuel + 1, c =>
    if c.rest.isEmpty then (.ok [], c)
    else
      match declaration.run.run c with
      | (.ok first, c) =>
        match readProgram fuel c with
        | (.ok body, c) => (.ok (first :: body), c)
        | (.error e, c) => (.error e, c)
      | (.error e, c) => (.error e, (readProgram fuel c).2)

/-- Declarations up to the end, or up to an expression that ends the line. -/
def readLine : (fuel : Nat) → Reader Line
  | 0 => fail .depth
  | fuel + 1 => do
    if ← atEnd then return .statements []
    else
      let first ← declaration
      match (← get).bare, first with
      | true, .expression e => return .expression e
      | _, _ =>
        match ← readLine fuel with
        | .statements body => return .statements (first :: body)
        | .expression e => return .expression e

def program (tokens : List Token) (nextId : NodeId) : Except Error (List Stmt) × NodeId :=
  let start := Cursor.ofTokens tokens false nextId
  let (result, c) := readProgram (start.rest.length + 1) start
  (result, c.nextId)

/-- The tokens of one expression, and nothing behind it. -/
def loneExpression (tokens : List Token) (nextId : NodeId) : Except Error Expr × NodeId :=
  let start := Cursor.ofTokens tokens false nextId
  let reader : Reader Expr := do
    let e ← expression
    if ← atEnd then return e else fail .trailing
  let (result, c) := reader.run.run start
  (result, c.nextId)

def line (tokens : List Token) (nextId : NodeId) : Except Error Line × NodeId :=
  let start := Cursor.ofTokens tokens true nextId
  let (result, c) := (readLine (start.rest.length + 1)).run.run start
  (result, c.nextId)

end Parser

end Treewalk
