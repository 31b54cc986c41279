import Treewalk.Error
import Treewalk.Tree

/-!
# Scopes

Before a unit runs it is walked once. The walk finds the four mistakes that make a unit refuse to
run, and notes for every node that refers to a variable how many scopes out the variable is bound.
There is one scope for each block, one for the parameters and body of each function, and one for
`this` around the methods of each class. What no scope binds is global and is not noted.
-/

namespace Treewalk.Scope

/-- The names that a scope has seen so far, latest first. A name is marked once its value is
there to be read. -/
abbrev Names := List (String × Bool)

/-- The open scopes, innermost first; at the top level of a unit there are none. -/
abbrev Scopes := List Names

structure Surroundings where
  inFunction : Bool
  inClass : Bool
  inLoop : Bool
deriving DecidableEq, Repr

def Surroundings.topLevel : Surroundings :=
  ⟨false, false, false⟩

/-- A node and the number of scopes between it and the binding that it refers to. -/
abbrev Note := NodeId × Nat

/-- Enters a name into the innermost scope. -/
def enter (name : String) (ready : Bool) : Scopes → Scopes
  | [] => []
  | names :: outer => ((name, ready) :: names) :: outer

/-- The number of scopes to leave for one that knows `name`. -/
def distance? (scopes : Scopes) (name : String) : Option Nat :=
  scopes.findIdx? fun names => (names.lookup name).isSome

/-- The note, if any, for a node that refers to `name`. -/
def noteFor (scopes : Scopes) (id : NodeId) (name : String) : List Note :=
  match distance? scopes name with
  | some distance => [(id, distance)]
  | none => []

/-- Whether `name` stands in the innermost scope but has no value yet. -/
def isPending (scopes : Scopes) (name : String) : Bool :=
  scopes.head?.any fun names => names.lookup name == some false

mutual

def walkExpr (around : Surroundings) (scopes : Scopes) : Expr → Except Error (List Note)
  | .literal _ => return []
  | .group inner => walkExpr around scopes inner
  | .unary _ right => walkExpr around scopes right
  | .binary _ left right => do
    return (← walkExpr around scopes left) ++ (← walkExpr around scopes right)
  | .logical _ left right => do
    return (← walkExpr around scopes left) ++ (← walkExpr around scopes right)
  | .conditional condition yes no => do
    return (← walkExpr around scopes condition) ++ (← walkExpr around scopes yes) ++
      (← walkExpr around scopes no)
  | .var id name =>
    if isPending scopes name.lexeme then throw (.scope name.site .ownInitializer)
    else return noteFor scopes id name.lexeme
  | .assign id name value => do
    return (← walkExpr around scopes value) ++ noteFor scopes id name.lexeme
  | .this id keyword =>
    if around.inClass then return noteFor scopes id keyword.lexeme
    else throw (.scope keyword.site .thisOutsideClass)
  | .call callee _ arguments => do
    return (← walkExpr around scopes callee) ++ (← walkExprs around scopes arguments)
  | .get object _ => walkExpr around scopes object
  | .set object _ value => do
    return (← walkExpr around scopes value) ++ (← walkExpr around scopes object)
  | .array elements => walkExprs around scopes elements
  | .index target _ position => do
    return (← walkExpr around scopes target) ++ (← walkExpr around scopes position)

def walkExprs (around : Surroundings) (scopes : Scopes) : List Expr → Except Error (List Note)
  | [] => return []
  | e :: rest => do
    return (← walkExpr around scopes e) ++ (← walkExprs around scopes rest)

end

def walkOption (around : Surroundings) (scopes : Scopes) (e : Option Expr) :
    Except Error (List Note) :=
  match e with
  | some e => walkExpr around scopes e
  | none => return []

mutual

/-- The scopes behind a statement, and the notes for it. -/
def walkStmt (around : Surroundings) (scopes : Scopes) :
    Stmt → Except Error (Scopes × List Note)
  | .expression e => return (scopes, ← walkExpr around scopes e)
  | .print e => return (scopes, ← walkExpr around scopes e)
  | .var name initial => do
    let declared := enter name.lexeme false scopes
    let notes ← walkOption around declared initial
    return (enter name.lexeme true declared, notes)
  | .block body => do
    return (scopes, (← walkStmts around ([] :: scopes) body).2)
  | .ifElse condition yes no => do
    let notes ← walkExpr around scopes condition
    let (afterYes, notesYes) ← walkStmt around scopes yes
    match no with
    | some no =>
      let (afterNo, notesNo) ← walkStmt around afterYes no
      return (afterNo, notes ++ notesYes ++ notesNo)
    | none => return (afterYes, notes ++ notesYes)
  | .whileLoop condition body => do
    let notes ← walkExpr around scopes condition
    let (after, notesBody) ← walkStmt { around with inLoop := true } scopes body
    return (after, notes ++ notesBody)
  | .breakLoop keyword =>
    if around.inLoop then return (scopes, [])
    else throw (.scope keyword.site .breakOutsideLoop)
  | .function routine => do
    let named := enter routine.name.lexeme true scopes
    return (named, ← walkRoutine around named routine)
  | .classDecl name methods classMethods => do
    let named := enter name.lexeme true scopes
    let inside := { around with inClass := true }
    let receiver := [("this", true)] :: named
    let notes ← walkRoutines inside receiver methods
    return (named, notes ++ (← walkRoutines inside receiver classMethods))
  | .returnValue keyword value =>
    if around.inFunction then return (scopes, ← walkOption around scopes value)
    else throw (.scope keyword.site .returnOutsideFunction)
  | .importModule _ _ => return (scopes, [])
  | .exportDecl _ declaration => walkStmt around scopes declaration

def walkStmts (around : Surroundings) (scopes : Scopes) :
    List Stmt → Except Error (Scopes × List Note)
  | [] => return (scopes, [])
  | s :: rest => do
    let (after, notes) ← walkStmt around scopes s
    let (last, more) ← walkStmts around after rest
    return (last, notes ++ more)

/-- The notes for a function or method: its parameters and its body share a scope, and loops
outside do not reach into it. -/
def walkRoutine (around : Surroundings) (scopes : Scopes) : Routine → Except Error (List Note)
  | ⟨_, params, body⟩ => do
    let names := (params.getD []).map fun p => (p.lexeme, true)
    let inside := { around with inFunction := true, inLoop := false }
    return (← walkStmts inside (names :: scopes) body).2

def walkRoutines (around : Surroundings) (scopes : Scopes) :
    List Routine → Except Error (List Note)
  | [] => return []
  | r :: rest => do
    return (← walkRoutine around scopes r) ++ (← walkRoutines around scopes rest)

end

def program (body : List Stmt) : Except Error (List Note) := do
  return (← walkStmts .topLevel [] body).2

def loneExpression (e : Expr) : Except Error (List Note) :=
  walkExpr .topLevel [] e

end Treewalk.Scope
