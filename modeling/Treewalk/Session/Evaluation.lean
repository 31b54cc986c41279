import Treewalk.Operator
import Treewalk.Session.Member

/-!
# Evaluation

Expressions give values, statements end in a flow. `return` and `break` travel outwards as flows
until a call or a loop takes them; errors stop the computation.

What the evaluator can be asked to do is a task. How a task is carried out is said here in terms of
a worker that carries out the tasks within it, so that nothing depends on who that worker is. The
worker of a session has an allowance, which every task within a task makes smaller; it stops as
`exhausted` when the allowance is used up.
-/

namespace Treewalk

def Literal.toValue : Literal → Value
  | .number value => .number value
  | .text contents => .text contents
  | .bool value => .bool value
  | .nil => .nil

/-- Where the fields of a value are kept, if it has fields. -/
def Value.objectId? : Value → Option ObjectId
  | .object id _ => some id
  | .classObject c => some c.id
  | _ => none

/-- What the evaluator can be asked to do. -/
inductive Task where
  | evaluate (e : Expr)
  | callValue (callee : Value) (site : Site) (arguments : List Value)
  | construct (c : Class) (site : Site) (arguments : List Value)
  | invoke (closure : Closure) (site : Site) (arguments : List Value)
  | execute (s : Stmt)
  | loop (condition : Expr) (body : Stmt)
  | interpret (body : List Stmt)
  | importModule (site : Site) (path : String)
  /-- The last part of an import, when the module is there. -/
  | splice (path : String)

abbrev Task.Answer : Task → Type
  | .execute _ | .loop _ _ => Flow
  | .interpret _ | .importModule _ _ | .splice _ => Unit
  | _ => Value

abbrev Worker :=
  (t : Task) → Run t.Answer

namespace Worker

abbrev evaluate (w : Worker) (e : Expr) : Run Value :=
  w (.evaluate e)

abbrev callValue (w : Worker) (callee : Value) (site : Site) (arguments : List Value) :
    Run Value :=
  w (.callValue callee site arguments)

abbrev construct (w : Worker) (c : Class) (site : Site) (arguments : List Value) : Run Value :=
  w (.construct c site arguments)

abbrev invoke (w : Worker) (closure : Closure) (site : Site) (arguments : List Value) :
    Run Value :=
  w (.invoke closure site arguments)

abbrev execute (w : Worker) (s : Stmt) : Run Flow :=
  w (.execute s)

abbrev loop (w : Worker) (condition : Expr) (body : Stmt) : Run Flow :=
  w (.loop condition body)

abbrev interpret (w : Worker) (body : List Stmt) : Run Unit :=
  w (.interpret body)

abbrev importModule (w : Worker) (site : Site) (path : String) : Run Unit :=
  w (.importModule site path)

abbrev splice (w : Worker) (path : String) : Run Unit :=
  w (.splice path)

end Worker

namespace Run

def bindParameters (frame : FrameId) : List Token → List Value → Run Unit
  | p :: params, v :: values => do
    define frame p.lexeme v
    bindParameters frame params values
  | _, _ => return ()

/-- The receiver of a method, from the frame that binding made. -/
def receiver (closure : Closure) (site : Site) : Run Value := do
  match (← get).frames.getAt? closure.frame 0 "this" with
  | some value => return value
  | none => fail site .noReceiver

/-- Whether the left operand alone decides a logical operator. -/
def decides (op : Token) (left : Value) : Bool :=
  if op.kind = .kwOr then left.isTruthy else !left.isTruthy

/-- The results of an action on each item, from left to right. -/
def each (action : α → Run β) : List α → Run (List β)
  | [] => return []
  | item :: rest => do
    let result ← action item
    let results ← each action rest
    return result :: results

/-- Statements one after the other, up to the first that does not end normally. -/
def inSequence (action : Stmt → Run Flow) : List Stmt → Run Flow
  | [] => return .normal
  | s :: rest => do
    match ← action s with
    | .normal => inSequence action rest
    | flow => return flow

/-- Statements one after the other, whatever flow each ends in. -/
def every (action : Stmt → Run Flow) : List Stmt → Run Unit
  | [] => return ()
  | s :: rest => do
    let _ ← action s
    every action rest

/-- An expression, whose parts `w` evaluates. -/
def evaluateWith (w : Worker) : Expr → Run Value
  | .literal value => return value.toValue
  | .group inner => w.evaluate inner
  | .unary op right => do
    let right ← w.evaluate right
    ofResult (Operator.unary op right)
  | .binary op left right => do
    let left ← w.evaluate left
    let right ← w.evaluate right
    ofResult (Operator.binary (← get).arrays op left right)
  | .logical op left right => do
    let left ← w.evaluate left
    if decides op left then return left else w.evaluate right
  | .conditional condition yes no => do
    if (← w.evaluate condition).isTruthy then w.evaluate yes else w.evaluate no
  | .var id name => lookUp id name
  | .this id keyword => lookUp id keyword
  | .assign id name value => do
    let value ← w.evaluate value
    assign id name value
    return value
  | .call callee paren arguments => do
    let callee ← w.evaluate callee
    let arguments ← each w.evaluate arguments
    w.callValue callee paren.site arguments
  | .get object name => do
    let object ← w.evaluate object
    let value ← member object name
    match value with
    | .function _ closure =>
      if closure.routine.isGetter then w.invoke closure name.site [] else return value
    | _ => return value
  | .set object name value => do
    let object ← w.evaluate object
    match object.objectId? with
    | some id =>
      let value ← w.evaluate value
      setField id name.lexeme value
      return value
    | none => fail name.site .noFields
  | .array elements => do
    let elements ← each w.evaluate elements
    return .array (← newArray elements)
  | .index target bracket position => do
    let target ← w.evaluate target
    let position ← w.evaluate position
    ofResult (Operator.index (← get).arrays bracket target position)

/-- A call of any value, which checks that it can be called with so many arguments. -/
def callValueWith (w : Worker) (callee : Value) (site : Site) (arguments : List Value) :
    Run Value := do
  match callee.arity? with
  | none => fail site .notCallable
  | some arity =>
    if arguments.length ≠ arity then fail site (.arity arity arguments.length)
    else
      match callee with
      | .function _ closure => w.invoke closure site arguments
      | .native f =>
        let now ← time
        ofResult (f.call (← get).arrays now site arguments)
      | .classObject c => w.construct c site arguments
      | _ => fail site .notCallable

/-- A new instance, on which the initializer, if there is one, has run. -/
def constructWith (w : Worker) (c : Class) (site : Site) (arguments : List Value) :
    Run Value := do
  let made := .object (← newObject) c
  match c.methods.get? "init" with
  | some initializer =>
    let _ ← w.invoke (← bindReceiver initializer made) site arguments
    return made
  | none => return made

/-- A call of a closure: its body runs in a new frame inside the frame that it was declared in,
with the globals of its own unit. -/
def invokeWith (w : Worker) (closure : Closure) (site : Site) (arguments : List Value) :
    Run Value := do
  let frame ← newFrame closure.frame (.call closure.routine)
  bindParameters frame closure.routine.parameters arguments
  let flow ← within (.body frame (closure.home.getD rootFrame))
    (inSequence w.execute closure.routine.body)
  if closure.initializer then receiver closure site
  else
    match flow with
    | .returning value => return value
    | _ => return .nil

/-- A statement, whose parts `w` carries out. -/
def executeWith (w : Worker) : Stmt → Run Flow
  | .expression e => do
    let _ ← w.evaluate e
    return .normal
  | .print e => do
    printLine (← textOf (← w.evaluate e))
    return .normal
  | .var name initial => do
    let value ← match initial with
      | some e => w.evaluate e
      | none => pure .unset
    defineHere name.lexeme value
    return .normal
  | .block body => do
    let frame ← newFrame (← get).context.frame (.block body)
    within (.block frame) (inSequence w.execute body)
  | .ifElse condition yes no => do
    if (← w.evaluate condition).isTruthy then w.execute yes
    else
      match no with
      | some no => w.execute no
      | none => return .normal
  | .whileLoop condition body => w.loop condition body
  | .breakLoop _ => return .breaking
  | .function routine => do
    defineHere routine.name.lexeme (← functionValue (← close routine false))
    return .normal
  | .classDecl name methods classMethods => do
    declareClass name methods classMethods
    return .normal
  | .returnValue _ value => do
    match value with
    | some e => return .returning (← w.evaluate e)
    | none => return .returning .nil
  | .importModule keyword path => do
    match path.kind with
    | .text path => w.importModule keyword.site path
    | _ => fail keyword.site .importPath
    return .normal
  | .exportDecl keyword declaration => do
    let _ ← w.execute declaration
    match declaration.declared? with
    | some name =>
      let s ← get
      let value := (s.frames.getLocal? s.context.frame name.lexeme).getD .nil
      recordExport name.lexeme value
      return .normal
    | none => fail keyword.site .exportTarget

/-- A loop from its condition on. It takes a `break` of its body. -/
def loopWith (w : Worker) (condition : Expr) (body : Stmt) : Run Flow := do
  if (← w.evaluate condition).isTruthy then
    match ← w.execute body with
    | .normal => w.loop condition body
    | .breaking => return .normal
    | .returning value => return .returning value
  else return .normal

/-- Makes the names of a module known in the innermost frame. Only the first import runs the
module; it is registered before it runs, so that a cycle of imports finds it. -/
def importWith (w : Worker) (site : Site) (path : String) : Run Unit := do
  let s ← get
  if s.modules.contains path then w.splice path
  else
    match s.sources path with
    | none => fail site (.moduleMissing path)
    | some source =>
      match Prepared.program source s.nextId with
      | .error e => raise (.inModule path e)
      | .ok prepared =>
        let body ← commit prepared
        let frame ← newModuleFrame
        register path frame
        within (.topLevel frame path) (w.interpret body)
        w.splice path

end Run

/-- Carries out one task, and leaves the tasks within it to `w`. -/
def Worker.step (w : Worker) : Worker
  | .evaluate e => Run.evaluateWith w e
  | .callValue callee site arguments => Run.callValueWith w callee site arguments
  | .construct c site arguments => Run.constructWith w c site arguments
  | .invoke closure site arguments => Run.invokeWith w closure site arguments
  | .execute s => Run.executeWith w s
  | .loop condition body => Run.loopWith w condition body
  | .interpret body => Run.every w.execute body
  | .importModule site path => Run.importWith w site path
  | .splice path => Run.splice path

/-- The worker with an allowance. -/
def worker : (fuel : Nat) → Worker
  | 0, _ => throw .exhausted
  | fuel + 1, t => (worker fuel).step t

namespace Run

def evaluate (fuel : Nat) (e : Expr) : Run Value :=
  worker fuel (.evaluate e)

def callValue (fuel : Nat) (callee : Value) (site : Site) (arguments : List Value) : Run Value :=
  worker fuel (.callValue callee site arguments)

def execute (fuel : Nat) (s : Stmt) : Run Flow :=
  worker fuel (.execute s)

def executeUnit (fuel : Nat) (body : List Stmt) : Run Unit :=
  worker fuel (.interpret body)

end Run

end Treewalk
