import Treewalk.Session

/-!
# Variables and members

Reading and writing variables by their distance or, without one, in the unit's globals; reading
the members of objects, which binds methods to their receiver.
-/

namespace Treewalk.Run

def lookUp (id : NodeId) (name : Token) : Run Value := do
  let s ← get
  match s.distances[id]? with
  | some distance =>
    match s.frames.getAt? s.context.frame distance name.lexeme with
    | some value => return value
    | none => fail name.site (.unbound name.lexeme distance)
  | none => ofExcept (s.frames.read s.context.globals name)

/-- The frame in which an assignment to a variable binds it. -/
def assignee (id : NodeId) (name : Token) : Run FrameId := do
  let s ← get
  match s.distances[id]? with
  | some distance =>
    match s.frames.ancestor? s.context.frame distance with
    | some frame => return frame
    | none => fail name.site (.unbound name.lexeme distance)
  | none =>
    match s.frames.holder? s.context.globals name.lexeme with
    | some frame => return frame
    | none => raise (Frames.undefined name)

def assign (id : NodeId) (name : Token) (value : Value) : Run Unit := do
  define (← assignee id name) name.lexeme value

/-- The module tag of functions that are made now: the unit's globals, unless they are the main
program's. -/
def currentHome : Run (Option FrameId) := do
  let globals := (← get).context.globals
  return if globals = rootFrame then none else some globals

/-- A function or method of the innermost frame. -/
def close (routine : Routine) (initializer : Bool) : Run Closure := do
  return ⟨routine, (← get).context.frame, initializer, ← currentHome⟩

def functionValue (closure : Closure) : Run Value := do
  return .function (← newIdentity) closure

/-- The closure in a new frame that binds `this`. -/
def bindReceiver (closure : Closure) (receiver : Value) : Run Closure := do
  let frame ← newFrame closure.frame (.receiver closure.routine)
  define frame "this" receiver
  return { closure with frame := frame }

/-- A member of an object: a field, or else a method bound to the object. -/
def memberOf (id : ObjectId) (methods : Table Closure) (receiver : Value) (name : Token) :
    Run Value := do
  match ← field? id name.lexeme with
  | some value => return value
  | none =>
    match methods.get? name.lexeme with
    | some method => functionValue (← bindReceiver method receiver)
    | none => fail name.site (.undefinedProperty name.lexeme)

/-- A member of a value. Instances have the methods of their class; classes have the methods
that are declared for the class itself. -/
def member (object : Value) (name : Token) : Run Value :=
  match object with
  | .object id c => memberOf id c.methods object name
  | .classObject c => memberOf c.id c.classMethods object name
  | _ => fail name.site .noProperties

def closeAll (isInitializer : Routine → Bool) : List Routine → Run (List (String × Closure))
  | [] => return []
  | r :: rest => do
    let closure ← close r (isInitializer r)
    return (r.name.lexeme, closure) :: (← closeAll isInitializer rest)

def declareClass (name : Token) (methods classMethods : List Routine) : Run Unit := do
  defineHere name.lexeme .nil
  let ofClass ← closeAll (fun _ => false) classMethods
  let ofInstances ← closeAll (·.name.lexeme = "init") methods
  let id ← newObject
  defineHere name.lexeme
    (.classObject ⟨id, name.lexeme, .ofList ofInstances, .ofList ofClass⟩)

/-- A value as an import passes it on: a function without module tag becomes a function of the
module. -/
def adopt (frame : FrameId) : Value → Run Value
  | .function id closure =>
    match closure.home with
    | some _ => return .function id closure
    | none => functionValue { closure with home := some frame }
  | value => return value

/-- Binds the given bindings of a module's frame in the innermost frame. -/
def adoptAll (frame : FrameId) : List (String × Value) → Run Unit
  | [] => return ()
  | (name, value) :: rest => do
    defineHere name (← adopt frame value)
    adoptAll frame rest

/-- Binds in the innermost frame what the module's frame binds. -/
def splice (path : String) : Run Unit := do
  let s ← get
  match s.modules.get? path with
  | some m => adoptAll m.frame (s.frames.bindings m.frame).entries
  | none => return ()

/-- Enters a module that is about to run. -/
def register (path : String) (frame : FrameId) : Run Unit :=
  modify fun s =>
    { s with modules := s.modules.insert path ⟨frame, .empty⟩, started := path :: s.started }

/-- Records an export of the module whose top level is running. -/
def recordExport (name : String) (value : Value) : Run Unit :=
  modify fun s =>
    match s.context.loading.head? with
    | some path =>
      match s.modules.get? path with
      | some m =>
        { s with
          modules := s.modules.insert path { m with exports := m.exports.insert name value } }
      | none => s
    | none => s

end Treewalk.Run
