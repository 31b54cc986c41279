import Std.Data.TreeMap
import Treewalk.Error
import Treewalk.Frames
import Treewalk.Native
import Treewalk.Prepared

/-!
# Sessions

A session outlives the units that run in it. It holds the frames of variables, the fields of
objects, the elements of arrays, the distances that the scope analysis noted, the modules loaded so
far, what has been printed, and the context of the code that is running. A computation in a session
ends with a result or stops; either way the session stays as the computation left it.
-/

namespace Treewalk

/-- What the running code belongs to. -/
structure Context where
  frame : FrameId
  /-- The frame in which names are searched that no scope binds. -/
  globals : FrameId
  /-- The modules whose top levels are running, innermost first: a module may import another
  while it runs. -/
  loading : List String
deriving DecidableEq, Repr

/-- A piece of code that has a part of the context of its own. -/
inductive Region where
  /-- A block has its frame. -/
  | block (frame : FrameId)
  /-- The body of a function has the frame of its call and the globals of its unit. -/
  | body (frame globals : FrameId)
  /-- The top level of a module has its frame, also for the globals, and is being loaded. -/
  | topLevel (frame : FrameId) (path : String)

namespace Region

/-- The context in which the region runs when it is entered from `outer`. -/
def enter (outer : Context) : Region → Context
  | block frame => { outer with frame := frame }
  | body frame globals => { outer with frame := frame, globals := globals }
  | topLevel frame path => ⟨frame, frame, path :: outer.loading⟩

/-- The context behind the region: the parts that it had of its own are those of `outer` again, the
others stay as the region leaves them. -/
def leave (outer inner : Context) : Region → Context
  | block _ => { inner with frame := outer.frame }
  | body _ _ => { inner with frame := outer.frame, globals := outer.globals }
  | topLevel _ _ => outer

@[simp] theorem leave_enter (r : Region) (outer : Context) :
    r.leave outer (r.enter outer) = outer := by
  cases r <;> rfl

@[simp] theorem frame_leave (r : Region) (outer inner : Context) :
    (r.leave outer inner).frame = outer.frame := by
  cases r <;> rfl

theorem globals_leave (r : Region) (outer inner : Context) :
    (r.leave outer inner).globals = outer.globals ∨
      (r.leave outer inner).globals = inner.globals := by
  cases r
  · exact .inr rfl
  · exact .inl rfl
  · exact .inl rfl

end Region

/-- The times that native functions are told, one for each call. -/
abbrev Clock := Nat → Float

namespace Clock

def still (time : Float) : Clock :=
  fun _ => time

/-- The times behind the next one. -/
def tick (c : Clock) : Clock :=
  fun n => c (n + 1)

end Clock

/-- A module that has been loaded, or is being loaded. -/
structure Module where
  frame : FrameId
  exports : Table Value

structure Session where
  frames : Frames
  /-- The fields of classes and instances, by their identity. -/
  fields : Array (Table Value)
  arrays : Arrays
  /-- The next unused identity of a function. -/
  nextIdentity : Identity
  nextId : NodeId
  distances : Std.TreeMap NodeId Nat
  modules : Table Module
  /-- The modules whose top levels have been started, latest first. -/
  started : List String
  sources : String → Option String
  context : Context
  output : String
  /-- Why the output refuses to be written to, if it does. -/
  refusal : Option String
  clock : Clock

/-- The frame of the native functions and of the main program's globals. -/
def rootFrame : FrameId :=
  0

def Context.main : Context :=
  ⟨rootFrame, rootFrame, []⟩

/-- The frames of a new session: the root frame with the native functions. -/
def Frames.initial : Frames :=
  Native.all.foldl (fun fs f => fs.define rootFrame f.name (.native f)) Frames.empty.addRoot

def Session.start (sources : String → Option String) (refusal : Option String) (clock : Clock) :
    Session where
  frames := .initial
  fields := #[]
  arrays := .empty
  nextIdentity := 0
  nextId := 0
  distances := ∅
  modules := .empty
  started := []
  sources := sources
  context := .main
  output := ""
  refusal := refusal
  clock := clock

abbrev Run := ExceptT Halt (StateM Session)

inductive Flow where
  | normal
  | breaking
  | returning (value : Value)

namespace Run

def raise (e : Error) : Run α :=
  throw (.error e)

def fail (site : Site) (fault : RuntimeFault) : Run α :=
  raise (.runtime site fault)

def ofExcept (result : Except Error α) : Run α :=
  match result with
  | .ok a => return a
  | .error e => raise e

def ofResult (result : Except Halt α) : Run α :=
  match result with
  | .ok a => return a
  | .error h => throw h

/-- Runs `action` as the code of a region, and puts back what the region had of its own, whatever
happens. -/
def within (r : Region) (action : Run α) : Run α :=
  ExceptT.mk fun s =>
    let outer := s.context
    let (result, after) := action.run { s with context := r.enter outer }
    (result, { after with context := r.leave outer after.context })

/-- The time of a call that is made now. -/
def time : Run Float :=
  modifyGet fun s => (s.clock 0, { s with clock := s.clock.tick })

def newFrame (parent : FrameId) (opener : Opener) : Run FrameId :=
  modifyGet fun s => (s.frames.next, { s with frames := s.frames.addScope parent opener })

def newModuleFrame : Run FrameId :=
  modifyGet fun s => (s.frames.next, { s with frames := s.frames.addChild rootFrame })

def define (frame : FrameId) (name : String) (value : Value) : Run Unit :=
  modify fun s => { s with frames := s.frames.define frame name value }

def defineHere (name : String) (value : Value) : Run Unit := do
  define (← get).context.frame name value

def newIdentity : Run Identity :=
  modifyGet fun s => (s.nextIdentity, { s with nextIdentity := s.nextIdentity + 1 })

def newObject : Run ObjectId :=
  modifyGet fun s => (s.fields.size, { s with fields := s.fields.push .empty })

def newArray (elements : List Value) : Run ArrayId :=
  modifyGet fun s => (s.arrays.next, { s with arrays := s.arrays.add elements })

/-- The text of a value. -/
def textOf (v : Value) : Run String := do
  ofResult ((← get).arrays.text v)

def field? (id : ObjectId) (name : String) : Run (Option Value) :=
  return (← get).fields[id]?.bind (·.get? name)

def setField (id : ObjectId) (name : String) (value : Value) : Run Unit :=
  modify fun s => { s with fields := s.fields.modify id (·.insert name value) }

def printLine (text : String) : Run Unit := do
  match (← get).refusal with
  | some reason => raise (.output reason)
  | none => modify fun s => { s with output := s.output ++ text ++ "\n" }

def note (id : NodeId) (distance : Nat) : Run Unit :=
  modify fun s => { s with distances := s.distances.insert id distance }

/-- Takes the notes of a prepared tree into the session, and gives the tree. -/
def commit (p : Prepared α) : Run α :=
  modifyGet fun s =>
    (p.tree, { s with
      nextId := p.nextId
      distances := p.notes.foldl (fun known (id, distance) => known.insert id distance)
        s.distances })

/-- Prepares a source with the session's node identities and takes it into the session. A source
that is refused leaves the session as it was. -/
def prepare (ready : NodeId → Except Error (Prepared α)) : Run α := do
  commit (← ofExcept (ready (← get).nextId))

end Run

end Treewalk
