import Treewalk.Table
import Treewalk.Tree

/-!
# Values

What a program computes with. Arrays, functions, classes and instances carry an identity, and are
equal only to themselves; the elements of arrays and the fields of classes and instances are kept
elsewhere, under the identity.
-/

namespace Treewalk

abbrev FrameId := Nat

/-- Names a class or instance, whose fields are kept under it. -/
abbrev ObjectId := Nat

/-- Names an array, whose elements are kept under it. -/
abbrev ArrayId := Nat

/-- Tells functions apart. -/
abbrev Identity := Nat

inductive Native where
  | clock
  | error
  | len
deriving DecidableEq, Repr

/-- A function or method together with the frame that it was declared in. -/
structure Closure where
  routine : Routine
  frame : FrameId
  /-- Whether a call gives the receiver, whatever the body returns. -/
  initializer : Bool
  /-- The global frame of the module that it belongs to; none for the main program. -/
  home : Option FrameId

/-- A class, with the methods of its instances and its own. -/
structure Class where
  id : ObjectId
  name : String
  methods : Table Closure
  classMethods : Table Closure

inductive Value where
  | nil
  /-- What a variable without initial value holds. It behaves as `nil`. -/
  | unset
  | bool (value : Bool)
  | number (value : Float)
  | text (contents : String)
  | array (id : ArrayId)
  | function (id : Identity) (closure : Closure)
  | native (f : Native)
  | classObject (c : Class)
  | object (id : ObjectId) (c : Class)

instance : Inhabited Value :=
  ⟨.nil⟩

/-- The number of arguments that making an instance takes. -/
def Class.arity (c : Class) : Nat :=
  match c.methods.get? "init" with
  | some closure => closure.routine.arity
  | none => 0

namespace Native

def all : List Native :=
  [clock, error, len]

def name : Native → String
  | clock => "clock"
  | error => "error"
  | len => "len"

def arity : Native → Nat
  | clock => 0
  | error => 1
  | len => 1

end Native

namespace Value

/-- Everything but `nil` and `false` counts as true. -/
def isTruthy : Value → Bool
  | nil | unset => false
  | bool value => value
  | _ => true

def isNil : Value → Bool
  | nil | unset => true
  | _ => false

/-- Equality as programs see it. -/
def isEqual : Value → Value → Bool
  | bool a, bool b => a == b
  | number a, number b => a == b
  | text a, text b => a == b
  | array a, array b => a == b
  | function a _, function b _ => a == b
  | native a, native b => a == b
  | classObject a, classObject b => a.id == b.id
  | object a _, object b _ => a == b
  | a, b => a.isNil && b.isNil

/-- The text of a value, where those of arrays are known, so far as they have one. -/
def textWith (written : ArrayId → Option String) : Value → Option String
  | nil | unset => some "nil"
  | bool true => some "true"
  | bool false => some "false"
  | number value => some (Number.Style.shown.write value)
  | text contents => some contents
  | array id => written id
  | function _ closure => some ("<fn " ++ closure.routine.name.lexeme ++ ">")
  | native _ => some "<native fn>"
  | classObject c => some c.name
  | object _ c => some (c.name ++ " instance")

/-- The number of arguments that a value takes, if it can be called. -/
def arity? : Value → Option Nat
  | function _ closure => some closure.routine.arity
  | native f => some f.arity
  | classObject c => some c.arity
  | _ => none

end Value

end Treewalk
