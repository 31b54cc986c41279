import Treewalk.Proofs.Calls
import Treewalk.Proofs.Records

/-!
# Properties

What a property of an object is, is looked up in the session: a field of the object, or else a
method, to be bound to it. Instances have the methods of their class, and classes those that are
declared for the class itself. Writing a property sets one field of one object, and is seen by no
other lookup.
-/

namespace Treewalk

-- ---------------------------------------------------------------------------
-- Lookups
-- ---------------------------------------------------------------------------

/-- What a lookup of a property finds. -/
inductive Member where
  | value (v : Value)
  /-- A method, which is going to be bound. -/
  | method (m : Closure)

/-- The methods that can be read of a value. -/
def Value.methods : Value → Table Closure
  | .object _ c => c.methods
  | .classObject c => c.classMethods
  | _ => .empty

def Session.member? (s : Session) (object : Value) (name : String) : Except RuntimeFault Member :=
  match object.objectId? with
  | none => .error .noProperties
  | some id =>
    match s.field? id name with
    | some v => .ok (.value v)
    | none =>
      match object.methods.get? name with
      | some m => .ok (.method m)
      | none => .error (.undefinedProperty name)

/-- The session in which a method has been read of its receiver. -/
def Session.reading (s : Session) (method : Closure) (receiver : Value) : Session :=
  { s.seat method receiver with nextIdentity := s.nextIdentity + 1 }

/-- What reading a member comes to, by what the lookup finds. -/
def Session.read (s : Session) (object : Value) (site : Site) :
    Except RuntimeFault Member → Except Halt Value × Session
  | .ok (.value v) => (.ok v, s)
  | .ok (.method m) =>
    (.ok (.function s.nextIdentity { m with frame := s.frames.next }), s.reading m object)
  | .error fault => (.error (.error (.runtime site fault)), s)

namespace Run

theorem on_memberOf (id : ObjectId) (methods : Table Closure) (receiver : Value) (name : Token)
    (s : Session) : (memberOf id methods receiver name).on s =
      match s.field? id name.lexeme with
      | some v => (.ok v, s)
      | none => s.read receiver name.site
        (match methods.get? name.lexeme with
        | some m => .ok (.method m)
        | none => .error (.undefinedProperty name.lexeme)) := by
  have hfield : (field? id name.lexeme).on s = (.ok (s.field? id name.lexeme), s) := rfl
  simp only [memberOf, on_bind, hfield]
  cases s.field? id name.lexeme with
  | some v => rfl
  | none => cases methods.get? name.lexeme <;> rfl

theorem on_member (object : Value) (name : Token) (s : Session) :
    (member object name).on s = s.read object name.site (s.member? object name.lexeme) := by
  have hobject (id : ObjectId) (hid : object.objectId? = some id) :
      (memberOf id object.methods object name).on s =
        s.read object name.site (s.member? object name.lexeme) := by
    simp only [on_memberOf, Session.member?, hid]
    cases s.field? id name.lexeme <;> rfl
  cases object with
  | object id c => exact hobject id rfl
  | classObject c => exact hobject c.id rfl
  | _ => rfl

variable {w : Worker} {s s₁ : Session}

/-- A property that is a value is given as it is, unless it is a getter. -/
theorem on_get_value (he : (w (.evaluate e)).on s = (.ok object, s₁))
    (hmember : s₁.member? object name.lexeme = .ok (.value v))
    (hv : ∀ i c, v = .function i c → c.routine.isGetter = false) :
    (w.step (.evaluate (.get e name))).on s = (.ok v, s₁) := by
  show (evaluateWith w (.get e name)).on s = _
  simp only [evaluateWith, on_bind, Worker.evaluate, he, on_member, hmember, Session.read]
  cases v with
  | function i c => simp [hv i c rfl]
  | _ => rfl

/-- A method is bound to the object that it is read of; a getter is called there and then. -/
theorem on_get_method (he : (w (.evaluate e)).on s = (.ok object, s₁))
    (hmember : s₁.member? object name.lexeme = .ok (.method m)) :
    (w.step (.evaluate (.get e name))).on s =
      if m.routine.isGetter then
        (w (.invoke { m with frame := s₁.frames.next } name.site [])).on (s₁.reading m object)
      else
        (.ok (.function s₁.nextIdentity { m with frame := s₁.frames.next }),
          s₁.reading m object) := by
  show (evaluateWith w (.get e name)).on s = _
  simp only [evaluateWith, on_bind, Worker.evaluate, he, on_member, hmember, Session.read]
  split <;> rfl

/-- An assignment to a property writes it last, when the value is there. -/
theorem on_set (ht : (w (.evaluate target)).on s = (.ok object, s₁))
    (hobject : object.objectId? = some o) (hv : (w (.evaluate value)).on s₁ = (.ok v, s₂)) :
    (w.step (.evaluate (.set target name value))).on s =
      (.ok v, { s₂ with fields := s₂.fields.modify o (·.insert name.lexeme v) }) := by
  show (evaluateWith w (.set target name value)).on s = _
  simp only [evaluateWith, on_bind, Worker.evaluate, ht, hobject, hv]
  rfl

end Run

/-- A write of a property is seen by the lookups of that property of that object alone. -/
theorem Session.member?_setField (s : Session) (id : ObjectId) (name : String) (v other : Value)
    (name' : String) (hid : id < s.fields.size) :
    { s with fields := s.fields.modify id (·.insert name v) }.member? other name' =
      if other.objectId? = some id ∧ name' = name then .ok (.value v)
      else s.member? other name' := by
  simp only [member?, field?_modify]
  cases other.objectId? with
  | none => rfl
  | some o => by_cases ho : o = id <;> by_cases hname : name' = name <;> simp [ho, hname, hid]

end Treewalk
