import Treewalk.Error
import Treewalk.Value

/-!
# Frames

A frame binds names to values and may have a parent. Frames are made one after the other, a parent
always before its children, so following parents ends. A name is searched from a frame outwards;
a frame can also be reached by its distance, the number of steps to parents. A frame remembers
what it was made for; no search asks for that.
-/

namespace Treewalk

/-- What opens a scope inside a unit. -/
inductive Opener where
  | block (body : List Stmt)
  /-- A call, for the parameters and the body. -/
  | call (routine : Routine)
  /-- The binding of a method to its receiver, for `this`. -/
  | receiver (method : Routine)

structure Frame where
  bindings : Table Value
  parent : Option FrameId
  /-- What the frame was made for; none for the top level of a unit. -/
  opener : Option Opener

structure Frames where
  store : Array Frame
  /-- A parent was made before its children. -/
  parent_lt : ∀ (i : Nat) (f : Frame) (p : FrameId),
    store[i]? = some f → f.parent = some p → p < i

namespace Frames

def empty : Frames :=
  ⟨#[], by simp⟩

instance : Inhabited Frames :=
  ⟨empty⟩

def size (fs : Frames) : Nat :=
  fs.store.size

def next (fs : Frames) : FrameId :=
  fs.store.size

/-- Adds an empty frame; only a frame that is there can be its parent. -/
def add (fs : Frames) (parent : Option FrameId) (opener : Option Opener) : Frames where
  store := fs.store.push ⟨.empty, parent.filter (· < fs.store.size), opener⟩
  parent_lt := by
    intro i f p hf hp
    rw [Array.getElem?_push] at hf
    split at hf
    · next h =>
      obtain rfl := Option.some.inj hf
      have := (Option.filter_eq_some_iff.1 hp).2
      simpa [h] using this
    · exact fs.parent_lt i f p hf hp

def addRoot (fs : Frames) : Frames :=
  fs.add none none

/-- Adds a child of a frame, for the top level of a unit. -/
def addChild (fs : Frames) (parent : FrameId) : Frames :=
  fs.add (some parent) none

/-- Adds a child of a frame, for a scope. -/
def addScope (fs : Frames) (parent : FrameId) (opener : Opener) : Frames :=
  fs.add (some parent) (some opener)

def define (fs : Frames) (id : FrameId) (name : String) (value : Value) : Frames where
  store := fs.store.modify id fun f => { f with bindings := f.bindings.insert name value }
  parent_lt := by
    intro i f p hf hp
    rw [Array.getElem?_modify] at hf
    split at hf
    · obtain ⟨g, hg, rfl⟩ := Option.map_eq_some_iff.1 hf
      exact fs.parent_lt i g p hg hp
    · exact fs.parent_lt i f p hf hp

def bindings (fs : Frames) (id : FrameId) : Table Value :=
  match fs.store[id]? with
  | some f => f.bindings
  | none => .empty

def parent? (fs : Frames) (id : FrameId) : Option FrameId :=
  fs.store[id]?.bind Frame.parent

/-- What a frame was made for; none for the top level of a unit. -/
def opener? (fs : Frames) (id : FrameId) : Option Opener :=
  fs.store[id]?.bind Frame.opener

def getLocal? (fs : Frames) (id : FrameId) (name : String) : Option Value :=
  (fs.bindings id).get? name

/-- The nearest of the first `reach` frames from `id` outwards that binds `name`. -/
def holderWithin (fs : Frames) (name : String) : (reach : Nat) → FrameId → Option FrameId
  | 0, _ => none
  | reach + 1, id =>
    if (fs.bindings id).contains name then some id
    else
      match fs.parent? id with
      | some parent => holderWithin fs name reach parent
      | none => none

/-- The nearest frame from `id` outwards that binds `name`. There are at most `id` frames around
`id`, because each was made before it. -/
def holder? (fs : Frames) (id : FrameId) (name : String) : Option FrameId :=
  fs.holderWithin name (id + 1) id

/-- What a name is bound to, searching from `id` outwards. -/
def get? (fs : Frames) (id : FrameId) (name : String) : Option Value :=
  match fs.holder? id name with
  | some holder => fs.getLocal? holder name
  | none => none

/-- Rebinds a name where a search from `id` outwards finds it. -/
def assign? (fs : Frames) (id : FrameId) (name : String) (value : Value) : Option Frames :=
  match fs.holder? id name with
  | some holder => some (fs.define holder name value)
  | none => none

def undefined (name : Token) : Error :=
  .runtime name.site (.undefinedVariable name.lexeme)

/-- The value of the variable that a token names, searching from `id` outwards. -/
def read (fs : Frames) (id : FrameId) (name : Token) : Except Error Value :=
  match fs.get? id name.lexeme with
  | some value => .ok value
  | none => .error (undefined name)

/-- The frames after an assignment to the variable that a token names. -/
def write (fs : Frames) (id : FrameId) (name : Token) (value : Value) : Except Error Frames :=
  match fs.assign? id name.lexeme value with
  | some changed => .ok changed
  | none => .error (undefined name)

/-- The frame that is `distance` steps outwards. -/
def ancestor? (fs : Frames) : FrameId → (distance : Nat) → Option FrameId
  | id, 0 => some id
  | id, distance + 1 =>
    match fs.parent? id with
    | some parent => ancestor? fs parent distance
    | none => none

def getAt? (fs : Frames) (id : FrameId) (distance : Nat) (name : String) : Option Value :=
  match fs.ancestor? id distance with
  | some frame => fs.getLocal? frame name
  | none => none

def assignAt? (fs : Frames) (id : FrameId) (distance : Nat) (name : String) (value : Value) :
    Option Frames :=
  match fs.ancestor? id distance with
  | some frame => some (fs.define frame name value)
  | none => none

theorem parent?_lt {fs : Frames} {id parent : FrameId} (h : fs.parent? id = some parent) :
    parent < id := by
  obtain ⟨f, hf, hp⟩ := Option.bind_eq_some_iff.1 h
  exact fs.parent_lt id f parent hf hp

@[simp] theorem size_define (fs : Frames) (id : FrameId) (name : String) (value : Value) :
    (fs.define id name value).size = fs.size := by
  simp [size, define]

@[simp] theorem parent?_define (fs : Frames) (id other : FrameId) (name : String)
    (value : Value) : (fs.define id name value).parent? other = fs.parent? other := by
  simp only [parent?, define, Array.getElem?_modify]
  split
  · next h =>
    subst h
    cases fs.store[id]? <;> rfl
  · rfl

theorem bindings_define (fs : Frames) (id other : FrameId) (name : String) (value : Value) :
    (fs.define id name value).bindings other =
      if other = id ∧ id < fs.size then (fs.bindings id).insert name value
      else fs.bindings other := by
  simp only [bindings, define, size, Array.getElem?_modify]
  by_cases h : id = other
  · subst h
    by_cases hs : id < fs.store.size <;> simp [hs]
  · simp [h, Ne.symm h]

@[simp] theorem ancestor?_define (fs : Frames) (id start : FrameId) (name : String)
    (value : Value) (distance : Nat) :
    (fs.define id name value).ancestor? start distance = fs.ancestor? start distance := by
  induction distance generalizing start with
  | zero => rfl
  | succ distance ih => simp only [ancestor?, parent?_define, ih]

end Frames

end Treewalk
