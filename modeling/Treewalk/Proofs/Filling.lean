import Treewalk.Proofs.Histories
import Treewalk.Proofs.Texts

/-!
# Declarations without initial value

A variable that is declared without initial value holds `unset`, and behaves as if it held `nil`.
Filling in says what it behaves as: a tree is filled when every declaration has an initial value,
and a value when `nil` stands for every `unset` in it and the routines of its functions are filled.
Nothing that programs or their users observe of a value tells it from its filled form, and the walk
of the scopes does not tell a tree from its filled form.
-/

namespace Treewalk

/-- `form` takes both to the same. -/
def Alike (form : α → β) (a b : α) : Prop :=
  form a = form b

theorem Alike.some {form : α → β} (h : Alike form a b) :
    Alike (Option.map form) (some a) (some b) :=
  congrArg Option.some h

-- ---------------------------------------------------------------------------
-- Trees
-- ---------------------------------------------------------------------------

mutual

/-- The statement with `nil` for each initial value that is missing. -/
def Stmt.filled : Stmt → Stmt
  | .var name none => .var name (some (.literal .nil))
  | .block body => .block (Stmt.filledAll body)
  | .ifElse condition yes none => .ifElse condition yes.filled none
  | .ifElse condition yes (some no) => .ifElse condition yes.filled (some no.filled)
  | .whileLoop condition body => .whileLoop condition body.filled
  | .function routine => .function routine.filled
  | .classDecl name methods classMethods =>
    .classDecl name (Routine.filledAll methods) (Routine.filledAll classMethods)
  | .exportDecl keyword declaration => .exportDecl keyword declaration.filled
  | s => s

def Stmt.filledAll : List Stmt → List Stmt
  | [] => []
  | s :: rest => s.filled :: Stmt.filledAll rest

def Routine.filled : Routine → Routine
  | ⟨name, params, body⟩ => ⟨name, params, Stmt.filledAll body⟩

def Routine.filledAll : List Routine → List Routine
  | [] => []
  | r :: rest => r.filled :: Routine.filledAll rest

end

@[simp] theorem Routine.name_filled (r : Routine) : r.filled.name = r.name := by
  cases r; rfl

@[simp] theorem Routine.params_filled (r : Routine) : r.filled.params = r.params := by
  cases r; rfl

/-- One level of filling in: statements with one filled form differ in their parts only. -/
inductive Stmt.Fills : Stmt → Stmt → Prop
  | expression : Fills (.expression e) (.expression e)
  | print : Fills (.print e) (.print e)
  | unset : Fills (.var name none) (.var name (some (.literal .nil)))
  | var : Fills (.var name (some e)) (.var name (some e))
  | block : Stmt.filledAll body = full → Fills (.block body) (.block full)
  | ifThen : Stmt.filled yes = full →
    Fills (.ifElse condition yes none) (.ifElse condition full none)
  | ifElse : Stmt.filled yes = full → Stmt.filled no = other →
    Fills (.ifElse condition yes (some no)) (.ifElse condition full (some other))
  | whileLoop : Stmt.filled body = full →
    Fills (.whileLoop condition body) (.whileLoop condition full)
  | breakLoop : Fills (.breakLoop keyword) (.breakLoop keyword)
  | function : Routine.filled routine = full → Fills (.function routine) (.function full)
  | classDecl : Routine.filledAll methods = full → Routine.filledAll classMethods = others →
    Fills (.classDecl name methods classMethods) (.classDecl name full others)
  | returnValue : Fills (.returnValue keyword value) (.returnValue keyword value)
  | importModule : Fills (.importModule keyword path) (.importModule keyword path)
  | exportDecl : Stmt.filled declaration = full →
    Fills (.exportDecl keyword declaration) (.exportDecl keyword full)

theorem Stmt.fills (s : Stmt) : s.Fills s.filled := by
  rcases s with _ | _ | ⟨_, _ | _⟩ | _ | ⟨_, _, _ | _⟩ | _ | _ | _ | _ | _ | _ | _ <;>
    constructor <;> rfl

def Line.filled : Line → Line
  | .statements body => .statements (Stmt.filledAll body)
  | .expression e => .expression e

/-- Filling in neither adds nor removes declarations. -/
theorem Stmt.declared?_filled (s : Stmt) : s.filled.declared? = s.declared? := by
  cases s.fills with
  | function h => exact congrArg some (Routine.name_filled _)
  | _ => rfl

-- ---------------------------------------------------------------------------
-- Scopes
-- ---------------------------------------------------------------------------

namespace Scope

mutual

theorem walkStmt_filled (around : Surroundings) (scopes : Scopes) :
    ∀ s : Stmt, walkStmt around scopes s.filled = walkStmt around scopes s
  | .var _ none => rfl
  | .var _ (some _) => rfl
  | .block body => by simp only [Stmt.filled, walkStmt, walkStmts_filled _ _ body]
  | .ifElse _ yes none => by simp only [Stmt.filled, walkStmt, walkStmt_filled _ _ yes]
  | .ifElse _ yes (some no) => by
    simp only [Stmt.filled, walkStmt, walkStmt_filled _ _ yes, walkStmt_filled _ _ no]
  | .whileLoop _ body => by simp only [Stmt.filled, walkStmt, walkStmt_filled _ _ body]
  | .function routine => by
    simp only [Stmt.filled, walkStmt, Routine.name_filled, walkRoutine_filled _ _ routine]
  | .classDecl _ methods classMethods => by
    simp only [Stmt.filled, walkStmt, walkRoutines_filled _ _ methods,
      walkRoutines_filled _ _ classMethods]
  | .exportDecl _ declaration => by
    simp only [Stmt.filled, walkStmt, walkStmt_filled _ _ declaration]
  | .expression _ | .print _ | .breakLoop _ | .returnValue _ _ | .importModule _ _ => rfl

theorem walkStmts_filled (around : Surroundings) (scopes : Scopes) :
    ∀ body : List Stmt, walkStmts around scopes (Stmt.filledAll body) = walkStmts around scopes body
  | [] => rfl
  | s :: rest => by
    simp only [Stmt.filledAll, walkStmts, walkStmt_filled _ _ s, walkStmts_filled _ _ rest]

theorem walkRoutine_filled (around : Surroundings) (scopes : Scopes) :
    ∀ r : Routine, walkRoutine around scopes r.filled = walkRoutine around scopes r
  | ⟨_, _, body⟩ => by simp only [Routine.filled, walkRoutine, walkStmts_filled _ _ body]

theorem walkRoutines_filled (around : Surroundings) (scopes : Scopes) :
    ∀ routines : List Routine,
      walkRoutines around scopes (Routine.filledAll routines) = walkRoutines around scopes routines
  | [] => rfl
  | r :: rest => by
    simp only [Routine.filledAll, walkRoutines, walkRoutine_filled _ _ r,
      walkRoutines_filled _ _ rest]

end

end Scope

-- ---------------------------------------------------------------------------
-- Values
-- ---------------------------------------------------------------------------

namespace Table

def map (f : α → β) (t : Table α) : Table β :=
  ⟨t.entries.map fun entry => (entry.1, f entry.2)⟩

@[simp] theorem map_empty (f : α → β) : (empty : Table α).map f = empty := rfl

@[simp] theorem get?_map (f : α → β) (t : Table α) (name : String) :
    (t.map f).get? name = (t.get? name).map f := by
  obtain ⟨entries⟩ := t
  induction entries with
  | nil => rfl
  | cons entry rest ih =>
    obtain ⟨key, a⟩ := entry
    simp only [get?, map, List.map_cons, List.lookup_cons] at ih ⊢
    cases name == key with
    | true => rfl
    | false => exact ih

@[simp] theorem contains_map (f : α → β) (t : Table α) (name : String) :
    (t.map f).contains name = t.contains name := by
  simp [contains]

theorem put_map (f : α → β) (name : String) (a : α) (entries : List (String × α)) :
    (put name a entries).map (fun entry => (entry.1, f entry.2)) =
      put name (f a) (entries.map fun entry => (entry.1, f entry.2)) := by
  induction entries with
  | nil => rfl
  | cons entry rest ih =>
    simp only [put, List.map_cons]
    split
    · rfl
    · rw [List.map_cons, ih]

theorem map_insert (f : α → β) (t : Table α) (name : String) (a : α) :
    (t.insert name a).map f = (t.map f).insert name (f a) :=
  congrArg Table.mk (put_map f name a t.entries)

theorem map_ofList (f : α → β) (pairs : List (String × α)) :
    (ofList pairs).map f = ofList (pairs.map fun pair => (pair.1, f pair.2)) := by
  suffices ∀ t : Table α,
      (pairs.foldl (fun t pair => t.insert pair.1 pair.2) t).map f =
        (pairs.map fun pair => (pair.1, f pair.2)).foldl (fun t pair => t.insert pair.1 pair.2)
          (t.map f) from this empty
  induction pairs with
  | nil => exact fun _ => rfl
  | cons pair rest ih =>
    intro t
    rw [List.foldl_cons, ih, map_insert, List.map_cons, List.foldl_cons]

end Table

def Closure.filled (c : Closure) : Closure :=
  { c with routine := c.routine.filled }

def Class.filled (c : Class) : Class :=
  { c with
    methods := c.methods.map Closure.filled
    classMethods := c.classMethods.map Closure.filled }

/-- What a value behaves as. -/
def Value.filled : Value → Value
  | .unset => .nil
  | .function id closure => .function id closure.filled
  | .classObject c => .classObject c.filled
  | .object id c => .object id c.filled
  | v => v

namespace Value

/-- The name of a value's type, as it is reported. -/
def typeName : Value → String
  | nil | unset => "nil"
  | bool _ => "bool"
  | number _ => "number"
  | text _ => "string"
  | array _ => "array"
  | function _ _ => "function"
  | native _ => "native"
  | classObject _ => "class"
  | object _ _ => "instance"

@[simp] theorem typeName_filled (v : Value) : v.filled.typeName = v.typeName := by
  cases v <;> rfl

@[simp] theorem isTruthy_filled (v : Value) : v.filled.isTruthy = v.isTruthy := by
  cases v <;> rfl

@[simp] theorem isEqual_filled (v u : Value) : v.filled.isEqual u.filled = v.isEqual u := by
  cases v <;> cases u <;> rfl

theorem textWith_filled (written : ArrayId → Option String) (v : Value) :
    v.filled.textWith written = v.textWith written := by
  cases v with
  | bool b => cases b <;> rfl
  | function id closure => simp only [filled, textWith, Closure.filled, Routine.name_filled]
  | _ => rfl

@[simp] theorem arity?_filled (v : Value) : v.filled.arity? = v.arity? := by
  cases v with
  | function id closure => simp [filled, arity?, Closure.filled, Routine.arity, Routine.parameters]
  | classObject c =>
    simp only [filled, arity?, Class.arity, Class.filled, Table.get?_map]
    cases c.methods.get? "init" with
    | none => rfl
    | some closure => simp [Closure.filled, Routine.arity, Routine.parameters]
  | _ => rfl

end Value

-- ---------------------------------------------------------------------------
-- Arrays
-- ---------------------------------------------------------------------------

namespace Arrays

/-- What arrays behave as. -/
def filled (as : Arrays) : Arrays :=
  ⟨as.store.map (List.map Value.filled)⟩

@[simp] theorem size_filled (as : Arrays) : as.filled.size = as.size := by
  simp [size, filled]

@[simp] theorem next_filled (as : Arrays) : as.filled.next = as.next :=
  size_filled as

@[simp] theorem elements_filled (as : Arrays) (id : ArrayId) :
    as.filled.elements id = (as.elements id).map Value.filled := by
  simp only [elements, filled, Array.getElem?_map]
  cases as.store[id]? <;> rfl

theorem filled_add (as : Arrays) (elements : List Value) :
    (as.add elements).filled = as.filled.add (elements.map Value.filled) := by
  simp [filled, add]

theorem write_filled (as : Arrays) (depth : Nat) (id : ArrayId) :
    as.filled.write depth id = as.write depth id := by
  refine (write_eq (fun i => i) (fun id => ?_) depth id).symm
  rw [elements_filled, List.forall₂_map_right_iff, List.forall₂_same]
  intro v _ f g h
  rw [Value.textWith_filled, funext h]

@[simp] theorem text?_filled (as : Arrays) (v : Value) : as.filled.text? v.filled = as.text? v := by
  simp only [text?, Value.textWith_filled, size_filled, funext (write_filled as _)]

@[simp] theorem text_filled (as : Arrays) (v : Value) : as.filled.text v.filled = as.text v := by
  simp only [text, text?_filled]

end Arrays

-- ---------------------------------------------------------------------------
-- Operators and native functions
-- ---------------------------------------------------------------------------

namespace Operator

theorem unary_filled (op : Token) (right : Value) :
    unary op right.filled = (unary op right).map Value.filled := by
  by_cases hbang : op.kind = .bang
  · simp only [unary, hbang, Value.isTruthy_filled]
    rfl
  · by_cases hminus : op.kind = .minus
    · cases right <;> simp only [unary, hminus, Value.filled] <;> rfl
    · have other (v : Value) : unary op v = fail op .unaryOperator := by
        unfold unary
        split <;> first | rfl | contradiction
      rw [other, other]
      rfl

theorem onNumbers_filled {f : Float → Float → Value} (op : Token) (left right : Value)
    (hf : ∀ x y, (f x y).filled = f x y) :
    onNumbers op left.filled right.filled f = (onNumbers op left right f).map Value.filled := by
  unfold onNumbers
  cases left with
  | number x =>
    cases right with
    | number y => exact congrArg Except.ok (hf x y).symm
    | _ => rfl
  | _ => rfl

theorem plus_filled (as : Arrays) (left right : Value) :
    plus as.filled left.filled right.filled = (plus as left right).map Value.filled := by
  have joined :
      (do return .text ((← as.filled.text left.filled) ++ (← as.filled.text right.filled))) =
      (do return .text ((← as.text left) ++ (← as.text right)) : Except Halt Value).map
        Value.filled := by
    rw [Arrays.text_filled, Arrays.text_filled]
    cases as.text left <;> cases as.text right <;> rfl
  cases left with
  | number x =>
    cases right with
    | number y => rfl
    | _ => exact joined
  | _ => exact joined

theorem divide_filled (op : Token) (left right : Value) :
    divide op left.filled right.filled = (divide op left right).map Value.filled := by
  unfold divide
  cases left with
  | number x =>
    cases right with
    | number y =>
      dsimp only [Value.filled]
      split <;> rfl
    | _ => rfl
  | _ => rfl

theorem binary_filled (as : Arrays) (op : Token) (left right : Value) :
    binary as.filled op left.filled right.filled =
      (binary as op left right).map Value.filled := by
  unfold binary
  split
  case h_1 => rfl
  case h_2 | h_3 =>
    rw [Value.isEqual_filled]
    rfl
  case h_4 => exact plus_filled as left right
  case h_7 => exact divide_filled op left right
  case h_15 => rfl
  all_goals exact onNumbers_filled op left right fun _ _ => rfl

theorem index_filled (as : Arrays) (bracket : Token) (target position : Value) :
    index as.filled bracket target.filled position.filled =
      (index as bracket target position).map Value.filled := by
  cases position with
  | number x =>
    cases target with
    | array id =>
      simp only [index, Value.filled, Arrays.elements_filled]
      cases position? x with
      | none => rfl
      | some i =>
        simp only [Option.bind_some, List.getElem?_map]
        cases (as.elements id)[i]? <;> rfl
    | text contents =>
      simp only [index, Value.filled]
      cases (position? x).bind (contents.toList[·]?) <;> rfl
    | _ => rfl
  | _ => rfl

end Operator

theorem Native.length_filled (as : Arrays) (site : Site) (v : Value) :
    length as.filled site v.filled = (length as site v).map Value.filled := by
  have counted : (do return .number (Number.ofCount (← as.filled.text v.filled).length)) =
      (do return .number (Number.ofCount (← as.text v).length) : Except Halt Value).map
        Value.filled := by
    rw [Arrays.text_filled]
    cases as.text v <;> rfl
  cases v with
  | array id => simp [length, Value.filled, Except.map]
  | number x => rfl
  | _ => exact counted

theorem Native.call_filled (as : Arrays) (now : Float) (site : Site) (f : Native)
    (arguments : List Value) :
    f.call as.filled now site (arguments.map Value.filled) =
      (f.call as now site arguments).map Value.filled := by
  cases f with
  | clock => rfl
  | error =>
    cases arguments with
    | nil => rfl
    | cons message rest =>
      simp only [List.map_cons, call, Arrays.text_filled]
      cases as.text message <;> rfl
  | len =>
    cases arguments with
    | nil => rfl
    | cons v rest => exact Native.length_filled as site v

-- ---------------------------------------------------------------------------
-- Values with one filled form
-- ---------------------------------------------------------------------------

theorem Routine.filled_eq {r r' : Routine} (h : r.filled = r'.filled) :
    r.name = r'.name ∧ r.params = r'.params ∧ Stmt.filledAll r.body = Stmt.filledAll r'.body := by
  cases r
  cases r'
  exact Routine.mk.inj h

theorem Closure.filled_eq {c c' : Closure} (h : c.filled = c'.filled) :
    c.routine.filled = c'.routine.filled ∧ c.frame = c'.frame ∧ c.initializer = c'.initializer ∧
      c.home = c'.home := by
  cases c
  cases c'
  exact Closure.mk.inj h

theorem Class.filled_eq {c c' : Class} (h : c.filled = c'.filled) :
    c.id = c'.id ∧ c.name = c'.name ∧
      c.methods.map Closure.filled = c'.methods.map Closure.filled ∧
      c.classMethods.map Closure.filled = c'.classMethods.map Closure.filled := by
  cases c
  cases c'
  exact Class.mk.inj h

namespace Value

/-- Neither called nor asked for members. -/
def Inert : Value → Prop
  | function _ _ | native _ | classObject _ | object _ _ => False
  | _ => True

/-- Values with one filled form, by what can be done with them. -/
inductive Twins : Value → Value → Prop
  | inert : v.Inert → v'.Inert → Twins v v'
  | function (h : Closure.filled c = Closure.filled c') : Twins (.function i c) (.function i c')
  | native : Twins (.native f) (.native f)
  | classObject (h : Class.filled c = Class.filled c') : Twins (.classObject c) (.classObject c')
  | object (h : Class.filled c = Class.filled c') : Twins (.object i c) (.object i c')

theorem twins {v v' : Value} (h : v.filled = v'.filled) : v.Twins v' := by
  cases v with
  | function id c =>
    cases v' <;> simp only [filled, reduceCtorEq, function.injEq] at h
    obtain ⟨rfl, h⟩ := h
    exact .function h
  | native f =>
    cases v' <;> simp only [filled, reduceCtorEq, native.injEq] at h
    subst h
    exact .native
  | classObject c =>
    cases v' <;> simp only [filled, reduceCtorEq, classObject.injEq] at h
    exact .classObject h
  | object id c =>
    cases v' <;> simp only [filled, reduceCtorEq, object.injEq] at h
    obtain ⟨rfl, h⟩ := h
    exact .object h
  | _ => cases v' <;> first | exact .inert trivial trivial | simp only [filled, reduceCtorEq] at h

theorem Inert.adopt {v : Value} (h : v.Inert) (frame : FrameId) : Run.adopt frame v = pure v := by
  cases v <;> first | rfl | exact h.elim

theorem Inert.member {v : Value} (h : v.Inert) (name : Token) :
    Run.member v name = Run.fail name.site .noProperties := by
  cases v <;> first | rfl | exact h.elim

theorem Inert.arity? {v : Value} (h : v.Inert) : v.arity? = none := by
  cases v <;> first | rfl | exact h.elim

@[simp] theorem objectId?_filled (v : Value) : v.filled.objectId? = v.objectId? := by
  cases v <;> rfl

end Value

-- ---------------------------------------------------------------------------
-- Frames
-- ---------------------------------------------------------------------------

/-- What a frame behaves as; what it was made for is never asked. -/
def Frame.filled (f : Frame) : Frame :=
  ⟨f.bindings.map Value.filled, f.parent, none⟩

/-- Mapping goes past a change of one entry. -/
theorem map_modify {g : α → β} {f : α → α} {f' : β → β} (h : ∀ a, g (f a) = f' (g a))
    (as : Array α) (i : Nat) : (as.modify i f).map g = (as.map g).modify i f' := by
  apply Array.ext_getElem?
  intro j
  simp only [Array.getElem?_map, Array.getElem?_modify]
  split
  · cases as[j]? with
    | none => rfl
    | some a => exact congrArg some (h a)
  · rfl

namespace Frames

def filled (fs : Frames) : Frames where
  store := fs.store.map Frame.filled
  parent_lt := by
    intro i f p hf hp
    rw [Array.getElem?_map] at hf
    obtain ⟨g, hg, rfl⟩ := Option.map_eq_some_iff.1 hf
    exact fs.parent_lt i g p hg hp

theorem eq_of_store {fs fs' : Frames} (h : fs.store = fs'.store) : fs = fs' := by
  cases fs
  cases fs'
  congr

@[simp] theorem next_filled (fs : Frames) : fs.filled.next = fs.next := by
  simp [next, filled]

theorem filled_add (fs : Frames) (parent : Option FrameId) (opener : Option Opener) :
    (fs.add parent opener).filled = fs.filled.add parent none := by
  apply eq_of_store
  simp [filled, add, Frame.filled]

theorem filled_define (fs : Frames) (id : FrameId) (name : String) (value : Value) :
    (fs.define id name value).filled = fs.filled.define id name value.filled := by
  apply eq_of_store
  show (fs.store.modify id fun f => { f with bindings := f.bindings.insert name value }).map
      Frame.filled = (fs.store.map Frame.filled).modify id fun f =>
    { f with bindings := f.bindings.insert name value.filled }
  refine map_modify (fun f => ?_) _ _
  rw [Frame.filled, Frame.filled, Table.map_insert]

@[simp] theorem parent?_filled (fs : Frames) (id : FrameId) :
    fs.filled.parent? id = fs.parent? id := by
  simp only [parent?, filled, Array.getElem?_map]
  cases fs.store[id]? <;> rfl

@[simp] theorem bindings_filled (fs : Frames) (id : FrameId) :
    fs.filled.bindings id = (fs.bindings id).map Value.filled := by
  simp only [bindings, filled, Array.getElem?_map]
  cases fs.store[id]? <;> rfl

@[simp] theorem getLocal?_filled (fs : Frames) (id : FrameId) (name : String) :
    fs.filled.getLocal? id name = (fs.getLocal? id name).map Value.filled := by
  simp [getLocal?]

@[simp] theorem holder?_filled (fs : Frames) (id : FrameId) (name : String) :
    fs.filled.holder? id name = fs.holder? id name := by
  unfold holder?
  generalize id + 1 = reach
  induction reach generalizing id with
  | zero => rfl
  | succ reach ih =>
    simp only [holderWithin, bindings_filled, Table.contains_map, parent?_filled]
    split
    · rfl
    · cases fs.parent? id with
      | none => rfl
      | some outer => exact ih outer

@[simp] theorem ancestor?_filled (fs : Frames) (id : FrameId) (distance : Nat) :
    fs.filled.ancestor? id distance = fs.ancestor? id distance := by
  induction distance generalizing id with
  | zero => rfl
  | succ distance ih =>
    simp only [ancestor?, parent?_filled]
    cases fs.parent? id with
    | none => rfl
    | some outer => exact ih outer

@[simp] theorem getAt?_filled (fs : Frames) (id : FrameId) (distance : Nat) (name : String) :
    fs.filled.getAt? id distance name = (fs.getAt? id distance name).map Value.filled := by
  simp only [getAt?, ancestor?_filled]
  cases fs.ancestor? id distance with
  | none => rfl
  | some frame => exact getLocal?_filled fs frame name

@[simp] theorem read_filled (fs : Frames) (id : FrameId) (name : Token) :
    fs.filled.read id name = (fs.read id name).map Value.filled := by
  simp only [read, get?, holder?_filled]
  cases fs.holder? id name.lexeme with
  | none => rfl
  | some frame =>
    simp only [getLocal?_filled]
    cases fs.getLocal? frame name.lexeme <;> rfl

end Frames

end Treewalk
