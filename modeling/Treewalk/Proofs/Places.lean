import Treewalk.Frames
import Treewalk.Proofs.Words

/-!
# Where code stands

Every piece of a unit stands inside a stack of open scopes: what opened each of them, and the names
that it has seen before the piece. Here the stack is read off the tree alone, one step from a piece
to its parts at a time.
-/

namespace Treewalk

-- ---------------------------------------------------------------------------
-- Stacks of scopes
-- ---------------------------------------------------------------------------

/-- An open scope: what opened it, and the names that it has seen so far, latest first. -/
structure Open where
  opener : Opener
  names : Scope.Names

abbrev Stack := List Open

namespace Stack

def names (σ : Stack) : Scope.Scopes :=
  σ.map Open.names

def enter (name : String) (ready : Bool) : Stack → Stack
  | [] => []
  | scope :: outer => { scope with names := (name, ready) :: scope.names } :: outer

def block (σ : Stack) (body : List Stmt) : Stack :=
  ⟨.block body, []⟩ :: σ

def receiver (σ : Stack) (method : Routine) : Stack :=
  ⟨.receiver method, [("this", true)]⟩ :: σ

def call (σ : Stack) (routine : Routine) : Stack :=
  ⟨.call routine, routine.parameters.map fun p => (p.lexeme, true)⟩ :: σ

/-- The stack behind a statement. -/
def after (σ : Stack) : Stmt → Stack
  | .var name _ => (σ.enter name.lexeme false).enter name.lexeme true
  | .function routine => σ.enter routine.name.lexeme true
  | .classDecl name _ _ => σ.enter name.lexeme true
  | .exportDecl _ declaration => σ.after declaration
  | _ => σ

@[simp] theorem names_enter (σ : Stack) (name : String) (ready : Bool) :
    (σ.enter name ready).names = Scope.enter name ready σ.names := by
  cases σ <;> rfl

@[simp] theorem names_block (σ : Stack) (body : List Stmt) :
    (σ.block body).names = [] :: σ.names := rfl

@[simp] theorem names_receiver (σ : Stack) (method : Routine) :
    (σ.receiver method).names = [("this", true)] :: σ.names := rfl

@[simp] theorem names_call (σ : Stack) (routine : Routine) :
    (σ.call routine).names =
      ((routine.params.getD []).map fun p => (p.lexeme, true)) :: σ.names := rfl

theorem after_of_declares_none (σ : Stack) (h : s.declares = none) : σ.after s = σ := by
  induction s using Stmt.declares.induct with
  | case1 keyword declaration ih => exact ih h
  | case2 => cases h
  | case3 => cases h
  | case4 => cases h
  | case5 s hexport hvar hfunction hclass => cases s <;> first | rfl | simp_all

end Stack

-- ---------------------------------------------------------------------------
-- Pieces and their parts
-- ---------------------------------------------------------------------------

inductive Piece where
  | statements (body : List Stmt)
  | statement (s : Stmt)
  | expression (e : Expr)
  | routine (r : Routine)

/-- The expressions that make up an expression, in the order in which they are walked. -/
def Expr.parts : Expr → List Expr
  | .literal _ | .var _ _ | .this _ _ => []
  | .unary _ right => [right]
  | .group inner => [inner]
  | .get object _ => [object]
  | .assign _ _ value => [value]
  | .binary _ left right => [left, right]
  | .logical _ left right => [left, right]
  | .index target _ position => [target, position]
  | .set object _ value => [value, object]
  | .conditional condition yes no => [condition, yes, no]
  | .call callee _ arguments => callee :: arguments
  | .array elements => elements

/-- The variable that an expression itself refers to, with the identity of the node. -/
def Expr.refers? : Expr → Option (NodeId × Token)
  | .var id name => some (id, name)
  | .assign id name _ => some (id, name)
  | .this id keyword => some (id, keyword)
  | _ => none

def Expr.reads? : Expr → Option Token
  | .var _ name => some name
  | .this _ keyword => some keyword
  | _ => none

/-- The pieces that make up a statement inside `σ`, each with the stack that it stands in. -/
def Stmt.parts (σ : Stack) : Stmt → List (Stack × Piece)
  | .expression e => [(σ, .expression e)]
  | .print e => [(σ, .expression e)]
  | .var _ none => []
  | .var name (some e) => [(σ.enter name.lexeme false, .expression e)]
  | .block body => [(σ.block body, .statements body)]
  | .ifElse condition yes none => [(σ, .expression condition), (σ, .statement yes)]
  | .ifElse condition yes (some no) =>
    [(σ, .expression condition), (σ, .statement yes), (σ, .statement no)]
  | .whileLoop condition body => [(σ, .expression condition), (σ, .statement body)]
  | .breakLoop _ => []
  | .function routine => [(σ.enter routine.name.lexeme true, .routine routine)]
  | .classDecl name methods classMethods =>
    (methods ++ classMethods).map fun r =>
      ((σ.enter name.lexeme true).receiver r, .routine r)
  | .returnValue _ none => []
  | .returnValue _ (some e) => [(σ, .expression e)]
  | .importModule _ _ => []
  | .exportDecl _ declaration => [(σ, .statement declaration)]

/-- The pieces that make up a piece inside `σ`, each with the stack that it stands in. -/
def Piece.parts (σ : Stack) : Piece → List (Stack × Piece)
  | .statements [] => []
  | .statements (s :: rest) => [(σ, .statement s), (σ.after s, .statements rest)]
  | .statement s => s.parts σ
  | .expression e => e.parts.map fun part => (σ, .expression part)
  | .routine r => [(σ.call r, .statements r.body)]

def Line.piece : Line → Piece
  | .statements body => .statements body
  | .expression e => .expression e

/-- Within `unit`, the piece stands inside the given stack. -/
inductive Inside (unit : Line) : Stack → Piece → Prop
  | whole : Inside unit [] unit.piece
  | part : Inside unit σ p → (σ', q) ∈ p.parts σ → Inside unit σ' q

namespace Piece

def ids : Piece → List NodeId
  | .statements body => Stmt.idsOfAll body
  | .statement s => s.ids
  | .expression e => e.ids
  | .routine r => r.ids

/-- The piece is as reading makes it. -/
def Proper : Piece → Prop
  | .statements body => Stmt.AllProper body ∧ Stmt.AllWorded body
  | .statement s => s.Proper ∧ s.Worded
  | .expression e => e.Worded
  | .routine r => r.Proper ∧ r.Worded

def ownIds : Piece → List NodeId
  | .expression e => (e.refers?.map Prod.fst).toList
  | _ => []

def ownNotes (σ : Stack) : Piece → List Scope.Note
  | .expression e =>
    match e.refers? with
    | some (id, name) => Scope.noteFor σ.names id name.lexeme
    | none => []
  | _ => []

theorem idsOfAll_eq (es : List Expr) : Expr.idsOfAll es = es.flatMap Expr.ids := by
  induction es with
  | nil => rfl
  | cons e es ih => rw [Expr.idsOfAll, ih, List.flatMap_cons]

theorem routineIdsOfAll_eq (rs : List Routine) :
    Routine.idsOfAll rs = rs.flatMap Routine.ids := by
  induction rs with
  | nil => rfl
  | cons r rs ih => rw [Routine.idsOfAll, ih, List.flatMap_cons]

theorem ids_perm (σ : Stack) (p : Piece) :
    p.ids.Perm ((p.parts σ).flatMap (fun q => q.2.ids) ++ p.ownIds) := by
  cases p with
  | statements body => cases body <;> simp [parts, ids, ownIds, Stmt.idsOfAll]
  | statement s =>
    cases s with
    | var name initial =>
      cases initial <;> simp [parts, Stmt.parts, ids, ownIds, Stmt.ids, Expr.idsOfOption]
    | ifElse condition yes no =>
      cases no <;> simp [parts, Stmt.parts, ids, ownIds, Stmt.ids]
    | returnValue keyword value =>
      cases value <;> simp [parts, Stmt.parts, ids, ownIds, Stmt.ids, Expr.idsOfOption]
    | classDecl name methods classMethods =>
      simp [parts, Stmt.parts, ids, ownIds, Stmt.ids, routineIdsOfAll_eq, List.flatMap_map]
    | _ => simp [parts, Stmt.parts, ids, ownIds, Stmt.ids]
  | expression e =>
    cases e with
    | set object name value =>
      simpa [parts, Expr.parts, ids, ownIds, Expr.refers?, Expr.ids] using List.perm_append_comm
    | _ => simp [parts, Expr.parts, ids, ownIds, Expr.refers?, Expr.ids, idsOfAll_eq,
        List.flatMap_map]
  | routine r =>
    obtain ⟨name, params, body⟩ := r
    simp [parts, ids, ownIds, Routine.ids]

theorem allWorded_mem (h : Expr.AllWorded es) (he : e ∈ es) : e.Worded := by
  induction es with
  | nil => cases he
  | cons first rest ih =>
    rcases List.mem_cons.1 he with rfl | hrest
    · exact h.1
    · exact ih h.2 hrest

theorem routineAllProper_mem (h : Routine.AllProper rs) (hr : r ∈ rs) : r.Proper := by
  induction rs with
  | nil => cases hr
  | cons first rest ih =>
    rcases List.mem_cons.1 hr with rfl | hrest
    · exact h.1
    · exact ih h.2 hrest

theorem routineAllWorded_mem (h : Routine.AllWorded rs) (hr : r ∈ rs) : r.Worded := by
  induction rs with
  | nil => cases hr
  | cons first rest ih =>
    rcases List.mem_cons.1 hr with rfl | hrest
    · exact h.1
    · exact ih h.2 hrest

theorem worded_part (h : Expr.Worded e) (hpart : part ∈ e.parts) : part.Worded := by
  cases e with
  | call callee paren arguments =>
    rcases List.mem_cons.1 hpart with rfl | harg
    · exact h.1
    · exact allWorded_mem h.2 harg
  | array elements => exact allWorded_mem h hpart
  | _ => simp_all [Expr.parts, Expr.Worded] <;> grind

theorem Proper.part {p : Piece} (h : p.Proper) (hq : q ∈ p.parts σ) : q.2.Proper := by
  cases p with
  | statements body =>
    cases body with
    | nil => cases hq
    | cons s rest =>
      obtain ⟨⟨hs, hrest⟩, hws, hwrest⟩ := h
      simp only [parts, List.mem_cons, List.not_mem_nil, or_false] at hq
      rcases hq with rfl | rfl
      · exact ⟨hs, hws⟩
      · exact ⟨hrest, hwrest⟩
  | statement s =>
    obtain ⟨hproper, hworded⟩ := h
    cases s with
    | classDecl name methods classMethods =>
      obtain ⟨r, hr, rfl⟩ := List.mem_map.1 hq
      rcases List.mem_append.1 hr with hr | hr
      · exact ⟨routineAllProper_mem hproper.1 hr, routineAllWorded_mem hworded.1 hr⟩
      · exact ⟨routineAllProper_mem hproper.2 hr, routineAllWorded_mem hworded.2 hr⟩
    | var name initial =>
      cases initial with
      | none => cases hq
      | some e =>
        obtain rfl := List.mem_singleton.1 hq
        exact hworded.2
    | ifElse condition yes no =>
      cases no with
      | none =>
        simp only [parts, Stmt.parts, List.mem_cons, List.not_mem_nil, or_false] at hq
        rcases hq with rfl | rfl
        · exact hworded.1
        · exact ⟨hproper.2, hworded.2⟩
      | some no =>
        simp only [parts, Stmt.parts, List.mem_cons, List.not_mem_nil, or_false] at hq
        rcases hq with rfl | rfl | rfl
        · exact hworded.1
        · exact ⟨hproper.2.1, hworded.2.1⟩
        · exact ⟨hproper.2.2.2, hworded.2.2⟩
    | whileLoop condition body =>
      simp only [parts, Stmt.parts, List.mem_cons, List.not_mem_nil, or_false] at hq
      rcases hq with rfl | rfl
      · exact hworded.1
      · exact ⟨hproper.2, hworded.2⟩
    | returnValue keyword value =>
      cases value with
      | none => cases hq
      | some e =>
        obtain rfl := List.mem_singleton.1 hq
        exact hworded
    | breakLoop keyword => cases hq
    | importModule keyword path => cases hq
    | exportDecl keyword declaration =>
      obtain rfl := List.mem_singleton.1 hq
      exact ⟨hproper.2, hworded⟩
    | expression e | print e =>
      obtain rfl := List.mem_singleton.1 hq
      exact hworded
    | function routine =>
      obtain rfl := List.mem_singleton.1 hq
      exact ⟨hproper.2, hworded⟩
    | block body =>
      obtain rfl := List.mem_singleton.1 hq
      exact ⟨hproper, hworded⟩
  | expression e =>
    obtain ⟨part, hpart, rfl⟩ := List.mem_map.1 hq
    exact worded_part h hpart
  | routine r =>
    obtain ⟨name, params, body⟩ := r
    obtain rfl := List.mem_singleton.1 hq
    exact h

theorem expr_part_size {e : Expr} (h : part ∈ e.parts) : sizeOf part < sizeOf e := by
  cases e with
  | literal value | var id name | this id keyword => cases h
  | unary op right | group inner | get object name | assign id name value =>
    obtain rfl := List.mem_singleton.1 h
    simp only [Expr.unary.sizeOf_spec, Expr.group.sizeOf_spec, Expr.get.sizeOf_spec,
      Expr.assign.sizeOf_spec]
    omega
  | binary op left right | logical op left right | index left op right | set right op left =>
    obtain rfl | rfl : part = left ∨ part = right := by simpa [Expr.parts] using h
    all_goals
      simp only [Expr.binary.sizeOf_spec, Expr.logical.sizeOf_spec, Expr.index.sizeOf_spec,
        Expr.set.sizeOf_spec]
      omega
  | conditional condition yes no =>
    obtain rfl | rfl | rfl : part = condition ∨ part = yes ∨ part = no := by
      simpa [Expr.parts] using h
    all_goals
      simp only [Expr.conditional.sizeOf_spec]
      omega
  | call callee paren arguments =>
    rcases List.mem_cons.1 h with rfl | harg
    · simp only [Expr.call.sizeOf_spec]
      omega
    · have := List.sizeOf_lt_of_mem harg
      simp only [Expr.call.sizeOf_spec]
      omega
  | array elements =>
    have : sizeOf part < sizeOf elements := List.sizeOf_lt_of_mem h
    simp only [Expr.array.sizeOf_spec]
    omega

theorem stmt_part_size {s : Stmt} (h : q ∈ s.parts σ) :
    sizeOf q.2 < sizeOf (Piece.statement s) := by
  cases s with
  | classDecl name methods classMethods =>
    obtain ⟨r, hr, rfl⟩ := List.mem_map.1 h
    have hsize : sizeOf r < sizeOf methods ∨ sizeOf r < sizeOf classMethods :=
      (List.mem_append.1 hr).imp List.sizeOf_lt_of_mem List.sizeOf_lt_of_mem
    simp only [statement.sizeOf_spec, routine.sizeOf_spec, Stmt.classDecl.sizeOf_spec]
    omega
  | var name initial =>
    cases initial with
    | none => cases h
    | some e =>
      obtain rfl := List.mem_singleton.1 h
      simp
      omega
  | ifElse condition yes no =>
    cases no with
    | none =>
      simp only [Stmt.parts, List.mem_cons, List.not_mem_nil, or_false] at h
      rcases h with rfl | rfl
      all_goals
        simp only [statement.sizeOf_spec, expression.sizeOf_spec, Stmt.ifElse.sizeOf_spec]
        omega
    | some no =>
      simp only [Stmt.parts, List.mem_cons, List.not_mem_nil, or_false] at h
      rcases h with rfl | rfl | rfl
      all_goals
        simp only [statement.sizeOf_spec, expression.sizeOf_spec, Stmt.ifElse.sizeOf_spec,
          Option.some.sizeOf_spec]
        omega
  | whileLoop condition body =>
    simp only [Stmt.parts, List.mem_cons, List.not_mem_nil, or_false] at h
    rcases h with rfl | rfl
    all_goals
      simp only [statement.sizeOf_spec, expression.sizeOf_spec, Stmt.whileLoop.sizeOf_spec]
      omega
  | returnValue keyword value =>
    cases value with
    | none => cases h
    | some e =>
      obtain rfl := List.mem_singleton.1 h
      simp
      omega
  | breakLoop keyword => cases h
  | importModule keyword path => cases h
  | exportDecl keyword declaration =>
    obtain rfl := List.mem_singleton.1 h
    simp only [statement.sizeOf_spec, Stmt.exportDecl.sizeOf_spec]
    omega
  | expression e | print e | block body | function routine =>
    obtain rfl := List.mem_singleton.1 h
    simp

theorem part_size {p : Piece} (h : q ∈ p.parts σ) : sizeOf q.2 < sizeOf p := by
  cases p with
  | statements body =>
    cases body with
    | nil => cases h
    | cons s rest =>
      simp only [parts, List.mem_cons, List.not_mem_nil, or_false] at h
      rcases h with rfl | rfl
      all_goals
        simp only [statements.sizeOf_spec, statement.sizeOf_spec, List.cons.sizeOf_spec]
        omega
  | statement s => exact stmt_part_size h
  | expression e =>
    obtain ⟨part, hpart, rfl⟩ := List.mem_map.1 h
    have := expr_part_size hpart
    simp only [expression.sizeOf_spec]
    omega
  | routine r =>
    obtain ⟨name, params, body⟩ := r
    obtain rfl := List.mem_singleton.1 h
    simp only [statements.sizeOf_spec, routine.sizeOf_spec, Routine.mk.sizeOf_spec]
    omega

/-- What holds of a piece whenever it holds of its parts holds of every piece. -/
theorem induction {P : Stack → Piece → Prop}
    (step : ∀ σ p, (∀ q ∈ p.parts σ, P q.1 q.2) → P σ p) (σ : Stack) (p : Piece) : P σ p :=
  step σ p fun q _ => induction step q.1 q.2
termination_by sizeOf p
decreasing_by exact part_size ‹_›

end Piece

end Treewalk
