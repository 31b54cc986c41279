import Treewalk.Proofs.Abreast
import Treewalk.Proofs.Likeness

/-!
# Counting nodes from another number on

The numbers that are given to the nodes of a source depend on where counting starts, and on nothing
else. Nothing else depends on them: counted from `k` further on, a source is read as the same tree
with each number `k` further on, or is refused with the same error, and its walk notes the same
distances.
-/

namespace Treewalk

-- ---------------------------------------------------------------------------
-- The walk
-- ---------------------------------------------------------------------------

/-- The same error, or the result that `g` makes of the other. -/
def Maps (g : α → β) (r : Except ε α) (r' : Except ε β) : Prop :=
  r' = g <$> r

namespace Maps

theorem pure {g : α → β} (h : b = g a) :
    Maps g (Pure.pure a : Except ε α) (Pure.pure b : Except ε β) := by
  subst h
  rfl

theorem throw {g : α → β} (e : ε) :
    Maps g (MonadExcept.throw e : Except ε α) (MonadExcept.throw e : Except ε β) :=
  rfl

theorem bind {g : α → β} {h : γ → δ} {r : Except ε α} {r' : Except ε β} {k : α → Except ε γ}
    {k' : β → Except ε δ} (hr : Maps g r r') (hk : ∀ a, Maps h (k a) (k' (g a))) :
    Maps h (r >>= k) (r' >>= k') := by
  obtain rfl : r' = g <$> r := hr
  cases r with
  | error e => rfl
  | ok a => exact hk a

theorem map {g : α → β} {h : γ → δ} {r : Except ε α} {r' : Except ε β} {k : α → γ} {k' : β → δ}
    (hr : Maps g r r') (hk : ∀ a, k' (g a) = h (k a)) : Maps h (k <$> r) (k' <$> r') := by
  obtain rfl : r' = g <$> r := hr
  cases r with
  | error e => rfl
  | ok a => exact congrArg Except.ok (hk a)

end Maps

theorem Routine.name_numbered (f : NodeId → NodeId) (r : Routine) :
    (r.numbered f).name = r.name := by
  cases r
  rfl

namespace Scope

def Note.numbered (f : NodeId → NodeId) (n : Note) : Note :=
  (f n.1, n.2)

def numberedNotes (f : NodeId → NodeId) (notes : List Note) : List Note :=
  notes.map (Note.numbered f)

@[simp] theorem numberedNotes_append (f : NodeId → NodeId) (notes more : List Note) :
    numberedNotes f (notes ++ more) = numberedNotes f notes ++ numberedNotes f more :=
  List.map_append

variable (f : NodeId → NodeId)

theorem noteFor_numbered (scopes : Scopes) (node : NodeId) (name : String) :
    noteFor scopes (f node) name = numberedNotes f (noteFor scopes node name) := by
  unfold noteFor
  cases distance? scopes name <;> rfl

section
variable (around : Surroundings) (scopes : Scopes)

mutual

theorem walkExpr_numbered : ∀ e : Expr,
    Maps (numberedNotes f) (walkExpr around scopes e) (walkExpr around scopes (e.numbered f))
  | .literal _ => .pure rfl
  | .group inner => walkExpr_numbered inner
  | .unary _ right => walkExpr_numbered right
  | .binary _ left right | .logical _ left right =>
    .bind (walkExpr_numbered left) fun _ => .bind (walkExpr_numbered right) fun _ =>
      .pure (numberedNotes_append ..).symm
  | .conditional condition yes no =>
    .bind (walkExpr_numbered condition) fun _ => .bind (walkExpr_numbered yes) fun _ =>
      .bind (walkExpr_numbered no) fun _ => .pure (by simp)
  | .var node name => by
    unfold Expr.numbered walkExpr
    split
    · exact .throw _
    · exact .pure (noteFor_numbered f scopes node name.lexeme)
  | .assign node name value =>
    .bind (walkExpr_numbered value) fun _ =>
      .pure (by rw [noteFor_numbered, numberedNotes_append])
  | .this node keyword => by
    unfold Expr.numbered walkExpr
    split
    · exact .pure (noteFor_numbered f scopes node keyword.lexeme)
    · exact .throw _
  | .call callee _ arguments =>
    .bind (walkExpr_numbered callee) fun _ => .bind (walkExprs_numbered arguments) fun _ =>
      .pure (numberedNotes_append ..).symm
  | .get object _ => walkExpr_numbered object
  | .set object _ value =>
    .bind (walkExpr_numbered value) fun _ => .bind (walkExpr_numbered object) fun _ =>
      .pure (numberedNotes_append ..).symm
  | .array elements => walkExprs_numbered elements
  | .index target _ position =>
    .bind (walkExpr_numbered target) fun _ => .bind (walkExpr_numbered position) fun _ =>
      .pure (numberedNotes_append ..).symm

theorem walkExprs_numbered : ∀ es : List Expr,
    Maps (numberedNotes f) (walkExprs around scopes es)
      (walkExprs around scopes (Expr.numberedAll f es))
  | [] => .pure rfl
  | e :: rest =>
    .bind (walkExpr_numbered e) fun _ => .bind (walkExprs_numbered rest) fun _ =>
      .pure (numberedNotes_append ..).symm

end

theorem walkOption_numbered (e : Option Expr) :
    Maps (numberedNotes f) (walkOption around scopes e)
      (walkOption around scopes (e.map (Expr.numbered f))) := by
  cases e with
  | none => exact .pure rfl
  | some e => exact walkExpr_numbered f around scopes e

end

mutual

theorem walkStmt_numbered (around : Surroundings) (scopes : Scopes) : ∀ s : Stmt,
    Maps (Prod.map id (numberedNotes f)) (walkStmt around scopes s)
      (walkStmt around scopes (s.numbered f))
  | .expression e => .bind (walkExpr_numbered f around scopes e) fun _ => .pure rfl
  | .print e => .bind (walkExpr_numbered f around scopes e) fun _ => .pure rfl
  | .var _ initial => .bind (walkOption_numbered f around _ initial) fun _ => .pure rfl
  | .block body => .bind (walkStmts_numbered around _ body) fun _ => .pure rfl
  | .ifElse condition yes none =>
    .bind (walkExpr_numbered f around scopes condition) fun _ =>
      .bind (walkStmt_numbered around scopes yes) fun _ => .pure (by simp)
  | .ifElse condition yes (some no) =>
    .bind (walkExpr_numbered f around scopes condition) fun _ =>
      .bind (walkStmt_numbered around scopes yes) fun behind =>
        .bind (walkStmt_numbered around behind.1 no) fun _ => .pure (by simp)
  | .whileLoop condition body =>
    .bind (walkExpr_numbered f around scopes condition) fun _ =>
      .bind (walkStmt_numbered _ scopes body) fun _ => .pure (by simp)
  | .breakLoop _ => by
    unfold Stmt.numbered walkStmt
    split
    · exact .pure rfl
    · exact .throw _
  | .function routine => by
    rw [Stmt.numbered, walkStmt, walkStmt, Routine.name_numbered]
    exact .bind (walkRoutine_numbered around _ routine) fun _ => .pure rfl
  | .classDecl _ methods classMethods =>
    .bind (walkRoutines_numbered _ _ methods) fun _ =>
      .bind (walkRoutines_numbered _ _ classMethods) fun _ => .pure (by simp)
  | .returnValue _ value => by
    unfold Stmt.numbered walkStmt
    split
    · exact .bind (walkOption_numbered f around scopes value) fun _ => .pure rfl
    · exact .throw _
  | .importModule _ _ => .pure rfl
  | .exportDecl _ declaration => walkStmt_numbered around scopes declaration

theorem walkStmts_numbered (around : Surroundings) (scopes : Scopes) : ∀ body : List Stmt,
    Maps (Prod.map id (numberedNotes f)) (walkStmts around scopes body)
      (walkStmts around scopes (Stmt.numberedAll f body))
  | [] => .pure rfl
  | s :: rest =>
    .bind (walkStmt_numbered around scopes s) fun behind =>
      .bind (walkStmts_numbered around behind.1 rest) fun _ => .pure (by simp)

theorem walkRoutine_numbered (around : Surroundings) (scopes : Scopes) : ∀ r : Routine,
    Maps (numberedNotes f) (walkRoutine around scopes r) (walkRoutine around scopes (r.numbered f))
  | ⟨_, _, body⟩ => .bind (walkStmts_numbered _ _ body) fun _ => .pure rfl

theorem walkRoutines_numbered (around : Surroundings) (scopes : Scopes) : ∀ rs : List Routine,
    Maps (numberedNotes f) (walkRoutines around scopes rs)
      (walkRoutines around scopes (Routine.numberedAll f rs))
  | [] => .pure rfl
  | r :: rest =>
    .bind (walkRoutine_numbered around scopes r) fun _ =>
      .bind (walkRoutines_numbered around scopes rest) fun _ => .pure (numberedNotes_append ..).symm

end

end Scope

theorem walkLine_numbered (f : NodeId → NodeId) (l : Line) :
    Maps (Scope.numberedNotes f) (Prepared.walkLine l) (Prepared.walkLine (l.numbered f)) := by
  cases l with
  | statements body => exact .bind (Scope.walkStmts_numbered f _ _ body) fun _ => .pure rfl
  | expression e => exact Scope.walkExpr_numbered f _ _ e

-- ---------------------------------------------------------------------------
-- Readers
-- ---------------------------------------------------------------------------

namespace Parser

/-- The cursor, counting from `k` further on. -/
def Cursor.further (c : Cursor) (k : Nat) : Cursor :=
  { c with nextId := c.nextId + k }

/-- Where the second reader counts from `k` further on, it does what the first does: it fails with
the same error or gives the result that `g` makes, and stays `k` further on. -/
def Counts (k : Nat) (g : α → β) (r : Reader α) (r' : Reader β) : Prop :=
  ∀ c : Cursor, r'.run.run (c.further k) = (g <$> (r.run.run c).1, (r.run.run c).2.further k)

namespace Counts

variable {k : Nat} {α β γ δ : Type}

theorem pure {g : α → β} (h : b = g a) :
    Counts k g (Pure.pure a : Reader α) (Pure.pure b : Reader β) := by
  subst h
  exact fun c => rfl

theorem throw {g : α → β} (e : Error) :
    Counts k g (MonadExcept.throw e : Reader α) (MonadExcept.throw e : Reader β) :=
  fun _ => rfl

theorem bind {g : α → β} {h : γ → δ} {r : Reader α} {r' : Reader β} {f : α → Reader γ}
    {f' : β → Reader δ} (hr : Counts k g r r') (hf : ∀ a, Counts k h (f a) (f' (g a))) :
    Counts k h (r >>= f) (r' >>= f') := by
  intro c
  rw [run_bind, run_bind, hr c]
  rcases r.run.run c with ⟨e | a, c₁⟩
  · rfl
  · exact hf a c₁

theorem map {g : α → β} {h : γ → δ} {r : Reader α} {r' : Reader β} {f : α → γ} {f' : β → δ}
    (hr : Counts k g r r') (hf : ∀ a, f' (g a) = h (f a)) :
    Counts k h (f <$> r) (f' <$> r') := by
  rw [map_eq_pure_bind, map_eq_pure_bind]
  exact hr.bind fun a => pure (hf a)

/-- Where a cursor stands does not depend on the count. -/
theorem get_bind {h : γ → δ} {f : Cursor → Reader γ} {f' : Cursor → Reader δ}
    (hf : ∀ c, Counts k h (f c) (f' (c.further k))) : Counts k h (get >>= f) (get >>= f') :=
  fun c => hf c c

theorem modify {f : Cursor → Cursor} (hf : ∀ c, f (c.further k) = (f c).further k) :
    Counts k id (modify f : Reader Unit) (modify f : Reader Unit) := by
  intro c
  show (Except.ok (), f (c.further k)) = (Except.ok (), (f c).further k)
  rw [hf]

theorem ite {h : γ → δ} {p : Prop} [Decidable p] {r s : Reader γ} {r' s' : Reader δ}
    (hr : Counts k h r r') (hs : Counts k h s s') :
    Counts k h (if p then r else s) (if p then r' else s') := by
  split
  · exact hr
  · exact hs

theorem recovering {g : α → β} {r : Reader α} {r' : Reader β} (h : Counts k g r r') :
    Counts k g (recovering r) (recovering r') := by
  have passes {γ : Type} {m : Reader γ} {d d₁ : Cursor} {a : γ} (hm : m.run.run d = (.ok a, d₁)) :
      (Parser.recovering m).run.run d = (.ok a, d₁) := by
    show (ExceptT.tryCatch m _).run.run d = _
    rw [ExceptT.tryCatch, ExceptT.run_mk, StateT.run_bind, show StateT.run m d = _ from hm]
    rfl
  have resumes {γ : Type} {m : Reader γ} {d d₁ : Cursor} {e : Error}
      (hm : m.run.run d = (.error e, d₁)) :
      (Parser.recovering m).run.run d = (.error e, { d₁ with rest := resume d₁.rest }) := by
    show (ExceptT.tryCatch m _).run.run d = _
    rw [ExceptT.tryCatch, ExceptT.run_mk, StateT.run_bind, show StateT.run m d = _ from hm]
    rfl
  intro c
  have hc := h c
  rcases hr : r.run.run c with ⟨_ | _, _⟩ <;> rw [hr] at hc
  · rw [resumes hr, resumes hc]
    rfl
  · rw [passes hr, passes hc]
    rfl

end Counts

section
variable {k : Nat}

theorem peek_counts : Counts k id peek peek :=
  .get_bind fun _ => .pure rfl

theorem atEnd_counts : Counts k id atEnd atEnd :=
  .get_bind fun _ => .pure rfl

theorem check_counts (kind : Kind) : Counts k id (check kind) (check kind) :=
  .get_bind fun _ => .pure rfl

theorem advance_counts : Counts k id advance advance :=
  .modify fun _ => rfl

theorem fail_counts {g : α → β} (fault : ParseFault) :
    Counts k g (fail fault : Reader α) (fail fault : Reader β) :=
  peek_counts.bind fun _ => .throw _

theorem acceptIf_counts (p : Kind → Bool) : Counts k id (acceptIf p) (acceptIf p) := by
  refine .get_bind fun c => ?_
  obtain ⟨rest, stop, lenient, bare, nextId⟩ := c
  cases rest with
  | nil => exact .pure rfl
  | cons t rest => exact .ite (advance_counts.bind fun _ => .pure rfl) (.pure rfl)

theorem accept?_counts (kind : Kind) : Counts k id (accept? kind) (accept? kind) :=
  acceptIf_counts _

theorem expect_counts (kind : Kind) (fault : ParseFault) :
    Counts k id (expect kind fault) (expect kind fault) :=
  (accept?_counts kind).bind fun
    | some _ => .pure rfl
    | none => fail_counts fault

theorem freshId_counts : Counts k (· + k) freshId freshId := by
  intro c
  show ((Except.ok (c.nextId + k), { c with nextId := c.nextId + k + 1 }) :
      Except Error NodeId × Cursor) =
    (.ok (c.nextId + k), { c with nextId := c.nextId + 1 + k })
  rw [Nat.add_right_comm]

-- ---------------------------------------------------------------------------
-- Expressions
-- ---------------------------------------------------------------------------

/-- What the expression readers with one allowance do. -/
structure ExprCounts (k depth : Nat) : Prop where
  level : ∀ level, Counts k (Expr.numbered (· + k)) (readLevel depth level) (readLevel depth level)
  operands : ∀ level left, Counts k (Expr.numbered (· + k)) (readOperands depth level left)
    (readOperands depth level (left.numbered (· + k)))
  suffixes : ∀ head, Counts k (Expr.numbered (· + k)) (readSuffixes depth head)
    (readSuffixes depth (head.numbered (· + k)))
  items : ∀ close, Counts k (Expr.numberedAll (· + k)) (readItems depth close)
    (readItems depth close)
  itemsFrom : ∀ room, Counts k (Expr.numberedAll (· + k)) (readItemsFrom depth room)
    (readItemsFrom depth room)
  primary : Counts k (Expr.numbered (· + k)) (readPrimary depth) (readPrimary depth)

variable {depth : Nat}

theorem join_numbered (f : NodeId → NodeId) (level : Level) (op : Token) (left right : Expr) :
    level.join op (left.numbered f) (right.numbered f) = (level.join op left right).numbered f := by
  cases level <;> rfl

theorem readLevel_counts (ih : ExprCounts k depth) (level : Level) :
    Counts k (Expr.numbered (· + k)) (readLevel (depth + 1) level)
      (readLevel (depth + 1) level) := by
  cases level with
  | assignment =>
    refine (ih.level _).bind fun target => (accept?_counts _).bind fun equals => ?_
    cases equals with
    | none => exact .pure rfl
    | some equals =>
      refine (ih.level _).bind fun value => ?_
      cases target with
      | var node name => exact freshId_counts.bind fun _ => .pure rfl
      | get object name => exact .pure rfl
      | _ => exact .throw _
  | conditional =>
    refine (ih.level _).bind fun condition => (accept?_counts _).bind fun question => ?_
    cases question with
    | none => exact .pure rfl
    | some question =>
      exact (ih.level _).bind fun _ => (expect_counts _ _).bind fun _ =>
        (ih.level _).bind fun _ => .pure rfl
  | unary =>
    refine (acceptIf_counts _).bind fun op => ?_
    cases op with
    | none => exact ih.level _
    | some op => exact (ih.level _).map fun _ => rfl
  | call => exact (ih.level _).bind ih.suffixes
  | primary => exact ih.primary
  | _ => exact (ih.level _).bind (ih.operands _)

theorem readOperands_counts (ih : ExprCounts k depth) (level : Level) (left : Expr) :
    Counts k (Expr.numbered (· + k)) (readOperands (depth + 1) level left)
      (readOperands (depth + 1) level (left.numbered (· + k))) := by
  refine (acceptIf_counts _).bind fun op => ?_
  cases op with
  | none => exact .pure rfl
  | some op =>
    refine (ih.level _).bind fun right => ?_
    have h := ih.operands level (level.join op left right)
    rwa [← join_numbered] at h

theorem readSuffixes_counts (ih : ExprCounts k depth) (head : Expr) :
    Counts k (Expr.numbered (· + k)) (readSuffixes (depth + 1) head)
      (readSuffixes (depth + 1) (head.numbered (· + k))) := by
  refine peek_counts.bind fun t => ?_
  dsimp only [id]
  split
  · exact advance_counts.bind fun _ => (ih.items _).bind fun arguments =>
      (expect_counts _ _).bind fun paren => ih.suffixes (.call head paren arguments)
  · exact advance_counts.bind fun _ => (expect_counts _ _).bind fun name =>
      ih.suffixes (.get head name)
  · exact advance_counts.bind fun _ => (ih.level _).bind fun position =>
      (expect_counts _ _).bind fun bracket => ih.suffixes (.index head bracket position)
  · exact .pure rfl

theorem readItems_counts (ih : ExprCounts k depth) (close : Kind) :
    Counts k (Expr.numberedAll (· + k)) (readItems (depth + 1) close)
      (readItems (depth + 1) close) :=
  (check_counts close).bind fun _ => .ite (.pure rfl) (ih.itemsFrom _)

theorem readItemsFrom_counts (ih : ExprCounts k depth) (room : Nat) :
    Counts k (Expr.numberedAll (· + k)) (readItemsFrom (depth + 1) room)
      (readItemsFrom (depth + 1) room) := by
  cases room with
  | zero => exact fail_counts _
  | succ room =>
    refine (ih.level _).bind fun item => (accept?_counts _).bind fun comma => ?_
    cases comma with
    | none => exact .pure rfl
    | some comma => exact (ih.itemsFrom room).bind fun _ => .pure rfl

theorem readPrimary_counts (ih : ExprCounts k depth) :
    Counts k (Expr.numbered (· + k)) (readPrimary (depth + 1)) (readPrimary (depth + 1)) := by
  refine peek_counts.bind fun t => ?_
  dsimp only [id]
  split
  iterate 5 exact advance_counts.bind fun _ => .pure rfl
  iterate 2 exact advance_counts.bind fun _ => freshId_counts.bind fun _ => .pure rfl
  · exact advance_counts.bind fun _ => (ih.level _).bind fun _ =>
      (expect_counts _ _).bind fun _ => .pure rfl
  · exact advance_counts.bind fun _ => (ih.items _).bind fun _ =>
      (expect_counts _ _).bind fun _ => .pure rfl
  · exact .ite (advance_counts.bind fun _ => .throw _) (fail_counts _)

theorem exprCounts (k : Nat) : ∀ depth, ExprCounts k depth
  | 0 => {
      level := fun _ => fail_counts _
      operands := fun _ _ => fail_counts _
      suffixes := fun _ => fail_counts _
      items := fun _ => fail_counts _
      itemsFrom := fun _ => fail_counts _
      primary := fail_counts _ }
  | depth + 1 => {
      level := readLevel_counts (exprCounts k depth)
      operands := readOperands_counts (exprCounts k depth)
      suffixes := readSuffixes_counts (exprCounts k depth)
      items := readItems_counts (exprCounts k depth)
      itemsFrom := readItemsFrom_counts (exprCounts k depth)
      primary := readPrimary_counts (exprCounts k depth) }

theorem expression_counts : Counts k (Expr.numbered (· + k)) expression expression :=
  .get_bind fun c => (exprCounts k (16 * c.rest.length + 16)).level .assignment

-- ---------------------------------------------------------------------------
-- Statements
-- ---------------------------------------------------------------------------

theorem readImport_counts (keyword : Token) :
    Counts k (Stmt.numbered (· + k)) (readImport keyword) (readImport keyword) := by
  refine peek_counts.bind fun path => ?_
  dsimp only [id]
  split
  · exact advance_counts.bind fun _ => (expect_counts _ _).bind fun _ => .pure rfl
  · exact fail_counts _

theorem readParameters_counts (room : Nat) :
    Counts k id (readParameters room) (readParameters room) := by
  induction room with
  | zero => exact fail_counts _
  | succ room ih =>
    refine (expect_counts _ _).bind fun name => (accept?_counts _).bind fun comma => ?_
    cases comma with
    | none => exact .pure rfl
    | some comma => exact ih.bind fun _ => .pure rfl

theorem readParameterList_counts (callable : Callable) :
    Counts k id (readParameterList callable) (readParameterList callable) := by
  have finish : ∀ params : List Token, Counts k id
      (do let _ ← expect .rightParen .parametersClose; return params : Reader (List Token))
      (do let _ ← expect .rightParen .parametersClose; return params : Reader (List Token)) :=
    fun params => (expect_counts _ _).bind fun _ => .pure rfl
  refine (expect_counts _ _).bind fun _ => (check_counts _).bind fun _ => .ite ?_ ?_
  · exact finish []
  · exact (readParameters_counts _).bind finish

theorem readVar_counts : Counts k (Stmt.numbered (· + k)) readVar readVar := by
  refine (expect_counts _ _).bind fun name => (accept?_counts _).bind fun equals => ?_
  have finish : ∀ initial : Option Expr, Counts k (Stmt.numbered (· + k))
      (do let _ ← expect .semicolon .variableEnd; return .var name initial : Reader Stmt)
      (do
        let _ ← expect .semicolon .variableEnd
        return .var name (initial.map (Expr.numbered (· + k))) : Reader Stmt) :=
    fun initial => (expect_counts _ _).bind fun _ => .pure rfl
  cases equals with
  | none => exact finish none
  | some equals =>
    exact (expression_counts.map (h := Option.map (Expr.numbered (· + k))) fun _ => rfl).bind finish

theorem readUnless_counts (close : Kind) :
    Counts k (Option.map (Expr.numbered (· + k))) (readUnless close) (readUnless close) :=
  (check_counts close).bind fun _ => .ite (.pure rfl) (expression_counts.map fun _ => rfl)

theorem readExpressionStatement_counts :
    Counts k (Stmt.numbered (· + k)) readExpressionStatement readExpressionStatement := by
  have finish (e : Expr) : Counts k (Stmt.numbered (· + k))
      (return .expression e : Reader Stmt)
        (return .expression (e.numbered (· + k)) : Reader Stmt) :=
    .pure rfl
  refine expression_counts.bind fun e => .get_bind fun c =>
    atEnd_counts.bind fun ended => .ite ?_ ?_
  · exact (Counts.modify fun _ => rfl).bind fun _ => finish e
  · exact (expect_counts _ _).bind fun _ => finish e

theorem forLoop_numbered (f : NodeId → NodeId) (start : Option Stmt) (condition step : Option Expr)
    (body : Stmt) :
    forLoop (start.map (Stmt.numbered f)) (condition.map (Expr.numbered f))
        (step.map (Expr.numbered f)) (body.numbered f) =
      (forLoop start condition step body).numbered f := by
  cases start <;> cases condition <;> cases step <;> rfl

/-- What the statement readers with one allowance do. -/
structure StmtCounts (k depth : Nat) : Prop where
  declaration : Counts k (Stmt.numbered (· + k)) (readDeclaration depth) (readDeclaration depth)
  classDecl : Counts k (Stmt.numbered (· + k)) (readClass depth) (readClass depth)
  members : Counts k (Prod.map (Routine.numberedAll (· + k)) (Routine.numberedAll (· + k)))
    (readMembers depth) (readMembers depth)
  routine : ∀ callable, Counts k (Routine.numbered (· + k)) (readRoutine depth callable)
    (readRoutine depth callable)
  block : Counts k (Stmt.numberedAll (· + k)) (readBlock depth) (readBlock depth)
  statement : Counts k (Stmt.numbered (· + k)) (readStatement depth) (readStatement depth)

variable {depth : Nat}

theorem readDeclaration_counts (ih : StmtCounts k depth) :
    Counts k (Stmt.numbered (· + k)) (readDeclaration (depth + 1))
      (readDeclaration (depth + 1)) := by
  refine .recovering (peek_counts.bind fun t => ?_)
  dsimp only [id]
  split
  · exact advance_counts.bind fun _ => readImport_counts t
  · refine advance_counts.bind fun _ => peek_counts.bind fun next => ?_
    dsimp only [id]
    split
    · exact advance_counts.bind fun _ => ih.classDecl.bind fun _ => .pure rfl
    · exact advance_counts.bind fun _ => (ih.routine _).bind fun _ => .pure rfl
    · exact advance_counts.bind fun _ => readVar_counts.bind fun _ => .pure rfl
    · exact fail_counts _
  · exact advance_counts.bind fun _ => ih.classDecl
  · exact advance_counts.bind fun _ => (ih.routine _).bind fun _ => .pure rfl
  · exact advance_counts.bind fun _ => readVar_counts
  · exact ih.statement

theorem readClass_counts (ih : StmtCounts k depth) :
    Counts k (Stmt.numbered (· + k)) (readClass (depth + 1)) (readClass (depth + 1)) :=
  (expect_counts _ _).bind fun _ => (expect_counts _ _).bind fun _ => ih.members.bind fun _ =>
    (expect_counts _ _).bind fun _ => .pure rfl

theorem readMembers_counts (ih : StmtCounts k depth) :
    Counts k (Prod.map (Routine.numberedAll (· + k)) (Routine.numberedAll (· + k)))
      (readMembers (depth + 1)) (readMembers (depth + 1)) := by
  refine (check_counts _).bind fun closed => atEnd_counts.bind fun ended => .ite (.pure rfl) ?_
  refine (accept?_counts _).bind fun keyword => ?_
  cases keyword with
  | none => exact (ih.routine _).bind fun _ => ih.members.bind fun _ => .pure rfl
  | some keyword => exact (ih.routine _).bind fun _ => ih.members.bind fun _ => .pure rfl

theorem readRoutine_counts (ih : StmtCounts k depth) (callable : Callable) :
    Counts k (Routine.numbered (· + k)) (readRoutine (depth + 1) callable)
      (readRoutine (depth + 1) callable) := by
  refine (expect_counts _ _).bind fun name => (check_counts _).bind fun opened => ?_
  have finish : ∀ params : Option (List Token), Counts k (Routine.numbered (· + k))
      (do
        let _ ← expect .leftBrace (.bodyOpen callable)
        return ⟨name, params, ← readBlock depth⟩ : Reader Routine)
      (do
        let _ ← expect .leftBrace (.bodyOpen callable)
        return ⟨name, params, ← readBlock depth⟩ : Reader Routine) :=
    fun params => (expect_counts _ _).bind fun _ => ih.block.bind fun _ => .pure rfl
  have listed : Counts k id (some <$> readParameterList callable)
      (some <$> readParameterList callable) :=
    (readParameterList_counts callable).map fun _ => rfl
  exact .ite (listed.bind finish) (finish none)

theorem readBlock_counts (ih : StmtCounts k depth) :
    Counts k (Stmt.numberedAll (· + k)) (readBlock (depth + 1)) (readBlock (depth + 1)) := by
  refine (check_counts _).bind fun closed => atEnd_counts.bind fun ended => .ite ?_ ?_
  · exact (expect_counts _ _).bind fun _ => .pure rfl
  · exact ih.declaration.bind fun _ => ih.block.bind fun _ => .pure rfl

theorem readStatement_counts (ih : StmtCounts k depth) :
    Counts k (Stmt.numbered (· + k)) (readStatement (depth + 1)) (readStatement (depth + 1)) := by
  refine peek_counts.bind fun t => ?_
  dsimp only [id]
  split
  · exact advance_counts.bind fun _ => (expect_counts _ _).bind fun _ => .pure rfl
  · refine advance_counts.bind fun _ => (expect_counts _ _).bind fun _ => ?_
    have finish : ∀ start : Option Stmt, Counts k (Stmt.numbered (· + k))
        (do
          let condition ← readUnless .semicolon
          let _ ← expect .semicolon .forCondition
          let step ← readUnless .rightParen
          let _ ← expect .rightParen .forClose
          return forLoop start condition step (← readStatement depth) : Reader Stmt)
        (do
          let condition ← readUnless .semicolon
          let _ ← expect .semicolon .forCondition
          let step ← readUnless .rightParen
          let _ ← expect .rightParen .forClose
          return forLoop (start.map (Stmt.numbered (· + k))) condition step
            (← readStatement depth) : Reader Stmt) := fun start =>
      (readUnless_counts _).bind fun _ => (expect_counts _ _).bind fun _ =>
        (readUnless_counts _).bind fun _ => (expect_counts _ _).bind fun _ =>
          ih.statement.bind fun _ => .pure (forLoop_numbered _ _ _ _ _)
    refine peek_counts.bind fun first => ?_
    dsimp only [id]
    split
    · exact advance_counts.bind fun _ => finish none
    · exact advance_counts.bind fun _ =>
        (readVar_counts.map (h := Option.map (Stmt.numbered (· + k))) fun _ => rfl).bind finish
    · exact (readExpressionStatement_counts.map (h := Option.map (Stmt.numbered (· + k)))
        fun _ => rfl).bind finish
  · refine advance_counts.bind fun _ => (expect_counts _ _).bind fun _ =>
      expression_counts.bind fun condition => (expect_counts _ _).bind fun _ =>
        ih.statement.bind fun yes => (accept?_counts _).bind fun keyword => ?_
    have finish : ∀ no : Option Stmt, Counts k (Stmt.numbered (· + k))
        (return .ifElse condition yes no : Reader Stmt)
        (return .ifElse (condition.numbered (· + k)) (yes.numbered (· + k))
          (no.map (Stmt.numbered (· + k))) : Reader Stmt) :=
      fun no => .pure (by cases no <;> rfl)
    cases keyword with
    | none => exact finish none
    | some keyword =>
      exact (ih.statement.map (h := Option.map (Stmt.numbered (· + k))) fun _ => rfl).bind finish
  · exact advance_counts.bind fun _ => (expect_counts _ _).bind fun _ =>
      expression_counts.bind fun _ => (expect_counts _ _).bind fun _ =>
        ih.statement.bind fun _ => .pure rfl
  · exact advance_counts.bind fun _ => (readUnless_counts _).bind fun _ =>
      (expect_counts _ _).bind fun _ => .pure rfl
  · exact advance_counts.bind fun _ => ih.block.bind fun _ => .pure rfl
  · exact advance_counts.bind fun _ => expression_counts.bind fun _ =>
      (expect_counts _ _).bind fun _ => .pure rfl
  · exact readExpressionStatement_counts

theorem stmtCounts (k : Nat) : ∀ depth, StmtCounts k depth
  | 0 => {
      declaration := .recovering (fail_counts _)
      classDecl := fail_counts _
      members := fail_counts _
      routine := fun _ => fail_counts _
      block := fail_counts _
      statement := fail_counts _ }
  | depth + 1 => {
      declaration := readDeclaration_counts (stmtCounts k depth)
      classDecl := readClass_counts (stmtCounts k depth)
      members := readMembers_counts (stmtCounts k depth)
      routine := readRoutine_counts (stmtCounts k depth)
      block := readBlock_counts (stmtCounts k depth)
      statement := readStatement_counts (stmtCounts k depth) }

theorem declaration_counts : Counts k (Stmt.numbered (· + k)) declaration declaration :=
  .get_bind fun c => (stmtCounts k (8 * c.rest.length + 8)).declaration

-- ---------------------------------------------------------------------------
-- Whole sources
-- ---------------------------------------------------------------------------

theorem readProgram_counts (fuel : Nat) (c : Cursor) :
    readProgram fuel (c.further k) =
      (Stmt.numberedAll (· + k) <$> (readProgram fuel c).1, (readProgram fuel c).2.further k) := by
  induction fuel generalizing c with
  | zero => rfl
  | succ fuel ih =>
    unfold readProgram
    show (if c.rest.isEmpty then _ else _) = _
    split
    · rfl
    · rw [declaration_counts c]
      rcases declaration.run.run c with ⟨e | first, c₁⟩
      · show (Except.error e, (readProgram fuel (c₁.further k)).2) = _
        rw [ih]
        rfl
      · simp only [Functor.map, Except.map, ih]
        rcases readProgram fuel c₁ with ⟨_ | _, _⟩ <;> rfl

theorem readLine_counts (fuel : Nat) :
    Counts k (Line.numbered (· + k)) (readLine fuel) (readLine fuel) := by
  induction fuel with
  | zero => exact fail_counts _
  | succ fuel ih =>
    refine atEnd_counts.bind fun ended => .ite (.pure rfl) ?_
    refine declaration_counts.bind fun first => .get_bind fun c => ?_
    have finish {f f' : Line → Reader Line}
        (hbody : ∀ body, Counts k (Line.numbered (· + k)) (f (.statements body))
          (f' (.statements (Stmt.numberedAll (· + k) body))))
        (hlast : ∀ e, Counts k (Line.numbered (· + k)) (f (.expression e))
          (f' (.expression (e.numbered (· + k))))) :
        Counts k (Line.numbered (· + k)) (readLine fuel >>= f) (readLine fuel >>= f') := by
      refine ih.bind fun l => ?_
      cases l with
      | statements body => exact hbody body
      | expression e => exact hlast e
    obtain ⟨rest, stop, lenient, bare, nextId⟩ := c
    cases bare with
    | false => exact finish (fun _ => .pure rfl) fun _ => .pure rfl
    | true =>
      cases first with
      | expression e => exact .pure rfl
      | ifElse condition yes no =>
        cases no with
        | none => exact finish (fun _ => .pure rfl) fun _ => .pure rfl
        | some no => exact finish (fun _ => .pure rfl) fun _ => .pure rfl
      | _ => exact finish (fun _ => .pure rfl) fun _ => .pure rfl

/-- What a whole source is read as, where counting starts later. -/
def Renumbers (g : NodeId → α → α) (read : List Token → NodeId → Except Error α × NodeId) : Prop :=
  ∀ tokens start k, read tokens (start + k) =
    (g k <$> (read tokens start).1, (read tokens start).2 + k)

theorem program_renumbers : Renumbers (fun k => Stmt.numberedAll (· + k)) program := by
  intro tokens start k
  have h : readProgram ((Cursor.ofTokens tokens false (start + k)).rest.length + 1)
      (Cursor.ofTokens tokens false (start + k)) = _ :=
    readProgram_counts _ (Cursor.ofTokens tokens false start)
  simp only [program, h]
  rfl

/-- The result of a reader, and the next node identity behind it. -/
def outcome (r : Reader α) (c : Cursor) : Except Error α × NodeId :=
  ((r.run.run c).1, (r.run.run c).2.nextId)

theorem Counts.outcome {g : α → β} {r : Reader α} {r' : Reader β} (h : Counts k g r r')
    (c : Cursor) : outcome r' (c.further k) = (g <$> (outcome r c).1, (outcome r c).2 + k) := by
  unfold Parser.outcome
  rw [h c]
  rfl

/-- An expression with nothing after it. -/
def readLone : Reader Expr := do
  let e ← expression
  if ← atEnd then return e else fail .trailing

theorem loneExpression_outcome (tokens : List Token) (start : NodeId) :
    loneExpression tokens start = outcome readLone (Cursor.ofTokens tokens false start) := rfl

theorem loneExpression_renumbers : Renumbers (fun k => Expr.numbered (· + k)) loneExpression := by
  intro tokens start k
  have hreader : Counts k (Expr.numbered (· + k)) readLone readLone :=
    expression_counts.bind fun _ => atEnd_counts.bind fun _ => .ite (.pure rfl) (fail_counts _)
  rw [loneExpression_outcome, loneExpression_outcome]
  exact hreader.outcome (Cursor.ofTokens tokens false start)

theorem line_renumbers : Renumbers (fun k => Line.numbered (· + k)) line := fun tokens start _ =>
  (readLine_counts ((Cursor.ofTokens tokens true start).rest.length + 1)).outcome
    (Cursor.ofTokens tokens true start)

/-- Reading uses numbers up, whether it succeeds or not. -/
theorem Renumbers.le {read : List Token → NodeId → Except Error α × NodeId} (h : Renumbers g read)
    (tokens : List Token) (start : NodeId) : start ≤ (read tokens start).2 := by
  have hstart := h tokens 0 start
  rw [Nat.zero_add] at hstart
  rw [hstart]
  exact Nat.le_add_left _ _

end

end Parser

/-- The same source, where counting starts `k` later. -/
def Prepared.later (g : NodeId → α → α) (k : NodeId) (p : Prepared α) : Prepared α :=
  ⟨g k p.tree, Scope.numberedNotes (· + k) p.notes, p.nextId + k⟩

theorem ofSource_later {read : List Token → NodeId → Except Error α × NodeId}
    {walk : α → Except Error (List Scope.Note)} (hread : Parser.Renumbers g read)
    (hwalk : ∀ k tree, Maps (Scope.numberedNotes (· + k)) (walk tree) (walk (g k tree)))
    (source : String) (start k : NodeId) :
    Maps (Prepared.later g k) (Prepared.ofSource read walk source start)
      (Prepared.ofSource read walk source (start + k)) := by
  refine Maps.bind (g := id) (id_map _).symm fun tokens => ?_
  dsimp only [id]
  rw [hread]
  rcases read tokens start with ⟨result, next⟩
  exact Maps.bind rfl fun tree => (hwalk k tree).bind fun notes => .pure rfl

theorem Entry.prepared_later (entry : Entry) (start k : NodeId) :
    Maps (Prepared.later (fun k => Line.numbered (· + k)) k) (entry.prepared start)
      (entry.prepared (start + k)) := by
  cases entry with
  | unit source =>
    exact (ofSource_later Parser.program_renumbers
      (fun k body => walkLine_numbered _ (.statements body)) _ _ _).map fun _ => rfl
  | expression source =>
    exact (ofSource_later Parser.loneExpression_renumbers
      (fun k e => walkLine_numbered _ (.expression e)) _ _ _).map fun _ => rfl
  | line source => exact ofSource_later Parser.line_renumbers (fun k => walkLine_numbered _) _ _ _

end Treewalk
