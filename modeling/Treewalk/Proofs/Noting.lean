import Treewalk.Proofs.Growth

/-!
# Distances noted during the walk

A walk over a source may write each distance into the session where it finds it. If it meets a
mistake, what it has written by then stays written. It refuses the sources that the walk refuses
which writes nothing, for the same mistake, and what it writes belongs to nodes of the source.
-/

namespace Treewalk

namespace Run

/-- Notes the distance of a node, if a scope binds its name. -/
def refer (scopes : Scope.Scopes) (node : NodeId) (name : String) : Run Unit :=
  match Scope.distance? scopes name with
  | some distance => note node distance
  | none => return ()

mutual

def noteExpr (around : Scope.Surroundings) (scopes : Scope.Scopes) : Expr → Run Unit
  | .literal _ => return ()
  | .group inner => noteExpr around scopes inner
  | .unary _ right => noteExpr around scopes right
  | .binary _ left right => do
    noteExpr around scopes left
    noteExpr around scopes right
  | .logical _ left right => do
    noteExpr around scopes left
    noteExpr around scopes right
  | .conditional condition yes no => do
    noteExpr around scopes condition
    noteExpr around scopes yes
    noteExpr around scopes no
  | .var node name =>
    if Scope.isPending scopes name.lexeme then raise (.scope name.site .ownInitializer)
    else refer scopes node name.lexeme
  | .assign node name value => do
    noteExpr around scopes value
    refer scopes node name.lexeme
  | .this node keyword =>
    if around.inClass then refer scopes node keyword.lexeme
    else raise (.scope keyword.site .thisOutsideClass)
  | .call callee _ arguments => do
    noteExpr around scopes callee
    noteExprs around scopes arguments
  | .get object _ => noteExpr around scopes object
  | .set object _ value => do
    noteExpr around scopes value
    noteExpr around scopes object
  | .array elements => noteExprs around scopes elements
  | .index target _ position => do
    noteExpr around scopes target
    noteExpr around scopes position

def noteExprs (around : Scope.Surroundings) (scopes : Scope.Scopes) : List Expr → Run Unit
  | [] => return ()
  | e :: rest => do
    noteExpr around scopes e
    noteExprs around scopes rest

end

def noteOption (around : Scope.Surroundings) (scopes : Scope.Scopes) (e : Option Expr) :
    Run Unit :=
  match e with
  | some e => noteExpr around scopes e
  | none => return ()

mutual

/-- Gives the scopes behind the statement. -/
def noteStmt (around : Scope.Surroundings) (scopes : Scope.Scopes) : Stmt → Run Scope.Scopes
  | .expression e => do
    noteExpr around scopes e
    return scopes
  | .print e => do
    noteExpr around scopes e
    return scopes
  | .var name initial => do
    let declared := Scope.enter name.lexeme false scopes
    noteOption around declared initial
    return Scope.enter name.lexeme true declared
  | .block body => do
    let _ ← noteStmts around ([] :: scopes) body
    return scopes
  | .ifElse condition yes no => do
    noteExpr around scopes condition
    let afterYes ← noteStmt around scopes yes
    match no with
    | some no => noteStmt around afterYes no
    | none => return afterYes
  | .whileLoop condition body => do
    noteExpr around scopes condition
    noteStmt { around with inLoop := true } scopes body
  | .breakLoop keyword =>
    if around.inLoop then return scopes else raise (.scope keyword.site .breakOutsideLoop)
  | .function routine => do
    let named := Scope.enter routine.name.lexeme true scopes
    noteRoutine around named routine
    return named
  | .classDecl name methods classMethods => do
    let named := Scope.enter name.lexeme true scopes
    let inside := { around with inClass := true }
    let receiver := [("this", true)] :: named
    noteRoutines inside receiver methods
    noteRoutines inside receiver classMethods
    return named
  | .returnValue keyword value =>
    if around.inFunction then do
      noteOption around scopes value
      return scopes
    else raise (.scope keyword.site .returnOutsideFunction)
  | .importModule _ _ => return scopes
  | .exportDecl _ declaration => noteStmt around scopes declaration

def noteStmts (around : Scope.Surroundings) (scopes : Scope.Scopes) :
    List Stmt → Run Scope.Scopes
  | [] => return scopes
  | s :: rest => do
    let after ← noteStmt around scopes s
    noteStmts around after rest

def noteRoutine (around : Scope.Surroundings) (scopes : Scope.Scopes) : Routine → Run Unit
  | ⟨_, params, body⟩ => do
    let names := (params.getD []).map fun p => (p.lexeme, true)
    let inside := { around with inFunction := true, inLoop := false }
    let _ ← noteStmts inside (names :: scopes) body
    return ()

def noteRoutines (around : Scope.Surroundings) (scopes : Scope.Scopes) : List Routine → Run Unit
  | [] => return ()
  | r :: rest => do
    noteRoutine around scopes r
    noteRoutines around scopes rest

end

/-- Walks a source before it runs. -/
def noteLine : Line → Run Unit
  | .statements body => do
    let _ ← noteStmts .topLevel [] body
    return ()
  | .expression e => noteExpr .topLevel [] e

end Run

-- ---------------------------------------------------------------------------
-- What is written
-- ---------------------------------------------------------------------------

/-- The session with these distances noted, in this order. -/
def Session.noted (s : Session) (notes : List Scope.Note) : Session :=
  { s with
    distances := notes.foldl (fun known (node, distance) => known.insert node distance)
      s.distances }

theorem Session.noted_append (s : Session) (notes more : List Scope.Note) :
    s.noted (notes ++ more) = (s.noted notes).noted more := by
  simp only [Session.noted, List.foldl_append]

theorem noted_of_notMem {ids : List NodeId} {notes : List Scope.Note} {node : NodeId}
    (h : ∀ n ∈ notes, n.1 ∈ ids) (hnode : node ∉ ids) (s : Session) :
    (s.noted notes).distances[node]? = s.distances[node]? := by
  refine foldl_insert_of_not_mem fun hmem => ?_
  obtain ⟨n, hn, rfl⟩ := List.mem_map.1 hmem
  exact hnode (h n hn)

/-- `m` writes notes for nodes among `ids`, no more for a node than there are of it. It stops if `r`
is an error, with this error. Else it gives what `view` sees of the result, which has as notes those
written after its `own`. -/
def Writes (view : β → α × List Scope.Note) (own : List Scope.Note) (ids : List NodeId)
    (m : Run α) (r : Except Error β) : Prop :=
  ∃ notes : List Scope.Note, (notes.map Prod.fst).Subperm ids ∧
    match r with
    | .ok b => (view b).2 = own ++ notes ∧ ∀ s, m.on s = (.ok (view b).1, s.noted notes)
    | .error e => ∀ s, m.on s = (.error (.error e), s.noted notes)

/-- A result that is nothing but notes. -/
def alone (notes : List Scope.Note) : Unit × List Scope.Note :=
  ((), notes)

namespace Writes

variable {view : β → α × List Scope.Note} {own : List Scope.Note} {ids : List NodeId}

theorem mono {m : Run α} {r : Except Error β} (h : Writes view own ids m r)
    (hids : ids.Subperm ids') : Writes view own ids' m r := by
  obtain ⟨notes, hnotes, h⟩ := h
  exact ⟨notes, hnotes.trans hids, h⟩

theorem pure (hb : view b = (a, own)) :
    Writes view own [] (Pure.pure a : Run α) (Pure.pure b : Except Error β) := by
  refine ⟨[], List.nil_subperm, ?_⟩
  simp only [Pure.pure, Except.pure, hb, List.append_nil, true_and]
  exact fun s => rfl

theorem raise (e : Error) :
    Writes view own [] (Run.raise e : Run α) (throw e : Except Error β) :=
  ⟨[], List.nil_subperm, fun _ => rfl⟩

theorem bind {δ : Type} {w : δ → γ × List Scope.Note} {m : Run α} {r : Except Error β}
    {f : α → Run γ} {g : β → Except Error δ} (hm : Writes view [] ids m r)
    (hf : ∀ b, Writes w (own ++ (view b).2) ids' (f (view b).1) (g b)) :
    Writes w own (ids ++ ids') (m >>= f) (r >>= g) := by
  obtain ⟨notes, hnotes, hm⟩ := hm
  cases r with
  | error e =>
    refine ⟨notes, hnotes.trans (List.sublist_append_left ..).subperm, fun s => ?_⟩
    rw [Run.on_bind, hm s]
  | ok b =>
    obtain ⟨hown, hm⟩ := hm
    obtain ⟨more, hmore, hf⟩ := hf b
    refine ⟨notes ++ more, ?_, ?_⟩
    · rw [List.map_append]
      exact hnotes.append hmore
    · have hon : ∀ s, (m >>= f).on s = (f (view b).1).on (s.noted notes) := fun s => by
        rw [Run.on_bind, hm s]
      have hbind : (Except.ok b >>= g) = g b := rfl
      rw [hbind]
      cases hg : g b with
      | error e =>
        rw [hg] at hf
        exact fun s => by rw [hon, hf, Session.noted_append]
      | ok c =>
        rw [hg] at hf
        refine ⟨?_, fun s => by rw [hon, hf.2, Session.noted_append]⟩
        rw [hf.1, hown, List.nil_append, List.append_assoc]

/-- What comes last may give its result in another form. -/
theorem last {δ : Type} {w : δ → α × List Scope.Note} {m : Run α} {r : Except Error β} {k : β → δ}
    (hm : Writes view [] ids m r) (hk : ∀ b, w (k b) = ((view b).1, own ++ (view b).2)) :
    Writes w own ids m (r >>= fun b => Pure.pure (k b)) := by
  obtain ⟨notes, hnotes, hm⟩ := hm
  refine ⟨notes, hnotes, ?_⟩
  cases r with
  | error e => exact hm
  | ok b =>
    obtain ⟨hown, hm⟩ := hm
    refine ⟨?_, fun s => ?_⟩
    · rw [hk, hown, List.nil_append]
    · rw [hm, hk]

/-- A result may be left for another at the end. -/
theorem finish {δ : Type} {w : δ → γ × List Scope.Note} {m : Run α} {r : Except Error β}
    {k : β → δ} {c : γ} (hm : Writes view [] ids m r)
    (hk : ∀ b, w (k b) = (c, own ++ (view b).2)) :
    Writes w own ids (m >>= fun _ => Pure.pure c) (r >>= fun b => Pure.pure (k b)) :=
  (bind hm (f := fun _ => Pure.pure c) fun b => pure (hk b)).mono (by rw [List.append_nil])

theorem refer (scopes : Scope.Scopes) (node : NodeId) (name : String) :
    Writes alone own [node] (Run.refer scopes node name)
      (Pure.pure (own ++ Scope.noteFor scopes node name)) := by
  refine ⟨Scope.noteFor scopes node name, ?_, rfl, fun s => ?_⟩
  · unfold Scope.noteFor
    cases Scope.distance? scopes name with
    | none => exact List.nil_subperm
    | some d => exact .refl [node]
  · unfold Run.refer Scope.noteFor
    cases Scope.distance? scopes name <;> rfl

end Writes

-- ---------------------------------------------------------------------------
-- The walk
-- ---------------------------------------------------------------------------

section
variable (around : Scope.Surroundings) (scopes : Scope.Scopes)

mutual

theorem noteExpr_writes : ∀ e : Expr,
    Writes alone [] e.ids (Run.noteExpr around scopes e) (Scope.walkExpr around scopes e)
  | .literal _ => .pure rfl
  | .group inner => noteExpr_writes inner
  | .unary _ right => noteExpr_writes right
  | .binary _ left right | .logical _ left right =>
    .bind (noteExpr_writes left) fun _ => .last (noteExpr_writes right) fun _ => rfl
  | .conditional condition yes no =>
    Writes.mono (.bind (noteExpr_writes condition) fun _ =>
      .bind (noteExpr_writes yes) fun _ => .last (noteExpr_writes no) fun _ => rfl)
      (by rw [Expr.ids, List.append_assoc])
  | .var node name => by
    unfold Run.noteExpr Scope.walkExpr
    split
    · exact (Writes.raise _).mono List.nil_subperm
    · exact .refer scopes node name.lexeme
  | .assign node name value =>
    .bind (noteExpr_writes value) fun _ => .refer scopes node name.lexeme
  | .this node keyword => by
    unfold Run.noteExpr Scope.walkExpr
    split
    · exact .refer scopes node keyword.lexeme
    · exact (Writes.raise _).mono List.nil_subperm
  | .call callee _ arguments =>
    .bind (noteExpr_writes callee) fun _ => .last (noteExprs_writes arguments) fun _ => rfl
  | .get object _ => noteExpr_writes object
  | .set object _ value =>
    Writes.mono (.bind (noteExpr_writes value) fun _ => .last (noteExpr_writes object) fun _ => rfl)
      List.perm_append_comm.subperm
  | .array elements => noteExprs_writes elements
  | .index target _ position =>
    .bind (noteExpr_writes target) fun _ => .last (noteExpr_writes position) fun _ => rfl

theorem noteExprs_writes : ∀ es : List Expr,
    Writes alone [] (Expr.idsOfAll es) (Run.noteExprs around scopes es)
      (Scope.walkExprs around scopes es)
  | [] => .pure rfl
  | e :: rest => .bind (noteExpr_writes e) fun _ => .last (noteExprs_writes rest) fun _ => rfl

end

theorem noteOption_writes (e : Option Expr) :
    Writes alone [] (Expr.idsOfOption e) (Run.noteOption around scopes e)
      (Scope.walkOption around scopes e) := by
  cases e with
  | none => exact .pure rfl
  | some e => exact noteExpr_writes around scopes e

end

mutual

theorem noteStmt_writes (around : Scope.Surroundings) (scopes : Scope.Scopes) : ∀ s : Stmt,
    Writes id [] s.ids (Run.noteStmt around scopes s) (Scope.walkStmt around scopes s)
  | .expression e => .finish (noteExpr_writes around scopes e) fun _ => rfl
  | .print e => .finish (noteExpr_writes around scopes e) fun _ => rfl
  | .var _ initial => .finish (noteOption_writes around _ initial) fun _ => rfl
  | .block body => .finish (noteStmts_writes around _ body) fun _ => rfl
  | .ifElse condition yes none =>
    Writes.mono (.bind (noteExpr_writes around scopes condition) fun _ =>
      .bind (noteStmt_writes around scopes yes) fun _ => .pure rfl)
      (by rw [Stmt.ids, List.append_nil])
  | .ifElse condition yes (some no) =>
    Writes.mono (.bind (noteExpr_writes around scopes condition) fun _ =>
      .bind (noteStmt_writes around scopes yes) fun behind =>
        .last (noteStmt_writes around behind.1 no) fun _ => rfl)
      (by rw [Stmt.ids, List.append_assoc])
  | .whileLoop condition body =>
    .bind (noteExpr_writes around scopes condition) fun _ =>
      .last (noteStmt_writes _ scopes body) fun _ => rfl
  | .breakLoop _ => by
    unfold Run.noteStmt Scope.walkStmt
    split
    · exact .pure rfl
    · exact .raise _
  | .function routine => .finish (noteRoutine_writes around _ routine) fun _ => rfl
  | .classDecl _ methods classMethods =>
    .bind (noteRoutines_writes _ _ methods) fun _ =>
      .finish (noteRoutines_writes _ _ classMethods) fun _ => rfl
  | .returnValue _ value => by
    unfold Run.noteStmt Scope.walkStmt
    split
    · exact .finish (noteOption_writes around scopes value) fun _ => rfl
    · exact (Writes.raise _).mono List.nil_subperm
  | .importModule _ _ => .pure rfl
  | .exportDecl _ declaration => noteStmt_writes around scopes declaration

theorem noteStmts_writes (around : Scope.Surroundings) (scopes : Scope.Scopes) :
    ∀ body : List Stmt, Writes id [] (Stmt.idsOfAll body) (Run.noteStmts around scopes body)
      (Scope.walkStmts around scopes body)
  | [] => .pure rfl
  | s :: rest =>
    .bind (noteStmt_writes around scopes s) fun behind =>
      .last (noteStmts_writes around behind.1 rest) fun _ => rfl

theorem noteRoutine_writes (around : Scope.Surroundings) (scopes : Scope.Scopes) :
    ∀ r : Routine,
      Writes alone [] r.ids (Run.noteRoutine around scopes r) (Scope.walkRoutine around scopes r)
  | ⟨_, _, body⟩ => .finish (noteStmts_writes _ _ body) fun _ => rfl

theorem noteRoutines_writes (around : Scope.Surroundings) (scopes : Scope.Scopes) :
    ∀ rs : List Routine, Writes alone [] (Routine.idsOfAll rs) (Run.noteRoutines around scopes rs)
      (Scope.walkRoutines around scopes rs)
  | [] => .pure rfl
  | r :: rest =>
    .bind (noteRoutine_writes around scopes r) fun _ =>
      .last (noteRoutines_writes around scopes rest) fun _ => rfl

end

/-- The walk that writes as it goes finds what the other finds, mistakes included. -/
theorem noteLine_writes (l : Line) :
    Writes alone [] l.ids (Run.noteLine l) (Prepared.walkLine l) := by
  cases l with
  | statements body => exact .finish (noteStmts_writes _ _ body) fun _ => rfl
  | expression e => exact noteExpr_writes _ _ e

/-- The notes of a walk belong to nodes of the tree. -/
theorem program_notes (h : Scope.program body = .ok notes) {n : Scope.Note} (hn : n ∈ notes) :
    n.1 ∈ Stmt.idsOfAll body := by
  obtain ⟨written, hids, hwritten⟩ := noteLine_writes (.statements body)
  rw [show Prepared.walkLine (.statements body) = .ok notes from h] at hwritten
  have hnotes : notes = written := hwritten.1
  exact hids.subset (List.mem_map_of_mem (hnotes ▸ hn))

end Treewalk
