import Treewalk.Proofs.Noting
import Treewalk.Proofs.Numbering

/-!
# Sources submitted to a session

A source may be prepared apart from the session and taken into it when it has passed all checks, or
it may be read and walked in the session itself. In the second case a source that is refused leaves
marks: numbers of nodes are used up, and distances may be noted for some of them. Apart from these
marks the two are the same.
-/

namespace Treewalk

namespace Run

/-- Reads a source in the session, and walks over it there before it may run. -/
def submit (read : List Token → NodeId → Except Error α × NodeId) (line : α → Line)
    (source : String) : Run α := do
  let tree ← readUnscoped read source
  noteLine (line tree)
  return tree

/-- An error becomes that of a module. -/
def asModule (path : String) (action : Run α) : Run α :=
  tryCatch action fun
    | .error e => raise (.inModule path e)
    | halt => throw halt

/-- An import that prepares the module in the session. -/
def importInPlace (w : Worker) (site : Site) (path : String) : Run Unit := do
  let s ← get
  if s.modules.contains path then w.splice path
  else
    match s.sources path with
    | none => fail site (.moduleMissing path)
    | some source =>
      let body ← asModule path (submit Parser.program .statements source)
      let frame ← newModuleFrame
      register path frame
      within (.topLevel frame path) (w.interpret body)
      w.splice path

end Run

/-- Carries out a task with modules prepared in the session. -/
def Worker.stepInPlace (w : Worker) : Worker
  | .importModule site path => Run.importInPlace w site path
  | t => w.step t

def workerInPlace : (fuel : Nat) → Worker
  | 0, _ => throw .exhausted
  | fuel + 1, t => (workerInPlace fuel).stepInPlace t

namespace Entry

/-- Prepares an entry in the session. -/
def submit : Entry → Run Line
  | .unit source => .statements <$> Run.submit Parser.program .statements source
  | .expression source => .expression <$> Run.submit Parser.loneExpression .expression source
  | .line source => Run.submit Parser.line id source

/-- Runs a source that is prepared in the session, as are the modules that it imports. -/
def runInPlace (fuel : Nat) (entry : Entry) : Run (Option Value) := do
  let l ← entry.submit
  l.shown <$> workerInPlace fuel l.task

end Entry

-- ---------------------------------------------------------------------------
-- What a submission comes to
-- ---------------------------------------------------------------------------

/-- Numbers for nodes have been used up, and distances may be noted for these nodes. Nothing else
has changed. -/
structure Session.Marked (s s' : Session) : Prop where
  others : { s with nextId := s'.nextId, distances := s'.distances } = s'
  nextId : s.nextId ≤ s'.nextId
  distances : ∀ node : NodeId, node < s.nextId ∨ s'.nextId ≤ node →
    s'.distances[node]? = s.distances[node]?

theorem Session.Marked.refl (s : Session) : s.Marked s :=
  ⟨rfl, Nat.le_refl _, fun _ _ => rfl⟩

/-- A submission succeeds or fails as the preparation does. If it succeeds, the source has been
taken in; if it fails, there may be marks. -/
inductive Submits (m : Run α) (s : Session) : Except Error (Prepared α) → Prop
  | ok : m.on s = (.ok p.tree, s.commit p) → Submits m s (.ok p)
  | error : m.on s = (.error (.error e), s') → s.Marked s' → Submits m s (.error e)

/-- Whole sources are read as trees whose nodes have new numbers. -/
structure ReadsNew (read : List Token → NodeId → Except Error α × NodeId) (line : α → Line) :
    Prop where
  le : ∀ tokens start, start ≤ (read tokens start).2
  fresh : ∀ {tokens start tree next}, read tokens start = (.ok tree, next) →
    Fresh (line tree).ids start next

theorem program_readsNew : ReadsNew Parser.program .statements where
  le := Parser.program_renumbers.le
  fresh h := (Parser.program_makes h).1

theorem loneExpression_readsNew : ReadsNew Parser.loneExpression .expression where
  le := Parser.loneExpression_renumbers.le
  fresh h := Parser.loneExpression_makes h

theorem line_readsNew : ReadsNew Parser.line id where
  le := Parser.line_renumbers.le
  fresh h := (Parser.line_makes h).1

theorem Run.on_readUnscoped {read : List Token → NodeId → Except Error α × NodeId} {s : Session}
    (hscan : Lexer.scan (Text.Utf8.encode source) = .ok tokens)
    (hread : read tokens s.nextId = (result, next)) :
    (Run.readUnscoped read source).on s = (result.mapError .error, { s with nextId := next }) := by
  have hfirst : (Run.ofExcept (Lexer.scan (Text.Utf8.encode source))).on s = (.ok tokens, s) := by
    rw [hscan]
    rfl
  simp only [Run.readUnscoped, Run.on_bind, hfirst, Run.on_get, hread, Run.on_modify]
  cases result <;> rfl

theorem Prepared.ofSource_of_read {read : List Token → NodeId → Except Error α × NodeId}
    {walk : α → Except Error (List Scope.Note)}
    (hscan : Lexer.scan (Text.Utf8.encode source) = .ok tokens)
    (hread : read tokens start = (result, next)) :
    Prepared.ofSource read walk source start = (do
      let tree ← result
      let notes ← walk tree
      return ⟨tree, notes, next⟩) := by
  simp only [Prepared.ofSource, hscan, bind, Except.bind, hread]

/-- Reading and walking in the session comes to what preparing the source apart comes to. -/
theorem submits {read : List Token → NodeId → Except Error α × NodeId} {line : α → Line}
    (h : ReadsNew read line) (source : String) (s : Session) :
    Submits (Run.submit read line source) s
      (Prepared.ofSource read (fun tree => Prepared.walkLine (line tree)) source s.nextId) := by
  cases hscan : Lexer.scan (Text.Utf8.encode source) with
  | error e =>
    rw [Prepared.ofSource, hscan]
    refine .error ?_ (.refl s)
    rw [Run.submit, Run.on_bind, Run.readUnscoped, Run.on_bind, hscan]
    rfl
  | ok tokens =>
    rcases hread : read tokens s.nextId with ⟨result, next⟩
    have hon := Run.on_readUnscoped hscan hread
    have hle : s.nextId ≤ next := by
      have := h.le tokens s.nextId
      rwa [hread] at this
    rw [Prepared.ofSource_of_read hscan hread]
    cases result with
    | error e =>
      have hmarked : s.Marked { s with nextId := next } := ⟨rfl, hle, fun _ _ => rfl⟩
      refine .error ?_ hmarked
      rw [Run.submit, Run.on_bind, hon]
      rfl
    | ok tree =>
      have hbind : (Run.submit read line source).on s =
          (do Run.noteLine (line tree); return tree : Run α).on { s with nextId := next } := by
        rw [Run.submit, Run.on_bind, hon]
        rfl
      obtain ⟨notes, hnotes, hwalk⟩ := noteLine_writes (line tree)
      show Submits _ _ (do
        let notes ← Prepared.walkLine (line tree)
        return ⟨tree, notes, next⟩)
      cases hline : Prepared.walkLine (line tree) with
      | error e =>
        rw [hline] at hwalk
        have hfresh := h.fresh hread
        have hmarked : s.Marked ({ s with nextId := next }.noted notes) := by
          refine ⟨rfl, hle, fun node hnode => ?_⟩
          have hids : ∀ n ∈ notes, n.1 ∈ (line tree).ids := fun n hn =>
            hnotes.subset (List.mem_map_of_mem hn)
          refine noted_of_notMem hids (fun hmem => ?_) { s with nextId := next }
          obtain ⟨hlow, hhigh⟩ := hfresh.range node hmem
          exact hnode.elim (Nat.not_lt.2 hlow) (Nat.not_le.2 hhigh)
        refine .error ?_ hmarked
        rw [hbind, Run.on_bind, hwalk]
      | ok own =>
        rw [hline] at hwalk
        obtain ⟨hown, hwalk⟩ := hwalk
        obtain rfl : own = notes := hown
        refine Submits.ok (p := ⟨tree, own, next⟩) ?_
        rw [hbind, Run.on_bind, hwalk]
        rfl

theorem submits_program (source : String) (s : Session) :
    Submits (Run.submit Parser.program .statements source) s
      (Prepared.program source s.nextId) :=
  submits program_readsNew source s

theorem Submits.map {m : Run α} {s : Session} {r : Except Error (Prepared α)} {f : α → β}
    (h : Submits m s r) : Submits (f <$> m) s (Prepared.mapTree f <$> r) := by
  cases h with
  | ok hm =>
    refine .ok ?_
    rw [Run.on_map, hm]
    rfl
  | error hm hmarked =>
    refine .error ?_ hmarked
    rw [Run.on_map, hm]
    rfl

theorem Entry.submits (entry : Entry) (s : Session) :
    Submits entry.submit s (entry.prepared s.nextId) := by
  cases entry with
  | unit source => exact (submits_program source s).map
  | expression source => exact (Treewalk.submits loneExpression_readsNew source s).map
  | line source => exact Treewalk.submits line_readsNew source s

theorem Run.on_asModule (path : String) (m : Run α) (s : Session) :
    (Run.asModule path m).on s =
      match m.on s with
      | (.error (.error e), s') => (.error (.error (.inModule path e)), s')
      | other => other := by
  show (tryCatch m _).on s = _
  simp only [Run.on, tryCatch, tryCatchThe, MonadExceptOf.tryCatch, ExceptT.tryCatch, ExceptT.run,
    ExceptT.mk, StateT.run, StateT.bind, Bind.bind]
  rcases m s with ⟨(e | _ | _) | a, s'⟩ <;> rfl

end Treewalk
