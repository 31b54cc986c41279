import Treewalk.Proofs.Distances
import Treewalk.Proofs.Moments

/-!
# Histories of a session

A session is entered time and again: with a unit, an expression, or a typed line. Each entry is
prepared, taken into the session, and carried out; whether it succeeds or not, the next one finds
the session as it was left. The reachable sessions are those between entries.
-/

namespace Treewalk

inductive Entry where
  | unit (source : String)
  | expression (source : String)
  | line (source : String)

/-- Runs a source; the value, if any, is what there is to show. -/
def Entry.run (fuel : Nat) : Entry → Run (Option Value)
  | .unit source => do
    Run.unit fuel source
    return none
  | .expression source => some <$> Run.expression fuel source
  | .line source => Run.line fuel source

/-- What a source is before it runs. -/
def Entry.prepared : Entry → NodeId → Except Error (Prepared Line)
  | .unit source, start => (·.mapTree .statements) <$> Prepared.program source start
  | .expression source, start => (·.mapTree .expression) <$> Prepared.loneExpression source start
  | .line source, start => Prepared.line source start

def Line.task : Line → Task
  | .statements body => .interpret body
  | .expression e => .evaluate e

def Line.shown : (l : Line) → l.task.Answer → Option Value
  | .statements _, _ => none
  | .expression _, value => some value

def Session.commit (s : Session) (p : Prepared α) : Session :=
  { s with
    nextId := p.nextId
    distances := p.notes.foldl (fun known (id, distance) => known.insert id distance)
      s.distances }

namespace Run

@[simp] theorem on_commit (p : Prepared α) (s : Session) :
    (commit p).on s = (.ok p.tree, s.commit p) := rfl

theorem on_prepare (ready : NodeId → Except Error (Prepared α)) (s : Session) :
    (prepare ready).on s =
      match ready s.nextId with
      | .ok p => (.ok p.tree, s.commit p)
      | .error e => (.error (.error e), s) := by
  simp only [prepare, on_bind, on_get]
  cases ready s.nextId <;> rfl

theorem on_map (f : α → β) (m : Run α) (s : Session) :
    (f <$> m).on s = ((m.on s).1.map f, (m.on s).2) := by
  rw [map_eq_pure_bind, on_bind]
  rcases m.on s with ⟨_ | _, _⟩ <;> rfl

end Run

namespace Entry

/-- What an entry asks for is carried out in the session that knows it. -/
theorem on_run_ok (entry : Entry) (fuel : Nat) (h : entry.prepared s.nextId = .ok p) :
    (entry.run fuel).on s =
      (((worker fuel p.tree.task).on (s.commit p)).1.map p.tree.shown,
        ((worker fuel p.tree.task).on (s.commit p)).2) := by
  cases entry with
  | unit source =>
    obtain ⟨p, hp, rfl⟩ := map_eq_ok.1 h
    simp only [run, Run.unit, Run.on_bind, Run.on_prepare, hp, Run.executeUnit]
    change _ = (((worker fuel (.interpret p.tree)).on (s.commit p)).1.map _,
      ((worker fuel (.interpret p.tree)).on (s.commit p)).2)
    rcases (worker fuel (.interpret p.tree)).on (s.commit p) with ⟨_ | _, _⟩ <;> rfl
  | expression source =>
    obtain ⟨p, hp, rfl⟩ := map_eq_ok.1 h
    simp only [run, Run.expression, Run.on_map, Run.on_bind, Run.on_prepare, hp]
    rfl
  | line source =>
    have hp : Prepared.line source s.nextId = .ok p := h
    simp only [run, Run.line, Run.on_bind, Run.on_prepare, hp]
    obtain ⟨tree, notes, next⟩ := p
    cases tree with
    | statements body =>
      simp only [Run.executeUnit, Run.on_bind, Line.task]
      rcases (worker fuel (.interpret body)).on _ with ⟨_ | _, _⟩ <;> rfl
    | expression e =>
      simp only [Run.evaluate, Run.on_bind, Line.task]
      rcases (worker fuel (.evaluate e)).on _ with ⟨_ | _, _⟩ <;> rfl

/-- An entry that is refused leaves the session as it was. -/
theorem on_run_error (entry : Entry) (fuel : Nat) (h : entry.prepared s.nextId = .error e) :
    (entry.run fuel).on s = (.error (.error e), s) := by
  cases entry with
  | unit source =>
    simp only [prepared] at h
    cases hp : Prepared.program source s.nextId with
    | ok p => rw [hp] at h; cases h
    | error e' =>
      rw [hp] at h
      cases h
      simp only [run, Run.unit, Run.on_bind, Run.on_prepare, hp]
  | expression source =>
    simp only [prepared] at h
    cases hp : Prepared.loneExpression source s.nextId with
    | ok p => rw [hp] at h; cases h
    | error e' =>
      rw [hp] at h
      cases h
      simp only [run, Run.expression, Run.on_map, Run.on_bind, Run.on_prepare, hp]
      rfl
  | line source =>
    have hp : Prepared.line source s.nextId = .error e := h
    simp only [run, Run.line, Run.on_bind, Run.on_prepare, hp]

theorem checked (entry : Entry) (h : entry.prepared start = .ok p) : Checked start p := by
  cases entry with
  | unit source =>
    obtain ⟨p, hp, rfl⟩ := map_eq_ok.1 h
    exact program_checked hp
  | expression source =>
    obtain ⟨p, hp, rfl⟩ := map_eq_ok.1 h
    exact loneExpression_checked hp
  | line source => exact line_checked h

end Entry

/-- The unit that an entry adds to those of the main program: none if it is refused. -/
def Entry.units (entry : Entry) (s : Session) : List Line :=
  match entry.prepared s.nextId with
  | .ok p => [p.tree]
  | .error _ => []

/-- The sessions between entries, with the units that were entered so far. Time goes on, and what
was printed may be taken away. -/
inductive Reachable : List Line → Session → Prop
  | start : Reachable [] (.start sources refusal clock)
  | run (entry : Entry) (fuel : Nat) : Reachable units s →
    Reachable (entry.units s ++ units) ((entry.run fuel).on s).2
  | told : Reachable units s → Reachable units { s with output := output, clock := clock }

theorem Reachable.entered (h : Reachable units s) (hp : Entry.prepared entry s.nextId = .ok p)
    (fuel : Nat) :
    Reachable (p.tree :: units) ((worker fuel p.tree.task).on (s.commit p)).2 := by
  have hrun := h.run entry fuel
  rwa [entry.on_run_ok fuel hp, Entry.units, hp] at hrun

end Treewalk
