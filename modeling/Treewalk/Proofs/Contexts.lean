import Treewalk.Proofs.Changes

/-!
# Contexts are given back

Blocks, calls and modules run in contexts of their own, inside one another to any depth. However a
task ends, in a flow, with a value, or with an error from deep within, the session is afterwards in
the context that the task began in. So between entries a session is always at the top level of the
main program.
-/

namespace Treewalk

theorem kept_true : Kept fun _ => True where
  change _ _ := trivial
  enter _ := trivial
  load _ _ _ _ := trivial
  back _ _ _ := trivial

/-- Whatever a task ends in, it leaves a session that grew, in the context that it began in. -/
theorem worker_later (fuel : Nat) (t : Task) (s : Session) :
    s.Later ((worker fuel t).on s).2 :=
  (kept_true.after fuel t trivial).2

theorem Run.inSequence_later (fuel : Nat) (body : List Stmt) (s : Session) :
    s.Later ((inSequence (worker fuel).execute body).on s).2 :=
  ((Steady.inSequence (Kept.executes (kept_true.run fuel)) body).leaves trivial).2

theorem Entry.run_later (entry : Entry) (fuel : Nat) (s : Session) :
    s.Later ((entry.run fuel).on s).2 := by
  cases hp : entry.prepared s.nextId with
  | error e =>
    rw [entry.on_run_error fuel hp]
    exact .refl s
  | ok p =>
    rw [entry.on_run_ok fuel hp]
    have hcommit : s.Later (s.commit p) := ⟨.commit (entry.checked hp), rfl⟩
    exact hcommit.trans (worker_later fuel p.tree.task (s.commit p))

/-- In every session, each task gives the context back that it began in, however it ends; so does
each entry. Between entries, whatever the entries ended in, code is at the top level of the main
program: its frame and its globals are the root, and no module is being loaded. -/
theorem context_is_given_back (fuel : Nat) :
    (∀ (t : Task) (s : Session), ((worker fuel t).on s).2.context = s.context) ∧
    (∀ (entry : Entry) (s : Session), ((entry.run fuel).on s).2.context = s.context) ∧
    ∀ units s, Reachable units s → ∀ entry : Entry,
      ((entry.run fuel).on s).2.context = ⟨rootFrame, rootFrame, []⟩ := by
  refine ⟨fun t s => (worker_later fuel t s).context,
    fun entry s => (entry.run_later fuel s).context, fun units s hs entry => ?_⟩
  rw [(entry.run_later fuel s).context]
  induction hs with
  | start => rfl
  | told _ ih => exact ih
  | @run units s earlier fuel' _ ih => rw [(earlier.run_later fuel' s).context, ih]

/-- A function whose call fails inside a block. -/
def failing : Prepared Line :=
  ⟨.statements [.function ⟨⟨.identifier, "f", 1⟩, some [],
      [.block [.expression (.var 0 ⟨.identifier, "a", 1⟩)]]⟩,
    .expression (.call (.var 1 ⟨.identifier, "f", 1⟩) ⟨.rightParen, ")", 1⟩ [])], [], 2⟩

/-- The call fails two frames away from the top level, and the session is back there. -/
theorem failing_call_gives_context_back :
    ((Entry.run 8 (.unit "fun f()\x7b\x7ba;\x7d\x7df();")).on
        (.start (fun _ => none) none (.still 0))).1 =
      .error (.error (.runtime ⟨1, "a"⟩ (.undefinedVariable "a"))) ∧
    ((Entry.run 8 (.unit "fun f()\x7b\x7ba;\x7d\x7df();")).on
        (.start (fun _ => none) none (.still 0))).2.context = ⟨rootFrame, rootFrame, []⟩ := by
  have hp : (Entry.unit "fun f()\x7b\x7ba;\x7d\x7df();").prepared 0 = .ok failing := by
    decide +kernel
  have hrun : ((worker 8 failing.tree.task).on
      ((Session.start (fun _ => none) none (.still 0)).commit failing)).1 =
        .error (.error (.runtime ⟨1, "a"⟩ (.undefinedVariable "a"))) := by cbv
  refine ⟨?_, (context_is_given_back 8).2.2 [] _ .start _⟩
  rw [Entry.on_run_ok (s := .start (fun _ => none) none (.still 0)) _ _ hp, hrun]
  rfl

end Treewalk
