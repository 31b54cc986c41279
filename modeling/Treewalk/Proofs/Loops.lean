import Treewalk.Proofs.Direct
import Treewalk.Proofs.Parsable

/-!
# `for` statements

A `for` statement is read as a loop in a block. Here is what it means as it is written: the start,
in a scope of its own; then, as long as the condition holds, the body, and behind it the step,
unless the body has been left. The rules know nothing of allowances: they speak of what tasks end in
if they are allowed enough. The loop that a `for` statement is read as ends in what the rules give,
and in nothing else. Its rounds have frames, for which the rules have no use: only their numbers are
passed over.
-/

namespace Treewalk

-- ---------------------------------------------------------------------------
-- More allowance
-- ---------------------------------------------------------------------------

/-- The first computation goes as the second one does, if it is not exhausted on the way. -/
def Run.Sooner (m m' : Run α) : Prop :=
  ∀ s, m.on s = m'.on s ∨ (m.on s).1 = .error .exhausted

namespace Run.Sooner

variable {m m' : Run α} {f f' : α → Run β}

theorem refl (m : Run α) : m.Sooner m :=
  fun _ => .inl rfl

theorem exhausted (m : Run α) : (throw .exhausted : Run α).Sooner m :=
  fun _ => .inr rfl

theorem bind (hm : m.Sooner m') (hf : ∀ a, (f a).Sooner (f' a)) : (m >>= f).Sooner (m' >>= f') := by
  intro s
  rcases hm s with hsame | hexhausted
  · rw [on_bind, on_bind, hsame]
    rcases m'.on s with ⟨_ | a, s₁⟩
    · exact .inl rfl
    · exact hf a s₁
  · exact .inr (on_bind_error hexhausted)

theorem inSequence {action action' : Stmt → Run Flow} (h : ∀ st, (action st).Sooner (action' st))
    (body : List Stmt) : (Run.inSequence action body).Sooner (Run.inSequence action' body) := by
  induction body with
  | nil => exact refl _
  | cons st rest ih =>
    refine (h st).bind fun flow => ?_
    cases flow with
    | normal => exact ih
    | breaking | returning => exact refl _

end Run.Sooner

/-- A step of the evaluator goes further with a worker that does. -/
theorem Worker.step_sooner {w w' : Worker} (hw : ∀ t, (w t).Sooner (w' t)) (t : Task) :
    (w.step t).Sooner (w'.step t) := by
  intro s
  obtain ⟨σ, hplay, -⟩ := step_follows t s
  rw [hplay, hplay]
  exact σ.play_or_stops hw

theorem Worker.direct_sooner {w w' : Worker} (hw : ∀ t, (w t).Sooner (w' t)) (chosen : Stmt → Bool)
    (t : Task) : (w.direct chosen t).Sooner (w'.direct chosen t) := by
  unfold Worker.direct
  split
  · exact .refl _
  · exact .refl _
  · exact (hw _).bind fun _ => .refl _
  · split
    · exact (Run.Sooner.refl _).bind fun _ => .inSequence (fun st => hw (.execute st)) _
    · exact step_sooner hw (.execute _)
  · exact step_sooner hw _

theorem directWorker_sooner {chosen : Stmt → Bool} (hle : n ≤ k) (t : Task) :
    (directWorker chosen n t).Sooner (directWorker chosen k t) := by
  induction n generalizing k t with
  | zero => exact .exhausted _
  | succ n ih =>
    obtain ⟨k, rfl⟩ := Nat.exists_eq_succ_of_ne_zero (Nat.ne_zero_of_lt hle)
    exact Worker.direct_sooner (ih (Nat.le_of_succ_le_succ hle)) chosen t

-- ---------------------------------------------------------------------------
-- What comes of a task
-- ---------------------------------------------------------------------------

/-- If it is allowed enough, the worker ends the task with this result, and leaves this session. -/
def Finishes (w : Nat → Worker) (t : Task) (s : Session) (r : Except Error t.Answer)
    (s' : Session) : Prop :=
  ∃ n, (w n t).on s = (r.mapError .error, s')

/-- Either the first part of a computation fails, or it gives what the second part goes on with. -/
theorem Run.on_bind_ended {m : Run α} {f : α → Run β} {r : Except Error β}
    (h : (m >>= f).on s = (r.mapError .error, s')) :
    (∃ e, m.on s = (.error (.error e), s') ∧ r = .error e) ∨
      ∃ a s₁, m.on s = (.ok a, s₁) ∧ (f a).on s₁ = (r.mapError .error, s') := by
  rw [on_bind] at h
  rcases hm : m.on s with ⟨halt | a, s₁⟩
  · rw [hm] at h
    cases r with
    | error e =>
      cases h
      exact .inl ⟨e, rfl, rfl⟩
    | ok b => cases h
  · rw [hm] at h
    exact .inr ⟨a, s₁, rfl, h⟩

namespace Finishes

variable {chosen : Stmt → Bool} {t : Task} {r : Except Error t.Answer}

theorem eventually (h : Finishes (directWorker chosen) t s r s') :
    ∀ᶠ n in Filter.atTop, (directWorker chosen n t).on s = (r.mapError .error, s') := by
  obtain ⟨n, hn⟩ := h
  filter_upwards [Filter.eventually_ge_atTop n] with k hle
  rcases directWorker_sooner hle t s with hsame | hexhausted
  · rw [← hsame, hn]
  · rw [hn] at hexhausted
    cases r <;> cases hexhausted

theorem of_eventually (h : ∀ᶠ n in Filter.atTop,
      ((directWorker chosen n).direct chosen t).on s = (r.mapError .error, s')) :
    Finishes (directWorker chosen) t s r s' := by
  obtain ⟨n, hn⟩ := h.exists
  exact ⟨n + 1, hn⟩

/-- Nothing ends without some allowance. -/
theorem exists_direct (h : Finishes (directWorker chosen) t s r s') :
    ∃ n, ((directWorker chosen n).direct chosen t).on s = (r.mapError .error, s') := by
  obtain ⟨n, hn⟩ := h
  cases n with
  | zero => cases r <;> cases hn
  | succ n => exact ⟨n, hn⟩

end Finishes

-- ---------------------------------------------------------------------------
-- `for` statements as they are written
-- ---------------------------------------------------------------------------

/-- The session in which the body of a round begins. Where there is a step, the number of the frame
that the round would have is passed over. -/
def Session.inRound (step : Option Expr) (s : Session) : Session :=
  match step with
  | some _ => { s with frames := s.frames.add none none }
  | none => s

/-- The session in a new scope. -/
def Session.inScope (opener : Opener) (s : Session) : Session :=
  { s with
    frames := s.frames.addScope s.context.frame opener
    context := { s.context with frame := s.frames.next } }

/-- The session behind a scope that was opened in the frame `outer`. -/
def Session.outOfScope (s : Session) (outer : FrameId) : Session :=
  { s with context := { s.context with frame := outer } }

section
variable (w : Nat → Worker)

/-- Whether another round is due; without condition it always is. -/
inductive Tests : Option Expr → Session → Except Error Bool → Session → Prop
  | always : Tests none s (.ok true) s
  | given : Finishes w (.evaluate e) s r s' → Tests (some e) s (r.map Value.isTruthy) s'

/-- The step, if there is one. -/
inductive Steps : Option Expr → Session → Except Error Unit → Session → Prop
  | none : Steps none s (.ok ()) s
  | given : Finishes w (.evaluate e) s r s' → Steps (some e) s (r.map fun _ => ()) s'

variable (condition step : Option Expr) (body : Stmt)

/-- One round: the body, and the step behind it unless the body fails or is left. -/
inductive Rounds : Session → Except Error Flow → Session → Prop
  | failed : Finishes w (.execute body) (s.inRound step) (.error e) s' → Rounds s (.error e) s'
  | broken : Finishes w (.execute body) (s.inRound step) (.ok .breaking) s' →
    Rounds s (.ok .breaking) s'
  | returned : Finishes w (.execute body) (s.inRound step) (.ok (.returning v)) s' →
    Rounds s (.ok (.returning v)) s'
  | stepped : Finishes w (.execute body) (s.inRound step) (.ok .normal) s₁ → Steps w step s₁ r s' →
    Rounds s (r.map fun _ => .normal) s'

/-- A `for` statement from its condition on. What leaves a round leaves the loop at once: a `break`
goes no further. -/
inductive Cycles : Session → Except Error Flow → Session → Prop
  | untested : Tests w condition s (.error e) s' → Cycles s (.error e) s'
  | ended : Tests w condition s (.ok false) s' → Cycles s (.ok .normal) s'
  | failed : Tests w condition s (.ok true) s₁ → Rounds w step body s₁ (.error e) s' →
    Cycles s (.error e) s'
  | broken : Tests w condition s (.ok true) s₁ → Rounds w step body s₁ (.ok .breaking) s' →
    Cycles s (.ok .normal) s'
  | returned : Tests w condition s (.ok true) s₁ → Rounds w step body s₁ (.ok (.returning v)) s' →
    Cycles s (.ok (.returning v)) s'
  | again : Tests w condition s (.ok true) s₁ → Rounds w step body s₁ (.ok .normal) s₂ →
    Cycles s₂ r s' → Cycles s r s'

/-- A `for` statement. A start runs once, in a scope around all rounds. -/
inductive Loops : Option Stmt → Session → Except Error Flow → Session → Prop
  | bare : Cycles w condition step body s r s' → Loops none s r s'
  | unstarted : Finishes w (.execute first)
      (s.inScope (.block [first, Parser.forLoop none condition step body])) (.error e) s' →
    Loops (some first) s (.error e) (s'.outOfScope s.context.frame)
  | started : Finishes w (.execute first)
      (s.inScope (.block [first, Parser.forLoop none condition step body])) (.ok .normal) s₁ →
    Cycles w condition step body s₁ r s' →
    Loops (some first) s r (s'.outOfScope s.context.frame)

end

-- ---------------------------------------------------------------------------
-- What the loop comes to
-- ---------------------------------------------------------------------------

/-- The rounds of a `for` statement as a statement of their own. -/
def Stmt.lap (step : Option Expr) (body : Stmt) : Stmt :=
  match step with
  | some e => .block [body, .expression e]
  | none => body

theorem forLoop_none (condition step : Option Expr) (body : Stmt) :
    Parser.forLoop none condition step body =
      .whileLoop (condition.getD (.literal (.bool true))) (.lap step body) := by
  cases step <;> rfl

theorem forLoop_some (first : Stmt) (condition step : Option Expr) (body : Stmt) :
    Parser.forLoop (some first) condition step body =
      .block [first, Parser.forLoop none condition step body] := by
  cases step <;> rfl

variable {chosen : Stmt → Bool} {s s' : Session}

theorem tests_iff : Tests (directWorker chosen) condition s b s' ↔
    ∃ r, Finishes (directWorker chosen)
      (.evaluate (condition.getD (.literal (.bool true)))) s r s' ∧
      b = r.map Value.isTruthy := by
  constructor
  · intro h
    cases h with
    | always => exact ⟨.ok (.bool true), ⟨1, rfl⟩, rfl⟩
    | given hvalue => exact ⟨_, hvalue, rfl⟩
  · rintro ⟨r, h, rfl⟩
    cases condition with
    | some e => exact .given h
    | none =>
      obtain ⟨n, hn⟩ := h.exists_direct
      cases r <;> cases hn
      exact .always

/-- An expression is a statement that ends normally if its value is found. -/
theorem finishes_expression_iff : Finishes (directWorker chosen) (.execute (.expression e)) s r s' ↔
    ∃ x, Finishes (directWorker chosen) (.evaluate e) s x s' ∧ r = x.map fun _ => .normal := by
  constructor
  · intro h
    obtain ⟨n, hn⟩ := h.exists_direct
    obtain ⟨e', hvalue, rfl⟩ | ⟨v, s₁, hvalue, hrest⟩ := Run.on_bind_ended hn
    · exact ⟨.error e', ⟨n, hvalue⟩, rfl⟩
    · cases r <;> cases hrest
      exact ⟨.ok v, ⟨n, hvalue⟩, rfl⟩
  · rintro ⟨x, h, rfl⟩
    refine .of_eventually ?_
    filter_upwards [h.eventually] with n hn
    show (Run.executeWith _ (.expression e)).on s = _
    rw [Run.executeWith, Run.on_bind, hn]
    cases x <;> rfl

/-- A body, and a step behind it, in turn. -/
theorem direct_lap (hkeeps : body.keepsScope = true)
    (hchosen : chosen (.block [body, .expression e]) = true) (w : Worker) (s : Session) :
    (w.direct chosen (.execute (.lap (some e) body))).on s =
      (Run.inSequence w.execute [body, .expression e]).on (s.inRound (some e)) := by
  have hround : (Stmt.block [body, .expression e]).round? chosen = some (body, e) := by
    simp [Stmt.round?, hkeeps, hchosen]
  rw [Stmt.lap, Worker.direct, hround]
  rfl

/-- What is left of statements in a row depends on the flow of the first. -/
theorem Run.on_inSequence_cons (action : Stmt → Run Flow) (first : Stmt) (rest : List Stmt)
    (s : Session) : (Run.inSequence action (first :: rest)).on s =
      match (action first).on s with
      | (.ok .normal, s') => (Run.inSequence action rest).on s'
      | (.ok flow, s') => (.ok flow, s')
      | (.error h, s') => (.error h, s') := by
  rw [Run.inSequence, Run.on_bind]
  rcases (action first).on s with ⟨_ | _ | _ | _, s'⟩ <;> rfl

theorem Run.on_inSequence_single (action : Stmt → Run Flow) (last : Stmt) (s : Session) :
    (Run.inSequence action [last]).on s = (action last).on s := by
  rw [on_inSequence_cons]
  rcases (action last).on s with ⟨_ | _ | _ | _, s'⟩ <;> rfl

theorem rounds_iff (hround : ∀ e, step = some e →
      body.keepsScope = true ∧ chosen (.block [body, .expression e]) = true) :
    Finishes (directWorker chosen) (.execute (.lap step body)) s r s' ↔
      Rounds (directWorker chosen) step body s r s' := by
  cases step with
  | none =>
    constructor
    · intro h
      rcases r with e | _ | _ | v
      · exact .failed h
      · exact .stepped h .none
      · exact .broken h
      · exact .returned h
    · intro h
      cases h with
      | failed hbody | broken hbody | returned hbody => exact hbody
      | stepped hbody hstep =>
        cases hstep
        exact hbody
  | some e =>
    obtain ⟨hkeeps, hchosen⟩ := hround e rfl
    constructor
    · intro h
      obtain ⟨n, hn⟩ := h.exists_direct
      rw [direct_lap hkeeps hchosen, Run.on_inSequence_cons] at hn
      rcases hbody : (directWorker chosen n (.execute body)).on (s.inRound (some e)) with
        ⟨halt | _ | _ | v, s₁⟩ <;> simp only [hbody] at hn
      · cases r <;> cases hn
        exact .failed ⟨n, hbody⟩
      · rw [Run.on_inSequence_single] at hn
        obtain ⟨x, hvalue, rfl⟩ := finishes_expression_iff.1 ⟨n, hn⟩
        have hround := Rounds.stepped ⟨n, hbody⟩ (.given hvalue)
        cases x <;> exact hround
      · cases r <;> cases hn
        exact .broken ⟨n, hbody⟩
      · cases r <;> cases hn
        exact .returned ⟨n, hbody⟩
    · intro h
      refine .of_eventually ?_
      cases h with
      | failed hbody | broken hbody | returned hbody =>
        filter_upwards [hbody.eventually] with n hn
        rw [direct_lap hkeeps hchosen, Run.on_inSequence_cons, hn]
        rfl
      | stepped hbody hstep =>
        cases hstep with
        | @given _ _ x _ hvalue =>
          have hlast := finishes_expression_iff.2 ⟨x, hvalue, rfl⟩
          filter_upwards [hbody.eventually, hlast.eventually] with n hn hlast
          rw [direct_lap hkeeps hchosen, Run.on_inSequence_cons, hn]
          simp only [Except.mapError, Run.on_inSequence_single, hlast]
          cases x <;> rfl

/-- A truth value is that of a value. -/
theorem tested_value (h : Tests (directWorker chosen) condition s (.ok b) s') :
    ∃ v, Finishes (directWorker chosen) (.evaluate (condition.getD (.literal (.bool true)))) s
      (.ok v) s' ∧ v.isTruthy = b := by
  obtain ⟨r, hr, hb⟩ := tests_iff.1 h
  cases r <;> cases hb
  exact ⟨_, hr, rfl⟩

theorem Run.on_loopWith_ended {w : Worker} (htest : (w.evaluate c).on s = (.ok v, s'))
    (hv : v.isTruthy = false) : (loopWith w c st).on s = (.ok .normal, s') := by
  rw [loopWith, on_bind, htest]
  simp only [hv, Bool.false_eq_true, if_false]
  rfl

/-- What is left of a loop in which another round is due depends on the flow of that round. -/
theorem Run.on_loopWith_due {w : Worker} (htest : (w.evaluate c).on s = (.ok v, s'))
    (hv : v.isTruthy = true) : (loopWith w c st).on s =
      match (w.execute st).on s' with
      | (.ok .normal, s₁) => (w.loop c st).on s₁
      | (.ok .breaking, s₁) => (.ok .normal, s₁)
      | (.ok (.returning value), s₁) => (.ok (.returning value), s₁)
      | (.error h, s₁) => (.error h, s₁) := by
  rw [loopWith, on_bind, htest]
  simp only [hv, if_true]
  rw [on_bind]
  rcases (w.execute st).on s' with ⟨_ | _ | _ | _, s₁⟩ <;> rfl

/-- A loop as a statement. -/
theorem finishes_while_iff : Finishes (directWorker chosen) (.execute (.whileLoop c st)) s r s' ↔
    Finishes (directWorker chosen) (.loop c st) s r s' := by
  constructor
  · exact fun h => h.exists_direct
  · rintro ⟨n, hn⟩
    exact ⟨n + 1, hn⟩

section
variable (hround : ∀ e, step = some e →
  body.keepsScope = true ∧ chosen (.block [body, .expression e]) = true)
include hround

/-- By induction on the allowance: a test, a round, and what is left. -/
theorem cycles_of_loop (n : Nat) (h : (directWorker chosen n (.loop
      (condition.getD (.literal (.bool true))) (.lap step body))).on s = (r.mapError .error, s')) :
    Cycles (directWorker chosen) condition step body s r s' := by
  induction n generalizing s with
  | zero => cases r <;> cases h
  | succ n ih =>
    have tested {x : Except Error Value} {s₁} (hx : (directWorker chosen n
        (.evaluate (condition.getD (.literal (.bool true))))).on s = (x.mapError .error, s₁)) :
        Tests (directWorker chosen) condition s (x.map Value.isTruthy) s₁ :=
      tests_iff.2 ⟨x, ⟨n, hx⟩, rfl⟩
    obtain ⟨e, htest, rfl⟩ | ⟨v, s₁, htest, hrest⟩ := Run.on_bind_ended h
    · exact .untested (tested (x := .error e) htest)
    · have hdue := tested (x := .ok v) htest
      split at hrest
      · next htruthy =>
        rw [Except.map, htruthy] at hdue
        have ran {x : Except Error Flow} {s₂} (hx : (directWorker chosen n
            (.execute (.lap step body))).on s₁ = (x.mapError .error, s₂)) :
            Rounds (directWorker chosen) step body s₁ x s₂ :=
          (rounds_iff hround).1 ⟨n, hx⟩
        obtain ⟨e, hlap, rfl⟩ | ⟨flow, s₂, hlap, hrest⟩ := Run.on_bind_ended hrest
        · exact .failed hdue (ran (x := .error e) hlap)
        · have hran := ran (x := .ok flow) hlap
          cases flow with
          | normal => exact .again hdue hran (ih hrest)
          | breaking =>
            cases r <;> cases hrest
            exact .broken hdue hran
          | returning v =>
            cases r <;> cases hrest
            exact .returned hdue hran
      · next hfalsy =>
        rw [Except.map, Bool.eq_false_of_not_eq_true hfalsy] at hdue
        cases r <;> cases hrest
        exact .ended hdue

/-- By induction on the rounds: once the allowance is enough for each of them, it is enough for
all. -/
theorem loop_of_cycles (h : Cycles (directWorker chosen) condition step body s r s') :
    Finishes (directWorker chosen) (.loop (condition.getD (.literal (.bool true)))
      (.lap step body)) s r s' := by
  induction h with
  | untested htest =>
    obtain ⟨x, htest, hx⟩ := tests_iff.1 htest
    refine .of_eventually ?_
    filter_upwards [htest.eventually] with n hn
    cases x <;> cases hx
    show (Run.loopWith _ _ _).on _ = _
    rw [Run.loopWith, Run.on_bind, hn]
    rfl
  | ended htest =>
    obtain ⟨v, htest, hv⟩ := tested_value htest
    refine .of_eventually ?_
    filter_upwards [htest.eventually] with n hn
    exact Run.on_loopWith_ended hn hv
  | failed htest hran =>
    obtain ⟨v, htest, hv⟩ := tested_value htest
    refine .of_eventually ?_
    filter_upwards [htest.eventually, ((rounds_iff hround).2 hran).eventually] with n hn hlap
    refine (Run.on_loopWith_due hn hv).trans ?_
    rw [Worker.execute, hlap]
    rfl
  | broken htest hran =>
    obtain ⟨v, htest, hv⟩ := tested_value htest
    refine .of_eventually ?_
    filter_upwards [htest.eventually, ((rounds_iff hround).2 hran).eventually] with n hn hlap
    refine (Run.on_loopWith_due hn hv).trans ?_
    rw [Worker.execute, hlap]
    rfl
  | returned htest hran =>
    obtain ⟨v, htest, hv⟩ := tested_value htest
    refine .of_eventually ?_
    filter_upwards [htest.eventually, ((rounds_iff hround).2 hran).eventually] with n hn hlap
    refine (Run.on_loopWith_due hn hv).trans ?_
    rw [Worker.execute, hlap]
    rfl
  | again htest hran _ ih =>
    obtain ⟨v, htest, hv⟩ := tested_value htest
    refine .of_eventually ?_
    filter_upwards [htest.eventually, ((rounds_iff hround).2 hran).eventually, ih.eventually]
      with n hn hlap hrest
    refine (Run.on_loopWith_due hn hv).trans ?_
    rw [Worker.execute, hlap]
    exact hrest

theorem cycles_iff : Finishes (directWorker chosen)
      (.execute (Parser.forLoop none condition step body)) s r s' ↔
    Cycles (directWorker chosen) condition step body s r s' := by
  rw [forLoop_none, finishes_while_iff]
  exact ⟨fun ⟨n, hn⟩ => cycles_of_loop hround n hn, loop_of_cycles hround⟩

end

theorem Run.on_block (w : Worker) (body : List Stmt) (s : Session) :
    (executeWith w (.block body)).on s =
      (((inSequence w.execute body).on (s.inScope (.block body))).1,
        ((inSequence w.execute body).on (s.inScope (.block body))).2.outOfScope
          s.context.frame) := rfl

/-- Two statements in a scope, if they are no round. -/
theorem direct_pair (hround : (Stmt.block [first, last]).round? chosen = none) (w : Worker)
    (s : Session) : (w.direct chosen (.execute (.block [first, last]))).on s =
      match (w (.execute first)).on (s.inScope (.block [first, last])) with
      | (.ok .normal, s₁) => (((w (.execute last)).on s₁).1,
          ((w (.execute last)).on s₁).2.outOfScope s.context.frame)
      | (r, s₁) => (r, s₁.outOfScope s.context.frame) := by
  rw [Worker.direct, hround]
  dsimp only
  rw [Run.on_block, Run.on_inSequence_cons, Worker.execute]
  rcases (w (.execute first)).on (s.inScope (.block [first, last])) with ⟨_ | _ | _ | _, s₁⟩
  · rfl
  · simp only [Run.on_inSequence_single, Worker.execute]
  · rfl
  · rfl

/-- What can stand as the start of a `for` statement. -/
def Stmt.isStart : Stmt → Bool
  | .var _ _ | .expression _ => true
  | _ => false

def Starts (start : Option Stmt) : Prop :=
  ∀ first, start = some first → first.isStart = true

/-- Nothing is left at the start. -/
theorem finishes_start (hstart : first.isStart = true)
    (h : Finishes (directWorker chosen) (.execute first) s (.ok flow) s') : flow = .normal := by
  cases first with
  | expression e =>
    obtain ⟨x, -, hx⟩ := finishes_expression_iff.1 h
    cases x <;> cases hx
    rfl
  | var name initial =>
    obtain ⟨n, hn⟩ := h.exists_direct
    cases initial with
    | none =>
      cases hn
      rfl
    | some e =>
      obtain ⟨e', -, hr⟩ | ⟨v, s₁, -, hrest⟩ := Run.on_bind_ended hn
      · cases hr
      · cases hrest
        rfl
  | _ => cases hstart

/-- The loop that a `for` statement is read as ends as the statement does as it is written. -/
theorem loops_iff {start : Option Stmt} (hstart : Starts start)
    (hround : ∀ e, step = some e →
      body.keepsScope = true ∧ chosen (.block [body, .expression e]) = true) :
    Finishes (directWorker chosen) (.execute (Parser.forLoop start condition step body)) s r s' ↔
      Loops (directWorker chosen) condition step body start s r s' := by
  cases start with
  | none =>
    rw [cycles_iff hround]
    constructor
    · exact .bare
    · rintro ⟨h⟩
      exact h
  | some first =>
    have hpair :
        (Stmt.block [first, Parser.forLoop none condition step body]).round? chosen = none := by
      rw [forLoop_none]
      rfl
    rw [forLoop_some]
    constructor
    · intro h
      obtain ⟨n, hn⟩ := h.exists_direct
      rw [direct_pair hpair] at hn
      rcases hfirst : (directWorker chosen n (.execute first)).on (s.inScope (.block [first,
        Parser.forLoop none condition step body])) with ⟨halt | flow, s₁⟩
      · rw [hfirst] at hn
        cases r <;> cases hn
        exact .unstarted ⟨n, hfirst⟩
      · have hstarted : Finishes (directWorker chosen) (.execute first) _ (.ok flow) s₁ :=
          ⟨n, hfirst⟩
        obtain rfl := finishes_start (hstart first rfl) hstarted
        simp only [hfirst] at hn
        obtain ⟨hresult, rfl⟩ := Prod.mk.inj hn
        exact .started hstarted ((cycles_iff hround).1 ⟨n, Prod.ext hresult rfl⟩)
    · intro h
      refine .of_eventually ?_
      cases h with
      | unstarted hfirst =>
        filter_upwards [hfirst.eventually] with n hn
        rw [direct_pair hpair, hn]
        rfl
      | started hfirst hcycles =>
        filter_upwards
          [hfirst.eventually, ((cycles_iff hround).2 hcycles).eventually] with n hn hrest
        rw [direct_pair hpair, hn]
        simp only [Except.mapError, hrest]

-- ---------------------------------------------------------------------------
-- What is read at `for`
-- ---------------------------------------------------------------------------

/-- The parts of a `for` statement: nothing but the start declares a name. -/
structure ForParts where
  start : Option Stmt
  condition : Option Expr
  step : Option Expr
  body : Stmt
  starts : Starts start
  keeps : body.keepsScope = true

def ForParts.stmt (f : ForParts) : Stmt :=
  Parser.forLoop f.start f.condition f.step f.body

theorem ForParts.stmt_keepsScope (f : ForParts) : f.stmt.keepsScope = true := by
  have hlap : (Stmt.lap f.step f.body).keepsScope = true := by
    unfold Stmt.lap
    split
    · rfl
    · exact f.keeps
  unfold ForParts.stmt
  cases f.start with
  | none => rwa [forLoop_none]
  | some first =>
    rw [forLoop_some]
    rfl

namespace Parser

/-- Whatever the reader reads is as `Q` says. -/
def Gives (Q : α → Prop) (r : Reader α) : Prop :=
  ∀ ⦃c a c'⦄, Reads r c a c' → Q a

namespace Gives

variable {α β : Type} {P : α → Prop} {Q : β → Prop} {m : Reader α} {f : α → Reader β}

theorem pure {b : β} (h : Q b) : Gives Q (Pure.pure b) := by
  intro c b' c' hr
  rw [(reads_pure.1 hr).1]
  exact h

theorem fail : Gives Q (Parser.fail fault) :=
  fun _ _ _ hr => (reads_fail.1 hr).elim

theorem after (hm : Gives P m) (hf : ∀ a, P a → Gives Q (f a)) : Gives Q (m >>= f) := by
  intro c b c' hr
  obtain ⟨a, c₁, hm', hf'⟩ := reads_bind.1 hr
  exact hf a (hm hm') hf'

theorem bind (hf : ∀ a, Gives Q (f a)) : Gives Q (m >>= f) :=
  after (P := fun _ => True) (fun _ _ _ _ => trivial) fun a _ => hf a

theorem map {g : α → β} (hm : Gives P m) (hg : ∀ a, P a → Q (g a)) : Gives Q (g <$> m) := by
  intro c b c' hr
  obtain ⟨a, hm', rfl⟩ := reads_map.1 hr
  exact hg a (hm hm')

end Gives

theorem readVar_starts : Gives (fun st => st.isStart = true) readVar := by
  refine .bind fun _ => .bind fun found => ?_
  cases found with
  | none => exact .bind fun _ => .bind fun _ => .pure rfl
  | some _ => exact .bind fun _ => .bind fun _ => .pure rfl

theorem readExpressionStatement_starts :
    Gives (fun st => st.isStart = true ∧ st.keepsScope = true) readExpressionStatement := by
  refine .bind fun _ => .bind fun _ => .bind fun _ => ?_
  split
  · exact .bind fun _ => .pure ⟨rfl, rfl⟩
  · exact .bind fun _ => .pure ⟨rfl, rfl⟩

/-- What follows the start. -/
theorem readForRest_gives (ih : Gives (fun st => st.keepsScope = true) (readStatement depth))
    (hstart : Starts start) :
    Gives (fun st => ∃ f : ForParts, st = f.stmt) (do
      let condition ← readUnless .semicolon
      let _ ← expect .semicolon .forCondition
      let step ← readUnless .rightParen
      let _ ← expect .rightParen .forClose
      return forLoop start condition step (← readStatement depth)) := by
  refine .bind fun condition => .bind fun _ => .bind fun step => .bind fun _ => ?_
  exact ih.after fun body hbody => .pure ⟨⟨start, condition, step, body, hstart, hbody⟩, rfl⟩

theorem readFor_gives (ih : Gives (fun st => st.keepsScope = true) (readStatement depth)) :
    Gives (fun st => ∃ f : ForParts, st = f.stmt) (do
      let _ ← expect .leftParen .forOpen
      let start ← match (← peek).kind with
        | .semicolon => do advance; pure none
        | .kwVar => do advance; some <$> readVar
        | _ => some <$> readExpressionStatement
      let condition ← readUnless .semicolon
      let _ ← expect .semicolon .forCondition
      let step ← readUnless .rightParen
      let _ ← expect .rightParen .forClose
      return forLoop start condition step (← readStatement depth)) := by
  refine .bind fun _ => .bind fun t => ?_
  dsimp only
  split
  · refine .bind fun _ => .after (Gives.pure (Q := Starts) nofun) fun start => readForRest_gives ih
  · refine .bind fun _ => .after (readVar_starts.map (Q := Starts) ?_) fun start =>
      readForRest_gives ih
    rintro first h _ ⟨⟩
    exact h
  · refine .after (readExpressionStatement_starts.map (Q := Starts) ?_) fun start =>
      readForRest_gives ih
    rintro first ⟨h, -⟩ _ ⟨⟩
    exact h

theorem readStatement_gives (ih : Gives (fun st => st.keepsScope = true) (readStatement depth)) :
    Gives (fun st => st.keepsScope = true) (readStatement (depth + 1)) := by
  refine .bind fun t => ?_
  split
  · exact .bind fun _ => .bind fun _ => .pure rfl
  · refine .bind fun _ _ _ _ h => ?_
    obtain ⟨f, rfl⟩ := readFor_gives ih h
    exact f.stmt_keepsScope
  · refine .bind fun _ => .bind fun _ => .bind fun condition => .bind fun _ => ?_
    refine ih.after fun yes hyes => .bind fun found => ?_
    cases found with
    | none =>
      refine .after (Gives.pure (Q := (· = none)) rfl) ?_
      rintro _ rfl
      exact .pure hyes
    | some _ =>
      have hno := ih.map (Q := fun no : Option Stmt => ∃ st, no = some st ∧ st.keepsScope = true)
        fun st hst => ⟨st, rfl, hst⟩
      refine hno.after ?_
      rintro _ ⟨no, rfl, hno⟩
      exact .pure (Bool.and_eq_true_iff.2 ⟨hyes, hno⟩)
  · refine .bind fun _ => .bind fun _ => .bind fun condition => .bind fun _ => ?_
    exact ih.after fun body hbody => .pure hbody
  · exact .bind fun _ => .bind fun _ => .bind fun _ => .pure rfl
  · exact .bind fun _ => .bind fun _ => .pure rfl
  · exact .bind fun _ => .bind fun _ => .bind fun _ => .pure rfl
  · exact fun _ _ _ h => (readExpressionStatement_starts h).2

theorem readStatement_keepsScope (depth : Nat) :
    Gives (fun st => st.keepsScope = true) (readStatement depth) := by
  induction depth with
  | zero => exact .fail
  | succ depth ih => exact readStatement_gives ih

theorem readStatement_for (hfor : c.peek.kind = .kwFor) (h : Reads (readStatement depth) c st c') :
    ∃ f : ForParts, st = f.stmt := by
  cases depth with
  | zero => exact (reads_fail.1 h).elim
  | succ depth =>
    obtain ⟨t, c₁, hpeek, h⟩ := reads_bind.1 h
    obtain ⟨rfl, rfl⟩ := reads_peek.1 hpeek
    simp only [hfor] at h
    obtain ⟨_, c₂, -, h⟩ := reads_bind.1 h
    exact readFor_gives (readStatement_keepsScope depth) h

end Parser

/-- The parts where they are written. -/
inductive ForParts.Written (f : ForParts) : List Token → Prop
  | mk : keyword.kind = .kwFor → opening.kind = .leftParen → Start f.start us →
    Maybe (Phrase .assignment) f.condition vs → semicolon.kind = .semicolon →
    Maybe (Phrase .assignment) f.step ws → closing.kind = .rightParen →
    Statement dangling f.body xs →
    Written f (keyword :: opening :: (us ++ (vs ++ semicolon :: (ws ++ closing :: xs))))

theorem Start.starts (h : Start start us) : Starts start := by
  rintro first rfl
  cases h with
  | var h | expression h =>
    cases h
    all_goals rfl

theorem Statement.keepsScope (h : Statement dangling st us) : st.keepsScope = true := by
  match h with
  | .expression h =>
    cases h
    rfl
  | .print .. | .breakLoop .. | .returnValue .. | .block .. => rfl
  | .ifThen _ _ _ _ hyes => exact hyes.keepsScope
  | .ifElse _ _ _ _ hyes _ hno => exact Bool.and_eq_true_iff.2 ⟨hyes.keepsScope, hno.keepsScope⟩
  | .whileLoop _ _ _ _ hbody => exact hbody.keepsScope
  | .forLoop _ _ _ _ _ _ _ hbody _ hlap hloop =>
    cases hloop with
    | block => rfl
    | bare =>
      cases hlap with
      | step => rfl
      | plain => exact hbody.keepsScope

/-- Only a `for` statement begins with `for`. -/
theorem Statement.forParts (h : Statement dangling st us)
    (hfor : ∀ t ∈ us.head?, t.kind = .kwFor) : ∃ f : ForParts, st = f.stmt ∧ f.Written us := by
  cases h with
  | expression h =>
    obtain ⟨t, rest, rfl, ht⟩ := Parser.expressionStmt_opens h
    rw [hfor t rfl] at ht
    cases ht
  | block h =>
    obtain ⟨t, rest, rfl, ht⟩ := Parser.block_opens h
    rw [hfor t rfl] at ht
    cases ht
  | print hkeyword | breakLoop hkeyword | returnValue hkeyword | ifThen hkeyword | ifElse hkeyword
  | whileLoop hkeyword =>
    rw [hfor _ rfl] at hkeyword
    cases hkeyword
  | forLoop hkeyword hopening hstart hcondition hsemicolon hstep hclosing hbody htested
      hlap hloop =>
    refine ⟨⟨_, _, _, _, hstart.starts, hbody.keepsScope⟩, ?_,
      .mk hkeyword hopening hstart hcondition hsemicolon hstep hclosing hbody⟩
    cases htested <;> cases hlap <;> cases hloop <;> rfl

theorem Parser.readStatement_written (hstrict : c.lenient = false)
    (hstop : c.stop.kind = .endOfInput) (hfor : c.peek.kind = .kwFor)
    (h : Reads (readStatement depth) c st c') :
    ∃ (f : ForParts) (us : List Token), st = f.stmt ∧ c.Over us c' ∧ f.Written us := by
  obtain ⟨us, hover, dangling, hst, -⟩ := (stmtConsumes depth).statement hstrict hstop h
  obtain ⟨t, rest, rfl, -⟩ := statement_opens hst
  have hpeek : c.peek = t := by
    rw [Cursor.peek, hover.rest]
    rfl
  obtain ⟨f, rfl, hwritten⟩ := hst.forParts fun t' ht' => by
    cases ht'
    rwa [← hpeek]
  exact ⟨f, _, rfl, hover, hwritten⟩

-- ---------------------------------------------------------------------------
-- What runs do
-- ---------------------------------------------------------------------------

theorem Worker.finishes_of_agrees {t : Task} (h : ∀ n, Agrees chosen (worker n t)
      (directWorker chosen n t) s) (r : Except Error t.Answer) :
    (∀ s', Finishes worker t s r s' → Finishes (directWorker chosen) t (s.abridged chosen) r
      (s'.abridged chosen)) ∧
    ∀ d, Finishes (directWorker chosen) t (s.abridged chosen) r d →
      ∃ s', Finishes worker t s r s' ∧ d = s'.abridged chosen := by
  constructor
  · rintro s' ⟨n, hn⟩
    refine ⟨n, ?_⟩
    rw [h n, hn]
  · rintro d ⟨n, hn⟩
    rw [h n] at hn
    obtain ⟨hresult, rfl⟩ := Prod.mk.inj hn
    exact ⟨_, ⟨n, Prod.ext hresult rfl⟩, rfl⟩

/-- What is read at `for` has a start, a condition, a step and a body, as far as they are written.
Where it is executed in a run, it ends in the same result, output and session as the statement does
as it is written, and whenever that ends. The names in it are looked up by what has been declared
around them, in scopes among which those of rounds are not: whichever rounds are run directly, if
this loop's are among them. -/
theorem for_runs_as_written :
    (∀ depth c st c', Parser.Reads (Parser.readStatement depth) c st c' → c.peek.kind = .kwFor →
      ∃ f : ForParts, st = f.stmt ∧ (c.lenient = false → c.stop.kind = .endOfInput →
        ∃ tokens, c.Over tokens c' ∧ f.Written tokens)) ∧
    ∀ (f : ForParts) (chosen : Stmt → Bool) units s, Occurs units (.execute f.stmt) s →
      (∀ e, f.step = some e → chosen (.block [f.body, .expression e]) = true) → ∀ r,
        (∀ s', Finishes worker (.execute f.stmt) s r s' →
          Loops (directWorker chosen) f.condition f.step f.body f.start (s.abridged chosen) r
            (s'.abridged chosen)) ∧
        ∀ d, Loops (directWorker chosen) f.condition f.step f.body f.start (s.abridged chosen) r d →
          ∃ s', Finishes worker (.execute f.stmt) s r s' ∧ d = s'.abridged chosen := by
  constructor
  · intro depth c st c' h hfor
    by_cases hplain : c.lenient = false ∧ c.stop.kind = .endOfInput
    · obtain ⟨f, us, rfl, hover, hwritten⟩ :=
        Parser.readStatement_written hplain.1 hplain.2 hfor h
      exact ⟨f, rfl, fun _ _ => ⟨us, hover, hwritten⟩⟩
    · obtain ⟨f, rfl⟩ := Parser.readStatement_for hfor h
      exact ⟨f, rfl, fun hstrict hstop => absurd ⟨hstrict, hstop⟩ hplain⟩
  · intro f chosen units s hoccurs hchosen r
    have hloops {s d r} : Finishes (directWorker chosen) (.execute f.stmt) s r d ↔
        Loops (directWorker chosen) f.condition f.step f.body f.start s r d :=
      loops_iff f.starts fun e he => ⟨f.keeps, hchosen e he⟩
    obtain ⟨hdirect, hworker⟩ := Worker.finishes_of_agrees (fun n =>
      directWorker_agrees n hoccurs.lodged trivial) r
    exact ⟨fun s' h => hloops.1 (hdirect s' h), fun d h => hworker d (hloops.2 h)⟩

/-- A loop of one round. -/
def oneRound : ForParts where
  start := some (.var ⟨.identifier, "a", 1⟩ (some (.literal (.bool false))))
  condition := some (.unary ⟨.bang, "!", 1⟩ (.var 0 ⟨.identifier, "a", 1⟩))
  step := some (.assign 2 ⟨.identifier, "a", 1⟩ (.literal (.bool true)))
  body := .print (.var 3 ⟨.identifier, "a", 1⟩)
  starts := by
    rintro _ ⟨⟩
    rfl
  keeps := rfl

def goingRound : Prepared Line :=
  ⟨.statements [oneRound.stmt], [(0, 0), (3, 1), (2, 1)], 4⟩

def beforeRound : Session :=
  (Session.start (fun _ => none) none (.still 0)).commit goingRound

/-- As it is written the loop prints once, with no scope but that of the start. -/
theorem loop_of_one_round_prints :
    Occurs [goingRound.tree] (.execute oneRound.stmt) beforeRound ∧
    ∃ d, Loops (directWorker fun _ => true) oneRound.condition oneRound.step oneRound.body
        oneRound.start (beforeRound.abridged fun _ => true) (.ok .normal) d ∧
      d.output = "false\n" := by
  have hp : (Entry.unit "for(var a=false;!a;a=true)print a;").prepared 0 = .ok goingRound := by
    decide +kernel
  have hfirst : ComesTo nowhere 2 goingRound.tree.task beforeRound (.execute oneRound.stmt)
      beforeRound :=
    .first (fun w halt h => Run.on_bind_error h) (fun h => h) .beginning
  have hoccurs : Occurs [goingRound.tree] (.execute oneRound.stmt) beforeRound :=
    .entry .start hp hfirst
  have hnormal : ((worker 9 (.execute oneRound.stmt)).on beforeRound).1 = .ok .normal := by cbv
  have hprints : ((worker 9 (.execute oneRound.stmt)).on beforeRound).2.output = "false\n" := by
    decide +kernel
  generalize hrun : (worker 9 (.execute oneRound.stmt)).on beforeRound = run at hnormal hprints
  obtain ⟨hwritten, -⟩ := for_runs_as_written.2 oneRound (fun _ => true) _ _ hoccurs
    (fun _ _ => rfl) (.ok .normal)
  exact ⟨hoccurs, _, hwritten run.2 ⟨9, hrun.trans (Prod.ext hnormal rfl)⟩, hprints⟩

end Treewalk
