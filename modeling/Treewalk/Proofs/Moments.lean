import Mathlib
import Treewalk.Session.Entry

/-!
# Moments of a run

Laws about a whole run are about every moment of it: what is being carried out, and in which
session. A run comes to a moment if, however it is stopped there, that is how it ends. What holds
at every moment is shown once for `Worker.step`, as a contract between a task and the tasks within
it; `Contract.honoured` and `Contract.comesTo` carry the contract to whole runs.
-/

namespace Treewalk

-- ---------------------------------------------------------------------------
-- Results of computations
-- ---------------------------------------------------------------------------

namespace Run

/-- What a computation gives in a session, and the session that it leaves. -/
def on (m : Run α) (s : Session) : Except Halt α × Session :=
  m.run.run s

@[simp] theorem on_pure (a : α) (s : Session) : (pure a : Run α).on s = (.ok a, s) := rfl

@[simp] theorem on_throw (h : Halt) (s : Session) : (throw h : Run α).on s = (.error h, s) := rfl

@[simp] theorem on_raise (e : Error) (s : Session) :
    (raise e : Run α).on s = (.error (.error e), s) := rfl

@[simp] theorem on_get (s : Session) : (get : Run Session).on s = (.ok s, s) := rfl

@[simp] theorem on_modify (f : Session → Session) (s : Session) :
    (modify f : Run Unit).on s = (.ok (), f s) := rfl

theorem on_bind (m : Run α) (f : α → Run β) (s : Session) :
    (m >>= f).on s =
      match m.on s with
      | (.ok a, s') => (f a).on s'
      | (.error h, s') => (.error h, s') := by
  show (ExceptT.bindCont f (m.run.run s).1).run (m.run.run s).2 = _
  unfold on
  rcases m.run.run s with ⟨_ | _, _⟩ <;> rfl

theorem on_within (r : Region) (m : Run α) (s : Session) :
    (within r m).on s =
      let (result, after) := m.on { s with context := r.enter s.context }
      (result, { after with context := r.leave s.context after.context }) := rfl

/-- Code that leaves the context as it finds it gives the whole context back. -/
theorem on_within_of_kept {m : Run α} {result : Except Halt α}
    (hm : m.on { s with context := r.enter s.context } = (result, t))
    (ht : t.context = r.enter s.context) :
    (within r m).on s = (result, { t with context := s.context }) := by
  rw [on_within, hm]
  dsimp only
  rw [ht, Region.leave_enter]

theorem every_append (action : Stmt → Run Flow) (body rest : List Stmt) :
    every action (body ++ rest) = every action body >>= fun _ => every action rest := by
  induction body with
  | nil => rfl
  | cons s body ih => simp only [List.cons_append, every, ih, bind_assoc]

theorem on_every_append {action : Stmt → Run Flow} {body rest : List Stmt}
    (h : (every action body).on s = (.ok (), s')) :
    (every action (body ++ rest)).on s = (every action rest).on s' := by
  rw [every_append, on_bind, h]

end Run

-- ---------------------------------------------------------------------------
-- Triples
-- ---------------------------------------------------------------------------

/-- In the session `s`, `m` ends with a result and a session as `Q` says, or stops as `E` says. -/
def Triple (m : Run α) (s : Session) (Q : α → Session → Prop) (E : Halt → Session → Prop) : Prop :=
  match m.on s with
  | (.ok a, s') => Q a s'
  | (.error h, s') => E h s'

namespace Triple

theorem of_ok {m : Run α} (h : m.on s = (.ok a, s')) (hQ : Q a s') : Triple m s Q E := by
  simpa only [Triple, h] using hQ

theorem of_error {m : Run α} (h : m.on s = (.error halt, s')) (hE : E halt s') :
    Triple m s Q E := by
  simpa only [Triple, h] using hE

theorem of_forall {m : Run α} (hQ : ∀ a s', Q a s') (hE : ∀ h s', E h s') : Triple m s Q E := by
  unfold Triple
  split
  · exact hQ _ _
  · exact hE _ _

theorem pure (h : Q a s) : Triple (Pure.pure a) s Q E :=
  h

theorem fail (h : E (.error (.runtime site fault)) s) :
    Triple (Run.fail site fault : Run α) s Q E :=
  h

theorem bind {m : Run α} {f : α → Run β} (hm : Triple m s R E)
    (hf : ∀ a s', R a s' → Triple (f a) s' Q E) : Triple (m >>= f) s Q E := by
  unfold Triple at hm ⊢
  rw [Run.on_bind]
  rcases hr : m.on s with ⟨_ | a, s'⟩
  · simpa only [hr] using hm
  · simp only [hr] at hm ⊢
    exact hf a s' hm

theorem step {m : Run α} {f : α → Run β} (hm : m.on s = (.ok a, s')) (hf : Triple (f a) s' Q E) :
    Triple (m >>= f) s Q E := by
  unfold Triple at hf ⊢
  rw [Run.on_bind, hm]
  exact hf

theorem mono {m : Run α} (hm : Triple m s Q E) (hQ : ∀ a s', Q a s' → Q' a s')
    (hE : ∀ h s', E h s' → E' h s') : Triple m s Q' E' := by
  unfold Triple at hm ⊢
  rcases hr : m.on s with ⟨_ | a, s'⟩
  · simp only [hr] at hm ⊢
    exact hE _ _ hm
  · simp only [hr] at hm ⊢
    exact hQ _ _ hm

/-- What holds of the session that a region leaves holds of it when the context is put back. -/
theorem within {m : Run α} (hm : Triple m { s with context := r.enter s.context }
      (fun a s' => Q a { s' with context := r.leave s.context s'.context })
      (fun h s' => E h { s' with context := r.leave s.context s'.context })) :
    Triple (Run.within r m) s Q E := by
  unfold Triple at hm ⊢
  rw [Run.on_within]
  rcases hr : m.on { s with context := r.enter s.context } with ⟨_ | a, s'⟩ <;>
    simpa only [hr] using hm

/-- Code that leaves the context as it finds it gives the whole context back. -/
theorem within_kept {m : Run α} (hm : Triple m { s with context := r.enter s.context }
      (fun a s' => s'.context = r.enter s.context ∧ Q a { s' with context := s.context })
      (fun h s' => s'.context = r.enter s.context ∧ E h { s' with context := s.context })) :
    Triple (Run.within r m) s Q E := by
  refine within (hm.mono ?_ ?_) <;>
  · rintro _ s' ⟨hs', h⟩
    rwa [hs', Region.leave_enter]

theorem result {m : Run α} (hm : Triple m s Q E) (hr : m.on s = (.ok a, s')) : Q a s' := by
  simpa only [Triple, hr] using hm

theorem halt {m : Run α} (hm : Triple m s Q E) (hr : m.on s = (.error h, s')) : E h s' := by
  simpa only [Triple, hr] using hm

theorem on_eq_iff {m : Run α} : m.on s = r ↔
    Triple m s (fun a s' => (.ok a, s') = r) (fun h s' => (.error h, s') = r) := by
  unfold Triple
  rcases m.on s with ⟨_ | _, _⟩ <;> exact Iff.rfl

theorem halts_iff {m : Run α} :
    (m.on s).1 = .error h ↔ Triple m s (fun _ _ => False) (fun h' _ => h' = h) := by
  unfold Triple
  rcases m.on s with ⟨_ | _, _⟩ <;> simp

end Triple

-- ---------------------------------------------------------------------------
-- Moments
-- ---------------------------------------------------------------------------

/-- `w`, except that it stops at the moments for which `stop` says how. -/
def Worker.unless (w : Worker) (stop : Task → Session → Option Halt) : Worker :=
  fun t => do
    match stop t (← get) with
    | some halt => throw halt
    | none => w t

/-- The worker with an allowance, stopped at the moments for which `stop` says how. -/
def stoppedWorker (stop : Task → Session → Option Halt) : (fuel : Nat) → Worker
  | 0, _ => throw .exhausted
  | fuel + 1, t => ((stoppedWorker stop fuel).step.unless stop) t

open Classical in
/-- Stops with `halt` at one moment, and as if exhausted at those that are to be avoided. -/
noncomputable def stopAt (avoid : Task → Session → Prop) (t : Task) (s : Session) (halt : Halt)
    (t' : Task) (s' : Session) : Option Halt :=
  if t' = t ∧ s' = s then some halt
  else if avoid t' s' then some .exhausted
  else none

/-- Carrying out `t` in `s` comes to carry out `t'` in `s'`, before any moment that is to be
avoided: however the run is stopped there, that is how it ends. -/
def ComesTo (avoid : Task → Session → Prop) (fuel : Nat) (t : Task) (s : Session) (t' : Task)
    (s' : Session) : Prop :=
  ∀ halt, ((stoppedWorker (stopAt avoid t' s' halt) fuel t).on s).1 = .error halt

def nowhere : Task → Session → Prop :=
  fun _ _ => False

theorem Worker.unless_on_of_none {w : Worker} (h : stop t s = none) :
    (w.unless stop t).on s = (w t).on s := by
  simp only [Worker.unless, Run.on_bind, Run.on_get, h]

theorem Worker.unless_on_of_some {w : Worker} (h : stop t s = some halt) :
    (w.unless stop t).on s = (.error halt, s) := by
  simp only [Worker.unless, Run.on_bind, Run.on_get, h, Run.on_throw]

theorem stoppedWorker_none (fuel : Nat) : stoppedWorker (fun _ _ => none) fuel = worker fuel := by
  induction fuel with
  | zero => rfl
  | succ fuel ih =>
    funext t
    simp only [stoppedWorker, worker, ih]
    rfl

/-- Carrying out `t` in `s` begins with `t'` in `s'`, and stops if that does. -/
def BeginsWith (t : Task) (s : Session) (t' : Task) (s' : Session) : Prop :=
  ∀ (w : Worker) (halt : Halt), ((w t').on s').1 = .error halt → ((w.step t).on s).1 = .error halt

namespace ComesTo

variable {avoid : Task → Session → Prop}

theorem beginning : ComesTo avoid (fuel + 1) t s t s := by
  intro halt
  have hstop : stopAt avoid t s halt t s = some halt := by simp [stopAt]
  simp only [stoppedWorker, Worker.unless_on_of_some hstop]

theorem of_step (hclear : ¬ avoid t s)
    (h : ∀ halt, (((stoppedWorker (stopAt avoid t' s' halt) fuel).step t).on s).1 = .error halt) :
    ComesTo avoid (fuel + 1) t s t' s' := by
  intro halt
  by_cases hhere : t = t' ∧ s = s'
  · have hstop : stopAt avoid t' s' halt t s = some halt := by simp [stopAt, hhere]
    simp only [stoppedWorker, Worker.unless_on_of_some hstop]
  · have hstop : stopAt avoid t' s' halt t s = none := by simp [stopAt, hhere, hclear]
    simp only [stoppedWorker, Worker.unless_on_of_none hstop]
    exact h halt

theorem first (hfirst : BeginsWith t s t₁ s₁) (hclear : ¬ avoid t s)
    (h : ComesTo avoid fuel t₁ s₁ t' s') : ComesTo avoid (fuel + 1) t s t' s' :=
  of_step hclear fun halt => hfirst _ halt (h halt)

end ComesTo

theorem Run.on_bind_error {m : Run α} {f : α → Run β} (h : (m.on s).1 = .error halt) :
    ((m >>= f).on s).1 = .error halt := by
  rw [Triple.halts_iff] at h ⊢
  exact Triple.bind h fun _ _ h => h.elim

-- ---------------------------------------------------------------------------
-- Contracts
-- ---------------------------------------------------------------------------

/-- What a task may rely on, what it gives back, and how it may stop. -/
structure Contract where
  pre : Task → Session → Prop
  post : (t : Task) → Session → t.Answer → Session → Prop
  fault : Task → Session → Halt → Session → Prop

def Worker.Honours (w : Worker) (c : Contract) : Prop :=
  ∀ t s, c.pre t s → Triple (w t) s (c.post t s) (c.fault t s)

namespace Contract

/-- A step honours the contract wherever the tasks within it do, at moments that are not
avoided. -/
def Inductive (c : Contract) (avoid : Task → Session → Prop) : Prop :=
  ∀ w : Worker, w.Honours c → ∀ t s, c.pre t s → ¬ avoid t s →
    Triple (w.step t) s (c.post t s) (c.fault t s)

variable {c : Contract} {avoid : Task → Session → Prop}

theorem stopped (hstep : c.Inductive avoid) (hnone : ∀ t s, stop t s = none → ¬ avoid t s)
    (hstop : ∀ t s h, c.pre t s → stop t s = some h → c.fault t s h s)
    (hfuel : ∀ t s, c.pre t s → c.fault t s .exhausted s) (fuel : Nat) :
    (stoppedWorker stop fuel).Honours c := by
  induction fuel with
  | zero =>
    intro t s hpre
    exact hfuel t s hpre
  | succ fuel ih =>
    intro t s hpre
    unfold Triple stoppedWorker
    cases hs : stop t s with
    | some h =>
      rw [Worker.unless_on_of_some hs]
      exact hstop t s h hpre hs
    | none =>
      rw [Worker.unless_on_of_none hs]
      exact hstep _ ih t s hpre (hnone t s hs)

theorem honoured (hstep : c.Inductive nowhere)
    (hfuel : ∀ t s, c.pre t s → c.fault t s .exhausted s) (fuel : Nat) :
    (worker fuel).Honours c := by
  rw [← stoppedWorker_none]
  exact stopped hstep (fun _ _ _ h => h) (fun _ _ _ _ h => by cases h) hfuel fuel

/-- A contract that rules out one way to stop holds at every moment: a run that came to a moment
where it does not hold could be stopped there in that way. -/
theorem comesTo (hstep : c.Inductive avoid)
    (hfuel : ∀ t s, c.pre t s → c.fault t s .exhausted s) (foreign : Halt)
    (hforeign : ∀ t s s', ¬ c.fault t s foreign s') (hpre : c.pre t s)
    (h : ComesTo avoid fuel t s t' s') : c.pre t' s' := by
  refine Classical.byContradiction fun hnot => ?_
  have honours : (stoppedWorker (stopAt avoid t' s' foreign) fuel).Honours c := by
    refine stopped hstep ?_ ?_ hfuel fuel
    · intro u v hnone havoid
      simp only [stopAt, havoid, if_true] at hnone
      split at hnone <;> cases hnone
    · intro u v halt hu hsome
      unfold stopAt at hsome
      split at hsome
      · next heq => exact absurd (heq.1 ▸ heq.2 ▸ hu) hnot
      · split at hsome
        · cases hsome
          exact hfuel u v hu
        · cases hsome
  have hrun := honours t s hpre
  rcases hr : (stoppedWorker (stopAt avoid t' s' foreign) fuel t).on s with ⟨r, last⟩
  obtain rfl : r = .error foreign := by simpa only [hr] using h foreign
  exact hforeign _ _ _ (hrun.halt hr)

end Contract

end Treewalk
