import Treewalk.Proofs.Contexts
import Treewalk.Proofs.Passages

/-!
# Tasks inside one another

A run is a tree of tasks: each asks for the tasks within it, one after the other, and each of those
has the allowance that is left. The session only grows from the beginning of a task to the tasks
within it, from what one of them leaves to the next, and from what the last of them leaves to the
end. Of two tasks of a run, therefore, one is inside the other, or one is over when the other
begins.
-/

namespace Treewalk

-- ---------------------------------------------------------------------------
-- What a computation asks for
-- ---------------------------------------------------------------------------

/-- With the worker `w`, the computation comes to ask for `t'` in `s'`: however the worker is
stopped there, that is how the computation ends. -/
def Asking (m : Worker → Run α) (w : Worker) (s : Session) (t' : Task) (s' : Session) : Prop :=
  ∀ halt, ((m (w.unless (stopAt nowhere t' s' halt))).on s).1 = .error halt

/-- Carrying out `t` in `s` asks for `t'` in `s'`. -/
abbrev Worker.Asks (w : Worker) (t : Task) (s : Session) : Task → Session → Prop :=
  Asking (fun w => w.step t) w s

theorem stopAt_here : stopAt avoid t s halt t s = some halt := by
  simp [stopAt]

theorem stopAt_elsewhere (h : ¬ (t = t' ∧ s = s')) : stopAt nowhere t' s' halt t s = none := by
  simp [stopAt, nowhere, h]

/-- No computation ends in two ways. -/
theorem not_every_halt {r : Except Halt α} (h : ∀ halt, r = .error halt) : False := by
  have := (h .exhausted).symm.trans (h (.error (.output "")))
  cases this

namespace Script

theorem mem_asked_asks {t : Task} {next : t.Answer → Session → Script α} :
    x ∈ (asks t v back next).asked w ↔
      x = (t, v) ∨ ∃ a v', (w t).on v = (.ok a, v') ∧ x ∈ (next a v').asked w := by
  simp only [asked, List.mem_cons]
  rcases (w t).on v with ⟨_ | a, v'⟩
  · simp
  · simp only [Prod.mk.injEq, Except.ok.injEq]
    exact or_congr_right ⟨fun h => ⟨a, v', ⟨rfl, rfl⟩, h⟩, by rintro ⟨_, _, ⟨rfl, rfl⟩, h⟩; exact h⟩

/-- A script goes the same way with workers that do the same for all that it asks for. -/
theorem play_congr {w w' : Worker} (σ : Script α)
    (h : ∀ t s, (t, s) ∈ σ.asked w → (w' t).on s = (w t).on s) : σ.play w' = σ.play w := by
  induction σ with
  | ends result s => rfl
  | asks t s back next ih =>
    simp only [play, h t s (mem_asked_asks.2 (.inl rfl))]
    rcases hr : (w t).on s with ⟨_ | a, s'⟩
    · rfl
    · exact ih a s' fun t' v hmem => h t' v (mem_asked_asks.2 (.inr ⟨a, s', hr, hmem⟩))

theorem play_unless (w : Worker) (σ : Script α) (h : (t', s') ∉ σ.asked w) (halt : Halt) :
    σ.play (w.unless (stopAt nowhere t' s' halt)) = σ.play w := by
  induction σ with
  | ends result s => rfl
  | asks t v back next ih =>
    simp only [mem_asked_asks, not_or, not_exists, not_and] at h
    have hne : ¬ (t = t' ∧ v = s') := by
      rintro ⟨rfl, rfl⟩
      exact h.1 rfl
    simp only [play, Worker.unless_on_of_none (stopAt_elsewhere hne)]
    rcases hr : (w t).on v with ⟨_ | a, v'⟩
    · rfl
    · exact ih a v' (h.2 a v' hr)

theorem mem_asked_iff (w : Worker) (σ : Script α) :
    (t', s') ∈ σ.asked w ↔
      ∀ halt, (σ.play (w.unless (stopAt nowhere t' s' halt))).1 = .error halt := by
  constructor
  · intro hmem halt
    induction σ with
    | ends result s => cases hmem
    | asks t v back next ih =>
      simp only [play]
      by_cases hhere : t = t' ∧ v = s'
      · obtain ⟨rfl, rfl⟩ := hhere
        rw [Worker.unless_on_of_some stopAt_here]
      · rw [Worker.unless_on_of_none (stopAt_elsewhere hhere)]
        obtain heq | ⟨a, v', hr, hrest⟩ := mem_asked_asks.1 hmem
        · cases heq
          exact absurd ⟨rfl, rfl⟩ hhere
        · rw [hr]
          exact ih a v' hrest
  · intro h
    refine Classical.byContradiction fun hnot => ?_
    simp only [play_unless w σ hnot] at h
    exact not_every_halt h

/-- Where two workers differ only in that the first one stops, the script goes the same way with
both, or stops. -/
theorem play_or_stops {w w₀ : Worker} (hw : ∀ t v, (w t).on v = (w₀ t).on v ∨
    ((w t).on v).1 = .error halt) (σ : Script α) :
    σ.play w = σ.play w₀ ∨ (σ.play w).1 = .error halt := by
  induction σ with
  | ends result s => exact .inl rfl
  | asks t v back next ih =>
    simp only [play]
    rcases hw t v with hsame | hstops
    · rw [hsame]
      rcases (w₀ t).on v with ⟨_ | a, v'⟩
      · exact .inl rfl
      · exact ih a v'
    · rcases hr : (w t).on v with ⟨_ | _, _⟩ <;> rw [hr] at hstops <;> cases hstops
      exact .inr rfl

theorem stops {w w₀ : Worker} (hw : ∀ t v, (w t).on v = (w₀ t).on v ∨
    ((w t).on v).1 = .error halt) (σ : Script α) (hmem : (t', s') ∈ σ.asked w₀)
    (h : ((w t').on s').1 = .error halt) : (σ.play w).1 = .error halt := by
  induction σ with
  | ends result s => cases hmem
  | asks t v back next ih =>
    have hstopped (hstops : ((w t).on v).1 = .error halt) :
        ((asks t v back next).play w).1 = .error halt := by
      simp only [play]
      rcases hr : (w t).on v with ⟨_ | _, _⟩ <;> rw [hr] at hstops <;> cases hstops
      rfl
    obtain heq | ⟨a, v', hr, hrest⟩ := mem_asked_asks.1 hmem
    · cases heq
      exact hstopped h
    · rcases hw t v with hsame | hstops
      · simp only [play, hsame, hr]
        exact ih a v' hrest
      · exact hstopped hstops

end Script

/-- From `s` on, `w` carries out the tasks one after the other, each in its session; what happens
between them is in `R`, and `last` is left in the end. -/
inductive InTurn (w : Worker) (R : Session → Session → Prop) :
    Session → List (Task × Session) → Session → Prop
  | nil : R s last → InTurn w R s [] last
  | cons : R s v → InTurn w R ((w t).on v).2 rest last → InTurn w R s ((t, v) :: rest) last

/-- Whatever is asked of it, the worker leaves a session that grew, in the context it began in. -/
def Worker.GivesBack (w : Worker) : Prop :=
  ∀ (t : Task) (s : Session), s.Later ((w t).on s).2

theorem worker_givesBack (fuel : Nat) : (worker fuel).GivesBack :=
  worker_later fuel

theorem Script.Through.inTurn {σ : Script α} {P : Task → Prop} (h : σ.Through P R s)
    (hw : w.GivesBack) :
    InTurn w R s (σ.asked w) (σ.play w).2 ∧ ∀ t' s', (t', s') ∈ σ.asked w → P t' := by
  induction σ generalizing s with
  | ends result s' => exact ⟨.nil h, by simp [asked]⟩
  | asks t v back next ih =>
    obtain ⟨ht, hv, hrest⟩ := h
    obtain ⟨hback, hnext⟩ := hrest _ (hw t v)
    simp only [asked, play]
    rcases hr : (w t).on v with ⟨_ | a, v'⟩
    · rw [hr] at hback
      refine ⟨.cons hv (.nil ?_), ?_⟩
      · rwa [hr]
      · rintro t' s' hmem
        cases List.mem_singleton.1 hmem
        exact ht
    · rw [hr] at hnext
      obtain ⟨hturn, hP⟩ := ih a v' (hnext a)
      refine ⟨.cons hv ?_, ?_⟩
      · rwa [hr]
      · rintro t' s' hmem
        rcases List.mem_cons.1 hmem with heq | hmem
        · cases heq
          exact ht
        · exact hP t' s' hmem

theorem Follows.inTurn {m : Worker → Run α} {P : Task → Prop} (h : Follows P R m s)
    (hw : w.GivesBack) :
    ∃ tasks, InTurn w R s tasks ((m w).on s).2 ∧
      (∀ t' s', Asking m w s t' s' ↔ (t', s') ∈ tasks) ∧ ∀ t' s', (t', s') ∈ tasks → P t' := by
  obtain ⟨σ, hplay, hthrough⟩ := h
  obtain ⟨hturn, hP⟩ := hthrough.inTurn hw
  refine ⟨σ.asked w, by rwa [hplay], fun t' s' => ?_, hP⟩
  simp only [Asking, hplay, ← Script.mem_asked_iff]

namespace InTurn

variable {w : Worker} {R : Session → Session → Prop}

theorem mono (h : InTurn w R s tasks last) (hR : ∀ u v, R u v → R' u v) :
    InTurn w R' s tasks last := by
  induction h with
  | nil hlast => exact .nil (hR _ _ hlast)
  | cons hv _ ih => exact .cons (hR _ _ hv) ih

theorem grows (h : InTurn w Session.Grows s tasks last) (hw : w.GivesBack) : s.Grows last := by
  induction h with
  | nil hlast => exact hlast
  | @cons s v t rest last hv _ ih => exact hv.trans ((hw t v).grows.trans ih)

/-- A task of the row begins after the row, and the row ends after the task. -/
theorem around (h : InTurn w Session.Grows s tasks last) (hw : w.GivesBack)
    (hmem : (t', s') ∈ tasks) : s.Grows s' ∧ ((w t').on s').2.Grows last := by
  induction h with
  | nil hlast => cases hmem
  | @cons s v t rest last hv hrest ih =>
    rcases List.mem_cons.1 hmem with heq | hmem
    · cases heq
      exact ⟨hv, hrest.grows hw⟩
    · obtain ⟨hbegin, hend⟩ := ih hmem
      exact ⟨hv.trans ((hw t v).grows.trans hbegin), hend⟩

/-- Of two tasks of a row, one is over when the other begins. -/
theorem apart (h : InTurn w Session.Grows s tasks last) (hw : w.GivesBack)
    (h₁ : (t₁, s₁) ∈ tasks) (h₂ : (t₂, s₂) ∈ tasks) :
    (t₁ = t₂ ∧ s₁ = s₂) ∨ ((w t₁).on s₁).2.Grows s₂ ∨ ((w t₂).on s₂).2.Grows s₁ := by
  induction h with
  | nil hlast => cases h₁
  | @cons s v t rest last hv hrest ih =>
    rcases List.mem_cons.1 h₁ with heq₁ | hmem₁ <;> rcases List.mem_cons.1 h₂ with heq₂ | hmem₂
    · cases heq₁
      cases heq₂
      exact .inl ⟨rfl, rfl⟩
    · cases heq₁
      exact .inr (.inl (hrest.around hw hmem₂).1)
    · cases heq₂
      exact .inr (.inr (hrest.around hw hmem₁).1)
    · exact ih hmem₁ hmem₂

end InTurn

-- ---------------------------------------------------------------------------
-- Taking a computation apart
-- ---------------------------------------------------------------------------

namespace Asking

variable {w : Worker}

theorem const {m : Run α} (h : Asking (fun _ => m) w s t' s') : False :=
  not_every_halt h

theorem ask_iff : Asking (fun w => w t) w s t' s' ↔ t = t' ∧ s = s' := by
  constructor
  · intro h
    refine Classical.byContradiction fun hne => ?_
    simp only [Asking, Worker.unless_on_of_none (stopAt_elsewhere hne)] at h
    exact not_every_halt h
  · rintro ⟨rfl, rfl⟩ halt
    rw [Worker.unless_on_of_some stopAt_here]

theorem bind_cases {m : Worker → Run α} {f : α → Worker → Run β} (hm : Follows P R m s)
    (h : Asking (fun w => m w >>= fun a => f a w) w s t' s') :
    Asking m w s t' s' ∨ ∃ a s₁, (m w).on s = (.ok a, s₁) ∧ Asking (f a) w s₁ t' s' := by
  obtain ⟨σ, hplay, -⟩ := hm
  by_cases hmem : (t', s') ∈ σ.asked w
  · refine .inl fun halt => ?_
    rw [hplay]
    exact (σ.mem_asked_iff w).1 hmem halt
  · have hsame (halt : Halt) : (m (w.unless (stopAt nowhere t' s' halt))).on s = (m w).on s := by
      rw [hplay, hplay, σ.play_unless w hmem]
    simp only [Asking, Run.on_bind, hsame] at h
    rcases hr : (m w).on s with ⟨_ | a, s₁⟩
    · rw [hr] at h
      exact (not_every_halt h).elim
    · rw [hr] at h
      exact .inr ⟨a, s₁, rfl, h⟩

end Asking

-- ---------------------------------------------------------------------------
-- The tasks of a run
-- ---------------------------------------------------------------------------

/-- Carrying out `t` in `s` with the allowance `n` carries out `t'` in `s'` with `m` left of it,
and all tasks around that one, but for the task itself, are in `via`. -/
inductive Leads (via : Task → Prop) : Nat → Task → Session → Nat → Task → Session → Prop
  | here : Leads via n t s n t s
  | inside : via t → (worker n).Asks t s t₁ s₁ → Leads via n t₁ s₁ m t' s' →
    Leads via (n + 1) t s m t' s'

/-- Through tasks of any kind. -/
def anyhow : Task → Prop :=
  fun _ => True

theorem asks_inTurn (n : Nat) (t : Task) (s : Session) :
    ∃ tasks, InTurn (worker n) Session.Grows s tasks ((worker (n + 1) t).on s).2 ∧
      (∀ t' s', (worker n).Asks t s t' s' ↔ (t', s') ∈ tasks) ∧
        ∀ t' s', (t', s') ∈ tasks → t.MayAsk t' :=
  (step_follows t s).inTurn (worker_givesBack n)

theorem BeginsWith.asks (h : BeginsWith t s t' s') (w : Worker) : w.Asks t s t' s' := by
  intro halt
  exact h _ halt (by rw [Worker.unless_on_of_some stopAt_here])

theorem Worker.Asks.mayAsk (h : (worker n).Asks t s t' s') : t.MayAsk t' := by
  obtain ⟨tasks, -, hasks, hmay⟩ := asks_inTurn n t s
  exact hmay t' s' ((hasks t' s').1 h)

theorem Worker.Asks.around (h : (worker n).Asks t s t' s') :
    s.Grows s' ∧ ((worker n t').on s').2.Grows ((worker (n + 1) t).on s).2 := by
  obtain ⟨tasks, hturn, hasks, -⟩ := asks_inTurn n t s
  exact hturn.around (worker_givesBack n) ((hasks t' s').1 h)

theorem Worker.Asks.apart (h₁ : (worker n).Asks t s t₁ s₁) (h₂ : (worker n).Asks t s t₂ s₂) :
    (t₁ = t₂ ∧ s₁ = s₂) ∨ ((worker n t₁).on s₁).2.Grows s₂ ∨
      ((worker n t₂).on s₂).2.Grows s₁ := by
  obtain ⟨tasks, hturn, hasks, -⟩ := asks_inTurn n t s
  exact hturn.apart (worker_givesBack n) ((hasks t₁ s₁).1 h₁) ((hasks t₂ s₂).1 h₂)

namespace Leads

variable {via : Task → Prop}

/-- A task of a run begins after the run, and the run ends after the task. -/
theorem around (h : Leads via n t s m t' s') :
    s.Grows s' ∧ ((worker m t').on s').2.Grows ((worker n t).on s).2 := by
  induction h with
  | here => exact ⟨.refl _, .refl _⟩
  | inside _ hask _ ih =>
    obtain ⟨hbegin, hend⟩ := hask.around
    exact ⟨hbegin.trans ih.1, ih.2.trans hend⟩

/-- Of two tasks of a run, one is inside the other, or one is over when the other begins. -/
theorem apart (h₁ : Leads via n t s m₁ t₁ s₁) (h₂ : Leads via n t s m₂ t₂ s₂) :
    Leads via m₁ t₁ s₁ m₂ t₂ s₂ ∨ Leads via m₂ t₂ s₂ m₁ t₁ s₁ ∨
      ((worker m₁ t₁).on s₁).2.Grows s₂ ∨ ((worker m₂ t₂).on s₂).2.Grows s₁ := by
  induction h₁ with
  | here => exact .inl h₂
  | inside ht hask₁ hrest₁ ih =>
    cases h₂ with
    | here => exact .inr (.inl (.inside ht hask₁ hrest₁))
    | inside _ hask₂ hrest₂ =>
      rcases hask₁.apart hask₂ with ⟨rfl, rfl⟩ | hover | hover
      · exact ih hrest₂
      · exact .inr (.inr (.inl (hrest₁.around.2.trans (hover.trans hrest₂.around.1))))
      · exact .inr (.inr (.inr (hrest₂.around.2.trans (hover.trans hrest₁.around.1))))

theorem stoppedWorker_or_stops (t' : Task) (s' : Session) (halt : Halt) (n : Nat) (t : Task)
    (s : Session) :
    (stoppedWorker (stopAt nowhere t' s' halt) n t).on s = (worker n t).on s ∨
      ((stoppedWorker (stopAt nowhere t' s' halt) n t).on s).1 = .error halt := by
  induction n generalizing t s with
  | zero => exact .inl rfl
  | succ n ih =>
    simp only [stoppedWorker]
    by_cases hhere : t = t' ∧ s = s'
    · obtain ⟨rfl, rfl⟩ := hhere
      rw [Worker.unless_on_of_some stopAt_here]
      exact .inr rfl
    · rw [Worker.unless_on_of_none (stopAt_elsewhere hhere)]
      obtain ⟨σ, hplay, -⟩ := step_follows t s
      simp only [worker, hplay]
      exact σ.play_or_stops ih

/-- A run comes to all of its tasks that are begun with some allowance left. -/
theorem comesTo (h : Leads via n t s (m + 1) t' s') : ComesTo nowhere n t s t' s' := by
  generalize hm : m + 1 = k at h
  induction h with
  | here =>
    subst hm
    exact .beginning
  | @inside t n s t₁ s₁ k t' s' _ hask _ ih =>
    obtain ⟨σ, hplay, -⟩ := step_follows t s
    simp only [Asking, hplay, ← Script.mem_asked_iff] at hask
    refine .of_step (fun h => h) fun halt => ?_
    rw [hplay]
    exact σ.stops (stoppedWorker_or_stops t' s' halt n) hask (ih hm halt)

end Leads

/-- Each moment that a run comes to is that of one of its tasks. -/
theorem ComesTo.leads (h : ComesTo nowhere n t s t' s') :
    ∃ m, Leads anyhow n t s (m + 1) t' s' := by
  induction n generalizing t s with
  | zero => exact (not_every_halt (r := ((worker 0 t).on s).1) h).elim
  | succ n ih =>
    by_cases hhere : t = t' ∧ s = s'
    · obtain ⟨rfl, rfl⟩ := hhere
      exact ⟨n, .here⟩
    · obtain ⟨σ, hplay, -⟩ := step_follows t s
      by_cases hsome : ∃ asked ∈ σ.asked (worker n), ComesTo nowhere n asked.1 asked.2 t' s'
      · obtain ⟨⟨t₁, s₁⟩, hmem, hcomes⟩ := hsome
        obtain ⟨m, hleads⟩ := ih hcomes
        refine ⟨m, .inside trivial ?_ hleads⟩
        simpa only [Asking, hplay, ← Script.mem_asked_iff] using hmem
      · -- A run none of whose tasks comes to the moment goes as if it were not stopped there.
        have hsame (halt : Halt) :
            σ.play (stoppedWorker (stopAt nowhere t' s' halt) n) = σ.play (worker n) := by
          refine σ.play_congr fun t₁ s₁ hmem => ?_
          rcases stoppedWorker_on (fun u v => u = t' ∧ v = s') n t₁ s₁ with
            hsame | ⟨u, v, ⟨rfl, rfl⟩, hm⟩
          · refine hsame _ fun u v _ hstop => Classical.byContradiction fun hne => ?_
            rw [stopAt_elsewhere hne] at hstop
            cases hstop
          · exact absurd ⟨_, hmem, hm.mono fun _ _ => False.elim⟩ hsome
        refine (not_every_halt (r := (σ.play (worker n)).1) fun halt => ?_).elim
        have hhalts := h halt
        simp only [stoppedWorker, Worker.unless_on_of_none (stopAt_elsewhere hhere), hplay]
          at hhalts
        rw [← hsame halt]
        exact hhalts

end Treewalk
