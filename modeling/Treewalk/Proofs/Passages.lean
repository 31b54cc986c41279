import Treewalk.Proofs.Scripts

/-!
# Runs that come to no moment of a kind

Stopping a run at certain moments changes nothing, unless the run comes to one of them. For a step
of the evaluator this is because it follows a script: where two workers differ, it comes to a task
on which they differ first, and stops if that stops.
-/

namespace Treewalk

/-- The workers carry out in the same way what is not in `D`. -/
def Worker.AgreesOff (w w₀ : Worker) (D : Task → Session → Prop) : Prop :=
  ∀ t s, ¬ D t s → (w t).on s = (w₀ t).on s

/-- The computation goes with every worker that agrees with `w₀` off `D` as it goes with `w₀`, or
with all of them it comes to one and the same moment in `D`, and stops if the worker stops there. -/
def Guided (w₀ : Worker) (D : Task → Session → Prop) (m : Worker → Run α) : Prop :=
  ∀ s, (∀ w : Worker, w.AgreesOff w₀ D → (m w).on s = (m w₀).on s) ∨
    ∃ t' s', D t' s' ∧ ∀ w : Worker, w.AgreesOff w₀ D → ∀ halt,
      ((w t').on s').1 = .error halt → ((m w).on s).1 = .error halt

/-- A script asks its worker for one task after the other, so it comes to a first one in `D`, or to
none. -/
theorem Script.guided (w₀ : Worker) (D : Task → Session → Prop) (σ : Script α) :
    (∀ w : Worker, w.AgreesOff w₀ D → σ.play w = σ.play w₀) ∨
      ∃ t' s', D t' s' ∧ ∀ w : Worker, w.AgreesOff w₀ D → ∀ halt,
        ((w t').on s').1 = .error halt → (σ.play w).1 = .error halt := by
  induction σ with
  | ends result s => exact .inl fun _ _ => rfl
  | asks t v back next ih =>
    simp only [Script.play]
    by_cases hD : D t v
    · refine .inr ⟨t, v, hD, fun w _ halt hhalt => ?_⟩
      rcases hr : (w t).on v with ⟨_ | _, _⟩ <;> rw [hr] at hhalt <;> cases hhalt
      rfl
    · have hsame (w : Worker) (hw : w.AgreesOff w₀ D) : (w t).on v = (w₀ t).on v := hw t v hD
      rcases hr : (w₀ t).on v with ⟨halt | a, v'⟩
      · exact .inl fun w hw => by rw [hsame w hw, hr]
      · rcases ih a v' with hrest | ⟨t', s', hD', hstops⟩
        · refine .inl fun w hw => ?_
          rw [hsame w hw, hr]
          exact hrest w hw
        · refine .inr ⟨t', s', hD', fun w hw halt hhalt => ?_⟩
          rw [hsame w hw, hr]
          exact hstops w hw halt hhalt

theorem Guided.step {w₀ : Worker} {D : Task → Session → Prop} (t : Task) :
    Guided w₀ D fun w => w.step t := by
  intro s
  obtain ⟨σ, hplay, -⟩ := step_follows t s
  simp only [hplay]
  exact σ.guided w₀ D

/-- Stopping at moments that are to be avoided changes nothing, unless the run comes to one. -/
theorem stoppedWorker_on (avoid : Task → Session → Prop) (fuel : Nat) (t : Task) (s : Session) :
    (∀ stop, (∀ t s halt, stop t s = some halt → avoid t s) →
      (stoppedWorker stop fuel t).on s = (worker fuel t).on s) ∨
    ∃ t' s', avoid t' s' ∧ ComesTo avoid fuel t s t' s' := by
  induction fuel generalizing t s with
  | zero => exact .inl fun _ _ => rfl
  | succ fuel ih =>
    by_cases hhere : avoid t s
    · exact .inr ⟨t, s, hhere, .beginning⟩
    -- The moments from which a run with less allowance comes to one that is avoided.
    let D : Task → Session → Prop := fun t s =>
      ∃ t' s', avoid t' s' ∧ ComesTo avoid fuel t s t' s'
    have agrees (stop : Task → Session → Option Halt)
        (hstop : ∀ t s halt, stop t s = some halt → avoid t s) :
        (stoppedWorker stop fuel).AgreesOff (worker fuel) D :=
      fun t s hD => (ih t s).resolve_right hD stop hstop
    have guided : Guided (worker fuel) D fun w => w.step t := .step t
    rcases guided s with hsame | ⟨t₁, s₁, hD, hstops⟩
    · refine .inl fun stop hstop => ?_
      have hnone : stop t s = none := by
        cases h : stop t s with
        | none => rfl
        | some halt => exact absurd (hstop t s halt h) hhere
      simp only [stoppedWorker, Worker.unless_on_of_none hnone]
      exact hsame _ (agrees stop hstop)
    · obtain ⟨t', s', havoid, hcomes⟩ := hD
      refine .inr ⟨t', s', havoid, .of_step hhere fun halt => ?_⟩
      refine hstops _ (agrees _ fun u v h hsome => ?_) halt (hcomes halt)
      unfold stopAt at hsome
      split at hsome
      · next heq =>
        rw [heq.1, heq.2]
        exact havoid
      · split at hsome
        · assumption
        · cases hsome

/-- A run that is stopped at more moments, as if exhausted, goes on as before or ends so. -/
theorem stoppedWorker_sooner (h : ∀ t s, stop' t s = stop t s ∨ stop' t s = some .exhausted)
    (fuel : Nat) (t : Task) (s : Session) :
    (stoppedWorker stop' fuel t).on s = (stoppedWorker stop fuel t).on s ∨
      ((stoppedWorker stop' fuel t).on s).1 = .error .exhausted := by
  induction fuel generalizing t s with
  | zero => exact .inl rfl
  | succ fuel ih =>
    obtain hsame | hstop := h t s
    · cases hnext : stop t s with
      | some halt =>
        rw [hnext] at hsame
        simp only [stoppedWorker, Worker.unless_on_of_some hnext, Worker.unless_on_of_some hsame]
        exact .inl trivial
      | none =>
        rw [hnext] at hsame
        simp only [stoppedWorker, Worker.unless_on_of_none hnext, Worker.unless_on_of_none hsame]
        let D : Task → Session → Prop := fun t s =>
          (stoppedWorker stop' fuel t).on s ≠ (stoppedWorker stop fuel t).on s
        have agrees : (stoppedWorker stop' fuel).AgreesOff (stoppedWorker stop fuel) D :=
          fun _ _ hD => Classical.not_not.1 hD
        have guided : Guided (stoppedWorker stop fuel) D fun w => w.step t := .step t
        obtain hrest | ⟨t', s', hD, hstops⟩ := guided s
        · exact .inl (hrest _ agrees)
        · exact .inr (hstops _ agrees _ ((ih t' s').resolve_left hD))
    · simp only [stoppedWorker, Worker.unless_on_of_some hstop]
      exact .inr trivial

/-- A run that goes through goes through with fewer moments to stop at. -/
theorem stoppedWorker_on_of_ok (hstop : ∀ t s, stop' t s = stop t s ∨ stop' t s = some .exhausted)
    (h : (stoppedWorker stop' fuel t).on s = (.ok a, s')) :
    (stoppedWorker stop fuel t).on s = (.ok a, s') := by
  obtain hsame | hexhausted := stoppedWorker_sooner hstop fuel t s
  · rw [← hsame, h]
  · rw [h] at hexhausted
    cases hexhausted

/-- A moment that is come to before those of one kind is come to before those of a narrower kind. -/
theorem ComesTo.mono (havoid : ∀ t s, avoid t s → avoid' t s)
    (h : ComesTo avoid' fuel t s t' s') : ComesTo avoid fuel t s t' s' := by
  have others (halt : Halt) (hhalt : halt ≠ .exhausted) :
      ((stoppedWorker (stopAt avoid t' s' halt) fuel t).on s).1 = .error halt := by
    have hsooner (u : Task) (v : Session) : stopAt avoid' t' s' halt u v =
        stopAt avoid t' s' halt u v ∨ stopAt avoid' t' s' halt u v = some .exhausted := by
      unfold stopAt
      split
      · exact .inl rfl
      · split
        · exact .inr rfl
        · next hclear => exact .inl (by rw [if_neg fun hu => hclear (havoid u v hu)])
    obtain hsame | hstop := stoppedWorker_sooner hsooner fuel t s
    · rw [← hsame]
      exact h halt
    · rw [h halt] at hstop
      cases hstop
      exact absurd rfl hhalt
  intro halt
  by_cases hhalt : halt = .exhausted
  · subst hhalt
    -- Some other halt is not what the run ends with when it is stopped as if exhausted.
    obtain ⟨other, hother, hne⟩ : ∃ other, other ≠ Halt.exhausted ∧
        ((stoppedWorker (stopAt avoid t' s' .exhausted) fuel t).on s).1 ≠ .error other := by
      by_cases hlex : ((stoppedWorker (stopAt avoid t' s' .exhausted) fuel t).on s).1 =
          .error (.error (.lex 0 .unterminated))
      · exact ⟨.error (.lex 1 .unterminated), nofun, by rw [hlex]; simp⟩
      · exact ⟨.error (.lex 0 .unterminated), nofun, hlex⟩
    have hsooner (u : Task) (v : Session) : stopAt avoid t' s' .exhausted u v =
        stopAt avoid t' s' other u v ∨ stopAt avoid t' s' .exhausted u v = some .exhausted := by
      unfold stopAt
      split
      · exact .inr rfl
      · exact .inl rfl
    refine (stoppedWorker_sooner hsooner fuel t s).resolve_left fun hsame => hne ?_
    rw [hsame]
    exact others other hother
  · exact others halt hhalt

/-- A run that goes through when it is stopped at the moments to be avoided comes to none. -/
theorem not_comesTo_of_on_ok [∀ t s, Decidable (avoid t s)]
    (h : (stoppedWorker (fun t s => if avoid t s then some .exhausted else none) fuel t).on s =
      (.ok a, s₁)) : ∀ t' s', ComesTo avoid fuel t s t' s' → ¬ avoid t' s' := by
  intro t' s' hm havoid
  have hsooner (u : Task) (v : Session) : (if avoid u v then some Halt.exhausted else none) =
      stopAt avoid t' s' .exhausted u v ∨
        (if avoid u v then some Halt.exhausted else none) = some .exhausted := by
    by_cases hu : avoid u v
    · exact .inr (if_pos hu)
    · have hne : ¬ (u = t' ∧ v = s') := by
        rintro ⟨rfl, rfl⟩
        exact hu havoid
      exact .inl (by rw [stopAt, if_neg hne, if_neg hu, if_neg hu])
  have hhalt := hm .exhausted
  rw [stoppedWorker_on_of_ok hsooner h] at hhalt
  cases hhalt

open Classical in
/-- A run that comes to no moment that is to be avoided honours a contract that holds away from
them. -/
theorem Contract.undisturbed {c : Contract} (hstep : c.Inductive avoid)
    (hfuel : ∀ t s, c.pre t s → c.fault t s .exhausted s) (hpre : c.pre t s)
    (hclear : ∀ t' s', ComesTo avoid fuel t s t' s' → ¬ avoid t' s') :
    Triple (worker fuel t) s (c.post t s) (c.fault t s) := by
  let stop : Task → Session → Option Halt := fun t s => if avoid t s then some .exhausted else none
  have hstop : ∀ t s halt, stop t s = some halt → halt = .exhausted ∧ avoid t s := by
    intro t s halt h
    simp only [stop] at h
    split at h
    · cases h
      exact ⟨rfl, ‹_›⟩
    · cases h
  have honours : (stoppedWorker stop fuel).Honours c := by
    refine stopped hstep (fun t s hnone => ?_) (fun t s halt ht h => ?_) hfuel fuel
    · simpa [stop] using hnone
    · rw [(hstop t s halt h).1]
      exact hfuel t s ht
  rcases stoppedWorker_on avoid fuel t s with hsame | ⟨t', s', havoid, hcomes⟩
  · have hrun := honours t s hpre
    unfold Triple at hrun ⊢
    rwa [hsame stop fun t s halt h => (hstop t s halt h).2] at hrun
  · exact absurd havoid (hclear t' s' hcomes)

end Treewalk
