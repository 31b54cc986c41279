import Treewalk.Proofs.Mistakes
import Treewalk.Proofs.Nesting

/-!
# Errors tell the phases apart

A source that is refused has a mistake, and nothing of it runs. Code that runs fails in other ways:
with a fault of its own, because the output refuses to be written to, or because a module that it
imports is refused. That last error names the module and holds the mistake in the module's own
source, never an error of another module. From however deep within a run, an error reaches the top
as it is.
-/

namespace Treewalk

/-- The errors of running code, where modules have these sources. -/
inductive Error.OfRun (sources : String → Option String) : Error → Prop
  | runtime : OfRun sources (.runtime site fault)
  | output : OfRun sources (.output reason)
  | inModule : sources path = some source → Prepared.program source start = .error cause →
    cause.Mistake → OfRun sources (.inModule path cause)

theorem Error.Mistake.isStatic {e : Error} (h : e.Mistake) : e.isStatic = true := by
  cases h <;> rfl

theorem Halt.Usual.ofRun (h : (Halt.error e).Usual sources) : e.OfRun sources := by
  cases e with
  | runtime site fault => exact .runtime
  | output reason => exact .output
  | inModule path cause =>
    obtain ⟨source, start, hsource, hrefused⟩ := h
    exact .inModule hsource hrefused (Prepared.program_refused source start cause hrefused)
  | _ => exact h.elim

/-- Of the errors of running code, only those of modules are static. -/
theorem Error.OfRun.isStatic_iff {e : Error} (h : e.OfRun sources) :
    e.isStatic = true ↔ ∃ path cause, e = .inModule path cause := by
  cases h with
  | runtime | output => simp [Error.isStatic]
  | inModule _ _ hcause => simp [Error.isStatic, hcause.isStatic]

theorem worker_ofRun {s : Session} (h : ((worker fuel t).on s).1 = .error (.error e)) :
    e.OfRun s.sources := by
  cases fuel with
  | zero => cases h
  | succ fuel =>
    have hstep := kept_true.step (kept_true.run fuel) t s trivial
    rcases hr : ((worker fuel).step t).on s with ⟨r, s'⟩
    obtain rfl : r = .error (.error e) := (congrArg Prod.fst hr).symm.trans h
    obtain ⟨husual, -, hlater⟩ := hstep.halt hr
    exact (hlater.grows.sources ▸ husual).ofRun

/-- An import of a module whose source is refused. -/
theorem Run.on_refusedImport {w : Worker} (hnot : s.modules.contains path = false)
    (hsource : s.sources path = some source) (hp : Prepared.program source s.nextId = .error e) :
    (Run.importWith w site path).on s = (.error (.error (.inModule path e)), s) := by
  simp only [Run.importWith, Run.on_bind, Run.on_get, hnot, hsource, hp]
  rfl

/-- A task that stops is how the task that asked for it stops. -/
theorem Worker.Asks.halts {w : Worker} (h : w.Asks t s t' s')
    (hhalt : ((w t').on s').1 = .error halt) : ((w.step t).on s).1 = .error halt := by
  obtain ⟨σ, hplay, -⟩ := step_follows t s
  have hasked : (t', s') ∈ σ.asked w :=
    (σ.mem_asked_iff w).2 fun halt' => hplay (w.unless _) ▸ h halt'
  rw [hplay]
  exact σ.stops (fun _ _ => .inl rfl) hasked hhalt

/-- However deep the task lies that stops, the run stops in the same way. -/
theorem Leads.halts {via : Task → Prop} (h : Leads via n t s m t' s')
    (hhalt : ((worker m t').on s').1 = .error halt) : ((worker n t).on s).1 = .error halt := by
  induction h with
  | here => exact hhalt
  | inside _ hasks _ ih => exact hasks.halts (ih hhalt)

/-- In every session, what runs fails with a fault of its own, because of the output, or with the
mistake in the source of one module; of these errors just the last is static. An error reaches the
top of a run as it is, from however deep within. So if an entry fails with a static error that is
not of a module, the error is the mistake for which the entry is refused, and the session is as it
was. -/
theorem errors_tell_the_phases (fuel : Nat) :
    (∀ (t : Task) (s : Session) (e : Error), ((worker fuel t).on s).1 = .error (.error e) →
      e.OfRun s.sources ∧ (e.isStatic = true ↔ ∃ path cause, e = .inModule path cause)) ∧
    (∀ (t : Task) (s : Session) (n : Nat) (t' : Task) (s' : Session) (halt : Halt),
      Leads anyhow fuel t s n t' s' → ((worker n t').on s').1 = .error halt →
      ((worker fuel t).on s).1 = .error halt) ∧
    ∀ (entry : Entry) (s : Session) (e : Error), ((entry.run fuel).on s).1 = .error (.error e) →
      e.isStatic = true → (∀ path cause, e ≠ .inModule path cause) →
      e.Mistake ∧ entry.prepared s.nextId = .error e ∧ ((entry.run fuel).on s).2 = s := by
  refine ⟨fun t s e h => ?_, fun _ _ _ _ _ _ hleads hhalt => hleads.halts hhalt,
    fun entry s e h hstatic hbare => ?_⟩
  · have hrun := worker_ofRun h
    exact ⟨hrun, hrun.isStatic_iff⟩
  · cases hp : entry.prepared s.nextId with
    | error e' =>
      rw [entry.on_run_error fuel hp] at h ⊢
      cases h
      exact ⟨entry.prepared_refused _ _ hp, rfl, rfl⟩
    | ok p =>
      -- What the entry asks for has run, and failed.
      rw [entry.on_run_ok fuel hp] at h
      cases hr : ((worker fuel p.tree.task).on (s.commit p)).1 with
      | ok a => rw [hr] at h; cases h
      | error halt =>
        rw [hr] at h
        cases h
        obtain ⟨path, cause, rfl⟩ := (worker_ofRun hr).isStatic_iff.1 hstatic
        exact absurd rfl (hbare path cause)

-- A module that imports another one, whose source is refused.

def nestedSources (path : String) : Option String :=
  if path = "a" then some "import\"b\";" else if path = "b" then some "return;" else none

def importingOther : Prepared (List Stmt) :=
  ⟨[.importModule ⟨.kwImport, "import", 1⟩ ⟨.text "b", "\"b\"", 1⟩], [], 0⟩

theorem leads_nested :
    Leads anyhow 6 (.importModule ⟨1, "import"⟩ "a") (.start nestedSources none (.still 0))
    3 (.importModule ⟨1, "import"⟩ "b")
    ((Session.start nestedSources none (.still 0)).load "a" importingOther) := by
  have hp : Prepared.program "import\"b\";" 0 = .ok importingOther := by decide +kernel
  have hstatement : BeginsWith (.interpret importingOther.tree)
      ((Session.start nestedSources none (.still 0)).load "a" importingOther)
      (.execute (.importModule ⟨.kwImport, "import", 1⟩ ⟨.text "b", "\"b\"", 1⟩))
      ((Session.start nestedSources none (.still 0)).load "a" importingOther) :=
    fun _ _ h => Run.on_bind_error h
  have himport : BeginsWith
      (.execute (.importModule ⟨.kwImport, "import", 1⟩ ⟨.text "b", "\"b\"", 1⟩))
      ((Session.start nestedSources none (.still 0)).load "a" importingOther)
      (.importModule ⟨1, "import"⟩ "b")
      ((Session.start nestedSources none (.still 0)).load "a" importingOther) :=
    fun _ _ h => Run.on_bind_error h
  have hload : BeginsWith (.importModule ⟨1, "import"⟩ "a") (.start nestedSources none (.still 0))
      (.interpret importingOther.tree)
      ((Session.start nestedSources none (.still 0)).load "a" importingOther) :=
    beginsWith_load (s := .start nestedSources none (.still 0)) rfl rfl hp
  exact .inside trivial (hload.asks _)
    (.inside trivial (hstatement.asks _) (.inside trivial (himport.asks _) .here))

/-- The mistake of the inner module comes out of the outer one as it is; entered by itself, the same
source is refused. -/
theorem nested_refusal_comes_out :
    (((worker 6 (.importModule ⟨1, "import"⟩ "a")).on (.start nestedSources none (.still 0))).1 =
        .error (.error (.inModule "b" (.scope ⟨1, "return"⟩ .returnOutsideFunction))) ∧
      (Error.inModule "b" (.scope ⟨1, "return"⟩ .returnOutsideFunction)).OfRun nestedSources) ∧
    (Entry.unit "return;").prepared 0 = .error (.scope ⟨1, "return"⟩ .returnOutsideFunction) := by
  have hp : Prepared.program "return;" 0 =
      .error (.scope ⟨1, "return"⟩ .returnOutsideFunction) := by decide +kernel
  have hinner : ((worker 3 (.importModule ⟨1, "import"⟩ "b")).on
      ((Session.start nestedSources none (.still 0)).load "a" importingOther)).1 =
        .error (.error (.inModule "b" (.scope ⟨1, "return"⟩ .returnOutsideFunction))) :=
    congrArg Prod.fst (Run.on_refusedImport
      (s := (Session.start nestedSources none (.still 0)).load "a" importingOther) rfl rfl hp)
  have hrefused : (Entry.unit "return;").prepared 0 =
      .error (.scope ⟨1, "return"⟩ .returnOutsideFunction) := by
    rw [Entry.prepared, hp]
    rfl
  have hrun : ((Entry.run 1 (.unit "return;")).on (.start nestedSources none (.still 0))).1 =
      .error (.error (.scope ⟨1, "return"⟩ .returnOutsideFunction)) :=
    congrArg Prod.fst (Entry.on_run_error _ _ hrefused)
  have houter := (errors_tell_the_phases 6).2.1 _ _ _ _ _ _ leads_nested hinner
  exact ⟨⟨houter, ((errors_tell_the_phases 6).1 _ _ _ houter).1⟩,
    ((errors_tell_the_phases 1).2.2 _ _ _ hrun rfl (by simp)).2.1⟩

end Treewalk
