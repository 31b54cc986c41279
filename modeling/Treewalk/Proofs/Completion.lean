import Treewalk.Proofs.Loading
import Treewalk.Proofs.Nesting

/-!
# Modules that ran to their end

A module stays in the table of modules however its top level ends, and an import that finds it there
asks no more. Every module that has been started and is not being loaded was run by one import of
the session's history, to its end or to an error. So an import that succeeds passes on a module that
ran to its end, unless an earlier run of the module failed: then it passes on what that run left.
-/

namespace Treewalk

-- ---------------------------------------------------------------------------
-- Imports that run a module
-- ---------------------------------------------------------------------------

theorem quiet_splice (n : Nat) (path : String) (s : Session) :
    s.Quiet ((worker n (.splice path)).on s).2 := by
  cases n with
  | zero => exact .refl s
  | succ n =>
    have hsplice : Triple (Run.splice path) s _ _ := (Session.Quiet.lasting s).splice s (.refl s)
    rcases hr : (worker (n + 1) (.splice path)).on s with ⟨_ | _, s'⟩
    · exact (hsplice.halt hr).2.1
    · exact (hsplice.result hr).1

/-- The session that the top level of a module leaves. -/
def Session.ran (s : Session) (path : String) (p : Prepared (List Stmt)) (n : Nat) : Session :=
  ((worker n (.interpret p.tree)).on (s.load path p)).2

theorem Session.ran_grows (s : Session) (path : String) (p : Prepared (List Stmt)) (n : Nat) :
    (s.load path p).Grows (s.ran path p n) :=
  (worker_later n (.interpret p.tree) (s.load path p)).grows

theorem contains_load (s : Session) (path : String) (p : Prepared (List Stmt)) :
    (s.load path p).modules.contains path = true := by
  simp [Session.load, Table.contains, Table.get?_insert]

namespace Session.FirstImport

variable {s : Session} {path : String} {p : Prepared (List Stmt)}

/-- After the top level, the import starts no module. -/
theorem quiet_end (h : s.FirstImport path p) (n : Nat) (site : Site) :
    { s.ran path p n with context := s.context }.Quiet
      ((worker (n + 1) (.importModule site path)).on s).2 := by
  simp only [worker, h.step_on, Script.firstImport, Script.play, ran]
  rcases (worker n (.interpret p.tree)).on (s.load path p) with ⟨_ | _, s'⟩
  · exact .refl _
  · have hsplice := quiet_splice n path { s' with context := s.context }
    dsimp only
    rcases hr : (worker n (.splice path)).on { s' with context := s.context } with ⟨_ | _, _⟩ <;>
      rwa [hr] at hsplice

theorem asks_body (h : s.FirstImport path p) (n : Nat) (site : Site) :
    (worker n).Asks (.importModule site path) s (.interpret p.tree) (s.load path p) := by
  simp only [Asking, h.step_on, ← Script.mem_asked_iff]
  exact Script.mem_asked_asks.2 (.inl rfl)

/-- What the import asks for is the top level, and then to pass the names on. -/
theorem asks_cases (h : s.FirstImport path p)
    (hask : (worker n).Asks (.importModule site path) s t' s') :
    (t' = .interpret p.tree ∧ s' = s.load path p) ∨
      t' = .splice path ∧ s' = { s.ran path p n with context := s.context } := by
  simp only [Asking, h.step_on, ← Script.mem_asked_iff] at hask
  obtain heq | ⟨a, v', hr, hmem⟩ := Script.mem_asked_asks.1 hask
  · cases heq
    exact .inl ⟨rfl, rfl⟩
  · obtain heq | ⟨_, _, _, hmem⟩ := Script.mem_asked_asks.1 hmem
    · cases heq
      exact .inr ⟨rfl, by simp only [ran, hr]⟩
    · cases hmem

/-- The import succeeds only if the top level does. -/
theorem completed (h : s.FirstImport path p)
    (hok : ((worker (n + 1) (.importModule site path)).on s).1 = .ok ()) :
    (worker n (.interpret p.tree)).on (s.load path p) = (.ok (), s.ran path p n) := by
  simp only [worker, h.step_on, Script.firstImport, Script.play] at hok
  simp only [ran]
  rcases hr : (worker n (.interpret p.tree)).on (s.load path p) with ⟨_ | _, s'⟩
  · rw [hr] at hok
    cases hok
  · rfl

theorem ran_grows_end (h : s.FirstImport path p) (n : Nat) (site : Site) :
    (s.ran path p n).Grows ((worker (n + 1) (.importModule site path)).on s).2 :=
  have hback : (s.ran path p n).Grows { s.ran path p n with context := s.context } :=
    (Session.Grows.refl _).within
  hback.trans (h.quiet_end n site).grows

theorem load_grows_asked (h : s.FirstImport path p)
    (hask : (worker n).Asks (.importModule site path) s t' s') : (s.load path p).Grows s' := by
  obtain ⟨-, rfl⟩ | ⟨-, rfl⟩ := h.asks_cases hask
  · exact .refl _
  · exact (s.ran_grows path p n).trans (Session.Grows.refl _).within

theorem unique (h : s.FirstImport path p) (h' : s.FirstImport path p') : p = p' := by
  obtain ⟨source, hsource, hp⟩ := h.ready
  obtain ⟨source', hsource', hp'⟩ := h'.ready
  rw [hsource] at hsource'
  cases hsource'
  rw [hp] at hp'
  cases hp'
  rfl

/-- The module is not run again once it has been entered. -/
theorem not_after (h : s.FirstImport path p) (hgrows : (Session.load s₀ path p₀).Grows s) :
    False := by
  have hknown := Orderly.contains_of_grows hgrows (contains_load s₀ path p₀)
  rw [h.unknown] at hknown
  cases hknown

/-- No import that runs the module is inside another. -/
theorem same {s' : Session} (h : s.FirstImport path p) (h' : s'.FirstImport path p')
    (hin : Leads via (m + 1) (.importModule site path) s (m' + 1) (.importModule site' path) s') :
    m = m' ∧ s = s' := by
  cases hin with
  | here => exact ⟨rfl, rfl⟩
  | inside _ hask hrest =>
    exact (h'.not_after ((h.load_grows_asked hask).trans hrest.around.1)).elim

/-- One import of a run runs the module: where it is over, the module is in the table. -/
theorem once {s₁ s₂ : Session} (h₁ : s₁.FirstImport path p₁) (h₂ : s₂.FirstImport path p₂)
    (hleads₁ : Leads via n t s (m₁ + 1) (.importModule site₁ path) s₁)
    (hleads₂ : Leads via n t s (m₂ + 1) (.importModule site₂ path) s₂) :
    m₁ = m₂ ∧ s₁ = s₂ ∧ p₁ = p₂ := by
  have hsame : m₁ = m₂ ∧ s₁ = s₂ := by
    rcases hleads₁.apart hleads₂ with hin | hin | hover | hover
    · exact h₁.same h₂ hin
    · obtain ⟨rfl, rfl⟩ := h₂.same h₁ hin
      exact ⟨rfl, rfl⟩
    · have hload := (s₁.ran_grows path p₁ m₁).trans (h₁.ran_grows_end m₁ site₁)
      exact (h₂.not_after (hload.trans hover)).elim
    · have hload := (s₂.ran_grows path p₂ m₂).trans (h₂.ran_grows_end m₂ site₂)
      exact (h₁.not_after (hload.trans hover)).elim
  obtain ⟨rfl, rfl⟩ := hsame
  exact ⟨rfl, rfl, h₁.unique h₂⟩

end Session.FirstImport

-- ---------------------------------------------------------------------------
-- The module that a task starts
-- ---------------------------------------------------------------------------

namespace InTurn

variable {w : Worker}

/-- What came before a task of the row. -/
theorem upTo (h : InTurn w R s tasks last) (hmem : (t', s') ∈ tasks) :
    ∃ earlier, earlier ⊆ tasks ∧ InTurn w R s earlier s' := by
  induction h with
  | nil _ => cases hmem
  | @cons s v t rest last hv _ ih =>
    rcases List.mem_cons.1 hmem with heq | hmem
    · cases heq
      exact ⟨[], List.nil_subset _, .nil hv⟩
    · obtain ⟨earlier, hsub, hearlier⟩ := ih hmem
      exact ⟨(t, v) :: earlier, List.cons_subset_cons _ hsub, .cons hv hearlier⟩

theorem loading (h : InTurn w Session.Quiet s tasks last) (hw : w.GivesBack) :
    last.context.loading = s.context.loading := by
  induction h with
  | nil hlast => exact hlast.loading
  | @cons s v t rest last hv _ ih => rw [ih, (hw t v).context, hv.loading]

/-- A module that was started on the way was started by one of the tasks. -/
theorem started (h : InTurn w Session.Quiet s tasks last) (hpath : path ∈ last.started) :
    path ∈ s.started ∨
      ∃ t' s', (t', s') ∈ tasks ∧ path ∉ s'.started ∧ path ∈ ((w t').on s').2.started := by
  induction h with
  | nil hlast =>
    rw [hlast.started] at hpath
    exact .inl hpath
  | @cons s v t rest last hv _ ih =>
    rcases ih hpath with hhere | ⟨t', s', hmem, hbefore, hafter⟩
    · by_cases hbefore : path ∈ v.started
      · rw [hv.started] at hbefore
        exact .inl hbefore
      · exact .inr ⟨t, v, List.mem_cons_self, hbefore, hhere⟩
    · exact .inr ⟨t', s', List.mem_cons_of_mem _ hmem, hbefore, hafter⟩

end InTurn

/-- In the course of carrying out `t` in `s` with the allowance `n`, an import ran the module; its
top level ended in `r` and left `s₂`. -/
def RunsModule (n : Nat) (t : Task) (s : Session) (path : String) (r : Except Halt Unit)
    (s₂ : Session) : Prop :=
  ∃ m site s₁ p, Leads anyhow n t s (m + 1) (.importModule site path) s₁ ∧
    s₁.FirstImport path p ∧ (worker m (.interpret p.tree)).on (s₁.load path p) = (r, s₂)

namespace RunsModule

theorem inside (hask : (worker n).Asks t s t₁ s₁) (h : RunsModule n t₁ s₁ path r s₂) :
    RunsModule (n + 1) t s path r s₂ := by
  obtain ⟨m, site, v, p, hleads, hfirst, hrun⟩ := h
  exact ⟨m, site, v, p, .inside trivial hask hleads, hfirst, hrun⟩

theorem here (h : s.FirstImport path p) (n : Nat) (site : Site) :
    RunsModule (n + 1) (.importModule site path) s path
      ((worker n (.interpret p.tree)).on (s.load path p)).1 (s.ran path p n) :=
  ⟨n, site, s, p, .here, h, rfl⟩

/-- The module is in the table where its top level ends, and so in all that comes later. -/
theorem contains (h : RunsModule n t s path r s₂) (hgrows : s₂.Grows s') :
    s'.modules.contains path = true := by
  obtain ⟨m, site, v, p, -, hfirst, hrun⟩ := h
  have hran : v.ran path p m = s₂ := congrArg Prod.snd hrun
  refine Orderly.contains_of_grows hgrows ?_
  rw [← hran]
  exact Orderly.contains_of_grows (v.ran_grows path p m) (contains_load v path p)

theorem grows_end (h : RunsModule n t s path r s₂) : s₂.Grows ((worker n t).on s).2 := by
  obtain ⟨m, site, v, p, hleads, hfirst, hrun⟩ := h
  obtain rfl : v.ran path p m = s₂ := congrArg Prod.snd hrun
  exact (hfirst.ran_grows_end m site).trans hleads.around.2

theorem unique (h₁ : RunsModule n t s path r₁ v₁) (h₂ : RunsModule n t s path r₂ v₂) :
    r₁ = r₂ ∧ v₁ = v₂ := by
  obtain ⟨m₁, site₁, s₁, p₁, hleads₁, hfirst₁, hrun₁⟩ := h₁
  obtain ⟨m₂, site₂, s₂, p₂, hleads₂, hfirst₂, hrun₂⟩ := h₂
  obtain ⟨rfl, rfl, rfl⟩ := hfirst₁.once hfirst₂ hleads₁ hleads₂
  rw [hrun₁] at hrun₂
  cases hrun₂
  exact ⟨rfl, rfl⟩

end RunsModule

/-- A module that was started in the course of a run was run by an import in it. -/
theorem runsModule_of_started (n : Nat) (t : Task) (s : Session)
    (hpath : path ∈ ((worker n t).on s).2.started) :
    path ∈ s.started ∨ ∃ r s₂, RunsModule n t s path r s₂ := by
  induction n generalizing t s with
  | zero => exact .inl hpath
  | succ n ih =>
    by_cases hloads : t.Loads s
    · obtain ⟨site, other, p, rfl, hfirst⟩ := hloads
      rw [(hfirst.quiet_end n site).started] at hpath
      rcases ih (.interpret p.tree) (s.load other p) hpath with hpath | ⟨r, s₂, hran⟩
      · rcases List.mem_cons.1 hpath with rfl | hbefore
        · exact .inr ⟨_, _, .here hfirst n site⟩
        · exact .inl hbefore
      · exact .inr ⟨r, s₂, hran.inside (hfirst.asks_body n site)⟩
    · obtain ⟨tasks, hturn, hasks, -⟩ := (step_quietly t s hloads).inTurn (worker_givesBack n)
      rcases hturn.started hpath with hbefore | ⟨t', s', hmem, hbefore, hafter⟩
      · exact .inl hbefore
      · obtain ⟨r, s₂, hran⟩ := (ih t' s' hafter).resolve_left hbefore
        exact .inr ⟨r, s₂, hran.inside ((hasks t' s').2 hmem)⟩

/-- A module that has been started when a task asks for another is being loaded then, or was
started before, or was run by the task. -/
theorem Worker.Asks.runsModule (hask : (worker n).Asks t s t₁ s₁) (hpath : path ∈ s₁.started) :
    path ∈ s.started ∨ path ∈ s₁.context.loading ∨
      ∃ r s₂, RunsModule (n + 1) t s path r s₂ ∧ s₂.Grows s₁ := by
  by_cases hloads : t.Loads s
  · obtain ⟨site, other, p, rfl, hfirst⟩ := hloads
    obtain ⟨-, rfl⟩ | ⟨-, rfl⟩ := hfirst.asks_cases hask
    · rcases List.mem_cons.1 hpath with rfl | hbefore
      · exact .inr (.inl List.mem_cons_self)
      · exact .inl hbefore
    · have hback : (s.ran other p n).Grows { s.ran other p n with context := s.context } :=
        (Session.Grows.refl _).within
      rcases runsModule_of_started n _ _ hpath with hpath | ⟨r, s₂, hran⟩
      · rcases List.mem_cons.1 hpath with rfl | hbefore
        · exact .inr (.inr ⟨_, _, .here hfirst n site, hback⟩)
        · exact .inl hbefore
      · exact .inr (.inr ⟨r, s₂, hran.inside (hfirst.asks_body n site), hran.grows_end.trans hback⟩)
  · obtain ⟨tasks, hturn, hasks, -⟩ := (step_quietly t s hloads).inTurn (worker_givesBack n)
    obtain ⟨earlier, hsub, hearlier⟩ := hturn.upTo ((hasks t₁ s₁).1 hask)
    rcases hearlier.started hpath with hbefore | ⟨t', s', hmem, hbefore, hafter⟩
    · exact .inl hbefore
    · obtain ⟨r, s₂, hran⟩ := (runsModule_of_started n t' s' hafter).resolve_left hbefore
      have hgrows := (hearlier.mono fun _ _ h => h.grows).around (worker_givesBack n) hmem
      exact .inr (.inr ⟨r, s₂, hran.inside ((hasks t' s').2 (hsub hmem)),
        hran.grows_end.trans hgrows.2⟩)

theorem Worker.Asks.loading (hask : (worker n).Asks t s t₁ s₁) :
    s.context.loading ⊆ s₁.context.loading := by
  by_cases hloads : t.Loads s
  · obtain ⟨site, path, p, rfl, hfirst⟩ := hloads
    obtain ⟨-, rfl⟩ | ⟨-, rfl⟩ := hfirst.asks_cases hask
    · exact List.subset_cons_self _ _
    · exact List.Subset.refl _
  · obtain ⟨tasks, hturn, hasks, -⟩ := (step_quietly t s hloads).inTurn (worker_givesBack n)
    obtain ⟨earlier, -, hearlier⟩ := hturn.upTo ((hasks t₁ s₁).1 hask)
    rw [hearlier.loading (worker_givesBack n)]
    exact List.Subset.refl _

theorem Leads.loading (h : Leads via n t s m t' s') :
    s.context.loading ⊆ s'.context.loading := by
  induction h with
  | here => exact List.Subset.refl _
  | inside _ hask _ ih => exact List.Subset.trans hask.loading ih

theorem Leads.runsModule (h : Leads via n t s m t' s') (hpath : path ∈ s'.started) :
    path ∈ s.started ∨ path ∈ s'.context.loading ∨
      ∃ r s₂, RunsModule n t s path r s₂ ∧ s₂.Grows s' := by
  induction h with
  | here => exact .inl hpath
  | inside _ hask hrest ih =>
    rcases ih hpath with hbefore | hloading | ⟨r, s₂, hran, hgrows⟩
    · rcases hask.runsModule hbefore with hbefore | hloading | ⟨r, s₂, hran, hgrows⟩
      · exact .inl hbefore
      · exact .inr (.inl (hrest.loading hloading))
      · exact .inr (.inr ⟨r, s₂, hran, hgrows.trans hrest.around.1⟩)
    · exact .inr (.inl hloading)
    · exact .inr (.inr ⟨r, s₂, hran.inside hask, hgrows⟩)

-- ---------------------------------------------------------------------------
-- The history of a session
-- ---------------------------------------------------------------------------

/-- What a session has been through: what the entries asked for that were accepted, latest first,
each with its allowance and the session in which it was carried out. -/
inductive Lived : List (Nat × Task × Session) → Session → Prop
  | start : Lived [] (.start sources refusal clock)
  | run (entry : Entry) (fuel : Nat) : Lived runs s → entry.prepared s.nextId = .ok p →
    Lived ((fuel, p.tree.task, s.commit p) :: runs) ((entry.run fuel).on s).2
  | refused (entry : Entry) (fuel : Nat) : Lived runs s → entry.prepared s.nextId = .error e →
    Lived runs ((entry.run fuel).on s).2
  | told : Lived runs s → Lived runs { s with output := output, clock := clock }

theorem Reachable.lived (h : Reachable units s) : ∃ runs, Lived runs s := by
  induction h with
  | start => exact ⟨[], .start⟩
  | told _ ih =>
    obtain ⟨runs, hs⟩ := ih
    exact ⟨runs, .told hs⟩
  | @run units s entry fuel _ ih =>
    obtain ⟨runs, hs⟩ := ih
    cases hp : entry.prepared s.nextId with
    | error e => exact ⟨runs, .refused entry fuel hs hp⟩
    | ok p => exact ⟨_, .run entry fuel hs hp⟩

/-- In the course of one of the runs the module was run; its top level ended in `r` and left
`s₂`. -/
def Ran (runs : List (Nat × Task × Session)) (path : String) (r : Except Halt Unit)
    (s₂ : Session) : Prop :=
  ∃ n t s, (n, t, s) ∈ runs ∧ RunsModule n t s path r s₂

theorem ran_cons_iff : Ran ((n, t, s) :: runs) path r s₂ ↔
    RunsModule n t s path r s₂ ∨ Ran runs path r s₂ := by
  constructor
  · rintro ⟨n', t', s', hmem, hran⟩
    rcases List.mem_cons.1 hmem with heq | hmem
    · cases heq
      exact .inl hran
    · exact .inr ⟨n', t', s', hmem, hran⟩
  · rintro (hran | ⟨n', t', s', hmem, hran⟩)
    · exact ⟨n, t, s, List.mem_cons_self, hran⟩
    · exact ⟨n', t', s', List.mem_cons_of_mem _ hmem, hran⟩

namespace Lived

theorem reachable (h : Lived runs s) : ∃ units, Reachable units s := by
  induction h with
  | start => exact ⟨[], .start⟩
  | told _ ih =>
    obtain ⟨units, hs⟩ := ih
    exact ⟨units, .told hs⟩
  | run entry fuel _ _ ih =>
    obtain ⟨units, hs⟩ := ih
    exact ⟨_, .run entry fuel hs⟩
  | refused entry fuel _ _ ih =>
    obtain ⟨units, hs⟩ := ih
    exact ⟨_, .run entry fuel hs⟩

theorem grows (h : Lived runs s) (hran : Ran runs path r s₂) : s₂.Grows s := by
  induction h with
  | start =>
    obtain ⟨_, _, _, hmem, -⟩ := hran
    cases hmem
  | told _ ih => exact { ih hran with }
  | refused entry fuel _ hp ih =>
    rw [entry.on_run_error fuel hp]
    exact ih hran
  | @run runs s p entry fuel _ hp ih =>
    rcases ran_cons_iff.1 hran with hran | hran
    · rw [entry.on_run_ok fuel hp]
      exact hran.grows_end
    · exact (ih hran).trans (entry.run_later fuel s).grows

/-- A module that an earlier entry ran is in the table when the next one begins. -/
theorem not_again (h : Lived runs s) (hp : Entry.prepared entry s.nextId = .ok p)
    (hearlier : Ran runs path r v)
    (hran : RunsModule fuel p.tree.task (s.commit p) path r' v') : False := by
  obtain ⟨n, t, u, -, hearlier'⟩ := id hearlier
  obtain ⟨m, site, s₁, p₁, hleads, hfirst, -⟩ := hran
  have hcommit : s.Grows (s.commit p) := .commit (entry.checked hp)
  have hknown := hearlier'.contains ((h.grows hearlier).trans (hcommit.trans hleads.around.1))
  rw [hfirst.unknown] at hknown
  cases hknown

theorem unique (h : Lived runs s) (h₁ : Ran runs path r₁ v₁) (h₂ : Ran runs path r₂ v₂) :
    r₁ = r₂ ∧ v₁ = v₂ := by
  induction h with
  | start =>
    obtain ⟨_, _, _, hmem, -⟩ := h₁
    cases hmem
  | told _ ih => exact ih h₁ h₂
  | refused entry fuel _ hp ih => exact ih h₁ h₂
  | @run runs s p entry fuel hlived hp ih =>
    rcases ran_cons_iff.1 h₁ with h₁ | h₁ <;> rcases ran_cons_iff.1 h₂ with h₂ | h₂
    · exact h₁.unique h₂
    · exact (hlived.not_again hp h₂ h₁).elim
    · exact (hlived.not_again hp h₁ h₂).elim
    · exact ih h₁ h₂

/-- Between entries, every module that was started was run by one of them. -/
theorem ran (h : Lived runs s) (hpath : path ∈ s.started) : ∃ r s₂, Ran runs path r s₂ := by
  induction h with
  | start => cases hpath
  | told _ ih => exact ih hpath
  | refused entry fuel _ hp ih =>
    rw [entry.on_run_error fuel hp] at hpath
    exact ih hpath
  | @run runs s p entry fuel _ hp ih =>
    rw [entry.on_run_ok fuel hp] at hpath
    rcases runsModule_of_started fuel _ _ hpath with hbefore | ⟨r, s₂, hran⟩
    · obtain ⟨r, s₂, hran⟩ := ih hbefore
      exact ⟨r, s₂, ran_cons_iff.2 (.inr hran)⟩
    · exact ⟨r, s₂, ran_cons_iff.2 (.inl hran)⟩

end Lived

/-- The table has only modules that have been started. -/
theorem kept_started :
    KeptBetween fun s => ∀ path, s.modules.contains path = true → path ∈ s.started where
  change {s s'} h hs path hpath := by
    cases h with
    | exported name value hm =>
      simp only [Table.contains, Table.get?_insert] at hpath
      split at hpath
      · next heq =>
        subst heq
        exact hs _ (by simp [Table.contains, hm])
      · exact hs path hpath
    | _ => exact hs path hpath
  enter hs := hs
  load {s path source p} hs _ _ _ other hother := by
    simp only [Session.load, Table.contains, Table.get?_insert] at hother
    split at hother
    · next heq =>
      subst heq
      exact List.mem_cons_self
    · exact List.mem_cons_of_mem _ (hs other hother)
  back _ _ hs' := hs'
  start _ _ _ path hpath := by cases hpath
  commit _ hs := hs
  told _ _ hs := hs

theorem firstImport_of_ok (hunknown : s.modules.contains path = false)
    (hok : (worker (m + 1) (.importModule site path)).on s = (.ok (), s')) :
    ∃ p, s.FirstImport path p := by
  have hstep : Triple (Run.importWith (worker m) site path) s
      (fun _ _ => ∃ p, s.FirstImport path p) (fun _ _ => True) := by
    refine Triple.importWith (fun hknown => ?_) trivial (fun _ _ _ _ => trivial) ?_
    · rw [hunknown] at hknown
      cases hknown
    · intro source p _ hsource hp
      have hfirst : ∃ p, s.FirstImport path p := ⟨p, hunknown, source, hsource, hp⟩
      exact .of_forall (fun _ _ => .of_forall (fun _ _ => hfirst) fun _ _ => trivial)
        fun _ _ => trivial
  exact hstep.result hok

/-- When an import succeeds, in the course of any entry and outside the top level of its own module,
the top level of the module has been carried out to its end, before or by this import, exactly if no
earlier run of it failed. -/
theorem imported_module_completed_iff (hlived : Lived runs s₀)
    (hp : Entry.prepared entry s₀.nextId = .ok p)
    (hin : Leads anyhow fuel p.tree.task (s₀.commit p) m (.importModule site path) s)
    (hok : (worker m (.importModule site path)).on s = (.ok (), s'))
    (hidle : path ∉ s.context.loading) :
    (∃ s₂, Ran ((fuel, p.tree.task, s₀.commit p) :: runs) path (.ok ()) s₂ ∧ s₂.Grows s') ↔
      ¬ ∃ halt s₂, Ran ((fuel, p.tree.task, s₀.commit p) :: runs) path (.error halt) s₂ ∧
        s₂.Grows s := by
  obtain ⟨m, rfl⟩ : ∃ k, m = k + 1 := by
    cases m with
    | zero => cases hok
    | succ m => exact ⟨m, rfl⟩
  have hlived' := Lived.run entry fuel hlived hp
  obtain ⟨units, hs₀⟩ := hlived.reachable
  have hend : s.Grows s' := by
    have hlater := worker_later (m + 1) (.importModule site path) s
    rw [hok] at hlater
    exact hlater.grows
  cases hknown : s.modules.contains path with
  | false =>
    obtain ⟨p₁, hfirst⟩ := firstImport_of_ok hknown hok
    have hcompleted := hfirst.completed (by rw [hok])
    have hgrows : (s.ran path p₁ m).Grows s' := by
      have := hfirst.ran_grows_end m site
      rwa [hok] at this
    refine iff_of_true ⟨_, ran_cons_iff.2 (.inl ⟨m, site, s, p₁, hin, hfirst, hcompleted⟩),
      hgrows⟩ ?_
    rintro ⟨halt, s₂, ⟨n, t, u, -, hran⟩, hbefore⟩
    rw [hran.contains hbefore] at hknown
    cases hknown
  | true =>
    have hstarted : path ∈ s.started :=
      (kept_started.comesTo hs₀ hp hin.comesTo).1 path hknown
    -- The one run of the module is over when the import begins.
    obtain ⟨r, s₂, hran, hbefore⟩ : ∃ r s₂,
        Ran ((fuel, p.tree.task, s₀.commit p) :: runs) path r s₂ ∧ s₂.Grows s := by
      rcases hin.runsModule hstarted with hearlier | hloading | ⟨r, s₂, hran, hbefore⟩
      · obtain ⟨r, s₂, hran⟩ := hlived.ran hearlier
        have hcommit : s₀.Grows (s₀.commit p) := .commit (entry.checked hp)
        exact ⟨r, s₂, ran_cons_iff.2 (.inr hran),
          (hlived.grows hran).trans (hcommit.trans hin.around.1)⟩
      · exact absurd hloading hidle
      · exact ⟨r, s₂, ran_cons_iff.2 (.inl hran), hbefore⟩
    cases r with
    | ok =>
      refine iff_of_true ⟨s₂, hran, hbefore.trans hend⟩ ?_
      rintro ⟨halt, s₃, hfailed, -⟩
      cases (hlived'.unique hran hfailed).1
    | error halt =>
      refine iff_of_false ?_ fun hnone => hnone ⟨halt, s₂, hran, hbefore⟩
      rintro ⟨s₃, hcompleted, -⟩
      cases (hlived'.unique hran hcompleted).1

-- A module that declares a variable and then fails, and two units that import it.

def faulty : Prepared (List Stmt) :=
  ⟨[.var ⟨.identifier, "a", 1⟩ (some (.literal (.bool true))),
    .expression (.var 0 ⟨.identifier, "b", 1⟩)], [], 1⟩

def importing : Prepared (List Stmt) :=
  ⟨[.importModule ⟨.kwImport, "import", 1⟩ ⟨.text "m", "\"m\"", 1⟩], [], 0⟩

def printing : Prepared (List Stmt) :=
  ⟨[.importModule ⟨.kwImport, "import", 1⟩ ⟨.text "m", "\"m\"", 1⟩,
    .print (.var 1 ⟨.identifier, "a", 1⟩)], [], 2⟩

namespace Faulty

def before : Session :=
  .start (fun path => if path = "m" then some "var a=true;b;" else none) none (.still 0)

/-- The session that the failed import leaves. -/
def between : Session :=
  { before with
    frames := (Frames.initial.addChild rootFrame).define 1 "a" (.bool true)
    nextId := 1
    modules := Table.empty.insert "m" ⟨1, .empty⟩
    started := ["m"] }

def fault : Halt :=
  .error (.runtime ⟨1, "b"⟩ (.undefinedVariable "b"))

theorem first_prepared :
    (Entry.unit "import\"m\";").prepared before.nextId = .ok (importing.mapTree .statements) := by
  decide +kernel

theorem second_prepared : (Entry.unit "import\"m\";print a;").prepared between.nextId =
    .ok (printing.mapTree .statements) := by
  decide +kernel

theorem firstImport : (before.commit importing).FirstImport "m" faulty := by
  have hp : Prepared.program "var a=true;b;" 0 = .ok faulty := by decide +kernel
  exact ⟨rfl, _, rfl, hp⟩

theorem body_fails : (worker 3 (.interpret faulty.tree)).on
    ((before.commit importing).load "m" faulty) =
      (.error fault, { between with context := ⟨1, 1, ["m"]⟩ }) := by
  rfl

theorem import_fails : ((Entry.unit "import\"m\";").run 6).on before = (.error fault, between) := by
  have hstep : (worker 4 (.importModule ⟨1, "import"⟩ "m")).on (before.commit importing) =
      (.error fault, between) := by
    change ((worker 3).step (.importModule ⟨1, "import"⟩ "m")).on (before.commit importing) = _
    rw [firstImport.step_on, Script.firstImport, Script.play, body_fails]
    rfl
  have hrun : (worker 6 (.interpret importing.tree)).on (before.commit importing) =
      (.error fault, between) := by
    have htask : worker 6 (.interpret importing.tree) =
        ((worker 4 (.importModule ⟨1, "import"⟩ "m") >>= fun _ => pure Flow.normal) >>=
          fun _ => Run.every (worker 5).execute []) := rfl
    rw [htask, Run.on_bind, Run.on_bind, hstep]
  rw [Entry.on_run_ok _ _ first_prepared]
  exact congrArg (fun r => (Except.map (fun _ => none) r.1, r.2)) hrun

theorem second_import_succeeds :
    (worker 4 (.importModule ⟨1, "import"⟩ "m")).on (between.commit printing) =
      (.ok (), { between.commit printing with
        frames := between.frames.define rootFrame "a" (.bool true) }) := by
  rfl

theorem lived : Lived [(6, .interpret importing.tree, before.commit importing)] between := by
  have hrun := Lived.run (.unit "import\"m\";") 6 .start first_prepared
  rwa [show (Entry.run 6 (.unit "import\"m\";")).on (.start _ none (.still 0)) = _ from
    import_fails] at hrun

/-- A unit that begins with an import of the module comes to the import. -/
theorem leads_import (rest : List Stmt) (s : Session) :
    Leads anyhow 6 (.interpret (importing.tree ++ rest)) s 4
      (.importModule ⟨1, "import"⟩ "m") s := by
  have hstatement : BeginsWith (.interpret (importing.tree ++ rest)) s (.execute (.importModule
      ⟨.kwImport, "import", 1⟩ ⟨.text "m", "\"m\"", 1⟩)) s := fun _ _ h => Run.on_bind_error h
  have himport : BeginsWith (.execute (.importModule ⟨.kwImport, "import", 1⟩
      ⟨.text "m", "\"m\"", 1⟩)) s (.importModule ⟨1, "import"⟩ "m") s :=
    fun _ _ h => Run.on_bind_error h
  exact .inside trivial (hstatement.asks _) (.inside trivial (himport.asks _) .here)

theorem ran : Ran [(6, .interpret importing.tree, before.commit importing)] "m" (.error fault)
    { between with context := ⟨1, 1, ["m"]⟩ } :=
  ran_cons_iff.2 (.inl ⟨3, _, _, faulty, leads_import [] _, firstImport, body_fails⟩)

end Faulty

/-- The second import succeeds outside the module, and no run of the module has come to its end. -/
theorem second_import_finds_failed_module :
    (worker 4 (.importModule ⟨1, "import"⟩ "m")).on (Faulty.between.commit printing) =
      (.ok (), { Faulty.between.commit printing with
        frames := Faulty.between.frames.define rootFrame "a" (.bool true) }) ∧
    ¬ ∃ s₂, Ran [(6, .interpret printing.tree, Faulty.between.commit printing),
        (6, .interpret importing.tree, Faulty.before.commit importing)] "m" (.ok ()) s₂ ∧
      s₂.Grows { Faulty.between.commit printing with
        frames := Faulty.between.frames.define rootFrame "a" (.bool true) } := by
  refine ⟨Faulty.second_import_succeeds, fun hcompleted => ?_⟩
  have hcommit : Faulty.between.Grows (Faulty.between.commit printing) :=
    .commit ((Entry.unit "import\"m\";print a;").checked Faulty.second_prepared)
  refine (imported_module_completed_iff Faulty.lived Faulty.second_prepared
    (Faulty.leads_import _ _) Faulty.second_import_succeeds List.not_mem_nil).1 hcompleted ?_
  exact ⟨_, _, ran_cons_iff.2 (.inr Faulty.ran), (Faulty.lived.grows Faulty.ran).trans hcommit⟩

/-- The module fails at `b`. Imported again it is there, and passes on the variable that it had
declared by then. -/
theorem failed_module_is_passed_on :
    ((Entry.unit "import\"m\";").run 6).on Faulty.before = (.error Faulty.fault, Faulty.between) ∧
    ∃ s, ((Entry.unit "import\"m\";print a;").run 6).on Faulty.between = (.ok none, s) ∧
      s.output = "true\n" := by
  refine ⟨Faulty.import_fails, ?_⟩
  have hrun : ∃ s, (worker 6 (.interpret printing.tree)).on (Faulty.between.commit printing) =
      (.ok (), s) ∧ s.output = "true\n" := ⟨_, rfl, rfl⟩
  obtain ⟨s, hrun, houtput⟩ := hrun
  refine ⟨s, ?_, houtput⟩
  rw [Entry.on_run_ok _ _ Faulty.second_prepared]
  exact congrArg (fun r => (Except.map (fun _ => none) r.1, r.2)) hrun

end Treewalk
