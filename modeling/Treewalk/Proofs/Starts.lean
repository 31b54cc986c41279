import Treewalk.Proofs.Completion

/-!
# Starts of modules

The top level of a module starts in an import that runs the module, and nowhere else. Where it
starts, the module is in the table of modules, so that no other import in the life of the session
runs it: none that is inside the first one, and none that begins when the first one is over.
-/

namespace Treewalk

-- ---------------------------------------------------------------------------
-- Imports that start a module
-- ---------------------------------------------------------------------------

theorem Worker.Asks.interpret (h : (worker n).Asks t s (.interpret body) s') :
    ∃ site path p, t = .importModule site path ∧ s.FirstImport path p ∧ body = p.tree ∧
      s' = s.load path p := by
  by_cases hloads : t.Loads s
  · obtain ⟨site, path, p, rfl, hfirst⟩ := hloads
    obtain ⟨hbody, hs'⟩ | ⟨hsplice, -⟩ := hfirst.asks_cases h
    · cases hbody
      exact ⟨site, path, p, rfl, hfirst, rfl, hs'⟩
    · cases hsplice
  · have hmay := h.mayAsk
    cases t with
    | importModule site path =>
      have hquiet : Quietly (fun t => t = .splice path) (fun w => Run.importWith w site path) s :=
        .importWith rfl fun p hp => hloads ⟨site, path, p, rfl, hp⟩
      obtain ⟨tasks, -, hasks, hsplices⟩ := hquiet.inTurn (worker_givesBack n)
      cases hsplices _ _ ((hasks _ _).1 h)
    | execute st => cases st <;> simp_all [Task.MayAsk, Stmt.MayAsk]
    | _ => simp_all [Task.MayAsk]

/-- A run of a top level is the whole run, or that of an import within it. -/
theorem Leads.interpret (h : Leads via n t s m (.interpret body) s') :
    (n = m ∧ t = .interpret body ∧ s = s') ∨
      ∃ site path s₁ p, Leads via n t s (m + 1) (.importModule site path) s₁ ∧
        s₁.FirstImport path p ∧ body = p.tree ∧ s' = s₁.load path p := by
  generalize htask : Task.interpret body = t' at h
  induction h with
  | here => exact .inl ⟨rfl, rfl, rfl⟩
  | inside hvia hask _ ih =>
    subst htask
    refine .inr ?_
    rcases ih rfl with ⟨rfl, rfl, rfl⟩ | ⟨site, path, s₂, p, hleads, hfirst⟩
    · obtain ⟨site, path, p, rfl, hfirst⟩ := hask.interpret
      exact ⟨site, path, _, p, .here, hfirst⟩
    · exact ⟨site, path, s₂, p, .inside hvia hask hleads, hfirst⟩

namespace Leads

/-- A run that begins outside all modules starts the module in an import. -/
theorem start_imports (h : Leads anyhow n t s m (.interpret body) v)
    (hs : s.context.loading = []) (hpath : v.context.loading.head? = some path) :
    ∃ site s₁ p, Leads anyhow n t s (m + 1) (.importModule site path) s₁ ∧
      s₁.FirstImport path p ∧ body = p.tree ∧ v = s₁.load path p := by
  rcases h.interpret with ⟨rfl, rfl, rfl⟩ | ⟨site, other, s₁, p, hleads, hfirst, rfl, rfl⟩
  · rw [hs] at hpath
    cases hpath
  · cases hpath
    exact ⟨site, s₁, p, hleads, hfirst, rfl, rfl⟩

theorem start_runs (h : Leads anyhow n t s m (.interpret body) v)
    (hs : s.context.loading = []) (hpath : v.context.loading.head? = some path) :
    ∃ r s₂, RunsModule n t s path r s₂ := by
  obtain ⟨site, s₁, p, hleads, hfirst, rfl, rfl⟩ := h.start_imports hs hpath
  exact ⟨_, _, m, site, s₁, p, hleads, hfirst, rfl⟩

theorem start_unique (h : Leads anyhow n t s m (.interpret body) v)
    (hs : s.context.loading = []) (hpath : v.context.loading.head? = some path)
    (h' : Leads anyhow n t s m' (.interpret body') v')
    (hpath' : v'.context.loading.head? = some path) : m = m' ∧ body = body' ∧ v = v' := by
  obtain ⟨site, s₁, p, hleads, hfirst, rfl, rfl⟩ := h.start_imports hs hpath
  obtain ⟨site', s₁', p', hleads', hfirst', rfl, rfl⟩ := h'.start_imports hs hpath'
  obtain ⟨rfl, rfl, rfl⟩ := hfirst.once hfirst' hleads hleads'
  exact ⟨rfl, rfl, rfl⟩

end Leads

-- ---------------------------------------------------------------------------
-- The starts in a life
-- ---------------------------------------------------------------------------

/-- Where a top level starts in a life: in which of the runs, what is to be carried out with which
allowance, and in which session. -/
structure ModuleStart where
  run : Nat
  allowance : Nat
  body : List Stmt
  session : Session

/-- It is the top level of the module that starts there. -/
def ModuleStart.Of (x : ModuleStart) (runs : List (Nat × Task × Session)) (path : String) : Prop :=
  ∃ n t s, runs[x.run]? = some (n, t, s) ∧
    Leads anyhow n t s x.allowance (.interpret x.body) x.session ∧
    x.session.context.loading.head? = some path

namespace Lived

/-- Entries begin outside all modules. -/
theorem loading (h : Lived runs s) (hmem : (n, t, u) ∈ runs) : u.context.loading = [] := by
  induction h with
  | start => cases hmem
  | told _ ih => exact ih hmem
  | refused entry fuel _ hp ih => exact ih hmem
  | run entry fuel hlived hp ih =>
    rcases List.mem_cons.1 hmem with heq | hmem
    · cases heq
      obtain ⟨units, hs⟩ := hlived.reachable
      exact congrArg Context.loading (kept_orderly.reachable hs).2
    · exact ih hmem

theorem start_ran (h : Lived runs s) {x : ModuleStart} (hx : x.Of runs path) :
    ∃ r s₂, Ran runs path r s₂ := by
  obtain ⟨n, t, u, hrun, hleads, hpath⟩ := hx
  have hmem := List.mem_of_getElem? hrun
  obtain ⟨r, s₂, hran⟩ := hleads.start_runs (h.loading hmem) hpath
  exact ⟨r, s₂, n, t, u, hmem, hran⟩

theorem start_unique (h : Lived runs s) {x y : ModuleStart} (hx : x.Of runs path)
    (hy : y.Of runs path) : x = y := by
  induction h generalizing x y with
  | start =>
    obtain ⟨_, _, _, hrun, -⟩ := hx
    cases hrun
  | told _ ih => exact ih hx hy
  | refused entry fuel _ hp ih => exact ih hx hy
  | @run runs s p entry fuel hlived hp ih =>
    have hlast : (s.commit p).context.loading = [] :=
      (hlived.run entry fuel hp).loading List.mem_cons_self
    -- A start in the last entry is none of a module that an earlier one has started.
    have hlate {x y : ModuleStart} {i : Nat}
        (hx : x.Of ((fuel, p.tree.task, s.commit p) :: runs) path) (hzero : x.run = 0)
        (hy : ModuleStart.Of { y with run := i } runs path) : False := by
      obtain ⟨n, t, u, hrun, hleads, hpath⟩ := hx
      rw [hzero] at hrun
      cases hrun
      obtain ⟨r, v, hearlier⟩ := hlived.start_ran hy
      obtain ⟨r', v', hran⟩ := hleads.start_runs hlast hpath
      exact hlived.not_again hp hearlier hran
    obtain ⟨i, m, body, v⟩ := x
    obtain ⟨j, m', body', v'⟩ := y
    cases i with
    | zero =>
      cases j with
      | zero =>
        obtain ⟨_, _, _, hrun, hleads, hpath⟩ := hx
        obtain ⟨_, _, _, hrun', hleads', hpath'⟩ := hy
        cases hrun
        cases hrun'
        obtain ⟨rfl, rfl, rfl⟩ := hleads.start_unique hlast hpath hleads' hpath'
        rfl
      | succ j => exact (hlate (y := ⟨j, m', body', v'⟩) hx rfl hy).elim
    | succ i =>
      cases j with
      | zero => exact (hlate (y := ⟨i, m, body, v⟩) hy rfl hx).elim
      | succ j =>
        have hsame := ih (x := ⟨i, m, body, v⟩) (y := ⟨j, m', body', v'⟩) hx hy
        cases hsame
        rfl

end Lived

/-- At every moment of every entry into a session, the top levels that have been started are those
of different modules, those that are in progress are among them and in the table of modules, and no
more of them are inside one another than there are paths with a source. Whenever the top level of a
module starts, its path is added to those that have been started. In the whole life of the session,
up to the end of this entry, two starts of one path are the same start. -/
theorem modules_start_once (hs : Reachable units s₀)
    (hp : Entry.prepared entry s₀.nextId = .ok p)
    (hm : ComesTo nowhere fuel p.tree.task (s₀.commit p) t s) :
    (s₀.started <:+ s.started ∧ s.started.Nodup) ∧
    s.context.loading.Nodup ∧
    (∀ path ∈ s.context.loading, path ∈ s.started ∧ s.modules.contains path = true) ∧
    (∀ paths : List String, (∀ path, (s.sources path).isSome → path ∈ paths) →
      s.context.loading.length ≤ paths.length) ∧
    (∀ body, t = .interpret body → s.context.loading = [] ∨
      ∃ path outer earlier, s.context.loading = path :: outer ∧ s.started = path :: earlier ∧
        path ∉ earlier ∧ ∃ source start prepared, s.sources path = some source ∧
          Prepared.program source start = .ok prepared ∧ body = prepared.tree) ∧
    (∃ runs, Lived runs s₀) ∧ ∀ runs, Lived runs s₀ → ∀ path,
      (∀ x y : ModuleStart, x.Of ((fuel, p.tree.task, s₀.commit p) :: runs) path →
        y.Of ((fuel, p.tree.task, s₀.commit p) :: runs) path → x = y) ∧
      ∀ body outer, t = .interpret body → s.context.loading = path :: outer →
        ∃ m, ModuleStart.Of ⟨0, m, body, s⟩ ((fuel, p.tree.task, s₀.commit p) :: runs) path := by
  obtain ⟨horderly, hstarts⟩ := kept_orderly.comesTo hs hp hm
  have hgrows : s₀.Grows s := by
    have hmain := (kept_orderly.reachable hs).2
    have hcommit := Session.Grows.commit (entry.checked hp)
    exact ((kept_grows s₀).comesTo ⟨hcommit, Kept.starts_task _ p.tree hmain⟩ hm).1
  refine ⟨⟨hgrows.started, horderly.once⟩, horderly.apart, ?_, fun _ => horderly.depth_le, ?_,
    hs.lived, fun runs hlived path => ⟨fun x y => (hlived.run entry fuel hp).start_unique, ?_⟩⟩
  · intro path hpath
    have hbegun := horderly.begun path hpath
    exact ⟨hbegun, horderly.known path hbegun⟩
  · rintro body rfl
    refine hstarts.imp_right ?_
    rintro ⟨s₁, path, source, prepared, hs₁, hnot, hsource, hprepared, rfl, hbody⟩
    exact ⟨path, s₁.context.loading, s₁.started, rfl, rfl, hs₁.not_started hnot, source,
      s₁.nextId, prepared, hsource, hprepared, hbody⟩
  · rintro body outer rfl hloading
    obtain ⟨m, hleads⟩ := hm.leads
    exact ⟨m + 1, fuel, p.tree.task, s₀.commit p, rfl, hleads, congrArg List.head? hloading⟩

def selfImport : Prepared (List Stmt) :=
  ⟨[.importModule ⟨.kwImport, "import", 1⟩ ⟨.text "m", "\"m\"", 1⟩], [], 0⟩

def selfImporting : Session :=
  .start (fun path => if path = "m" then some "import \"m\";" else none) none (.still 0)

/-- While the module that imports itself is being loaded, it has been started once. -/
theorem selfImport_starts_once :
    ComesTo nowhere 4 (.interpret selfImport.tree) (selfImporting.commit selfImport)
      (.interpret selfImport.tree) ((selfImporting.commit selfImport).load "m" selfImport) ∧
    ["m"].Nodup ∧ ((selfImporting.commit selfImport).load "m" selfImport).started = ["m"] ∧
    ∃ m, ∀ x : ModuleStart,
      x.Of [(4, .interpret selfImport.tree, selfImporting.commit selfImport)] "m" ↔
        x = ⟨0, m, selfImport.tree, (selfImporting.commit selfImport).load "m" selfImport⟩ := by
  have hp : Prepared.program "import \"m\";" 0 = .ok selfImport := by decide +kernel
  have hentry : (Entry.unit "import \"m\";").prepared selfImporting.nextId =
      .ok (selfImport.mapTree .statements) := map_eq_ok.2 ⟨selfImport, hp, rfl⟩
  have hm : ComesTo nowhere 4 (.interpret selfImport.tree) (selfImporting.commit selfImport)
      (.interpret selfImport.tree) ((selfImporting.commit selfImport).load "m" selfImport) := by
    refine .first (fun w halt h => Run.on_bind_error h) (fun h => h) ?_
    refine .first (fun w halt h => Run.on_bind_error h) (fun h => h) ?_
    exact .first (beginsWith_load rfl rfl hp) (fun h => h) .beginning
  obtain ⟨⟨-, honce⟩, -, -, -, -, -, hlives⟩ := modules_start_once .start hentry hm
  obtain ⟨hsame, hhere⟩ := hlives [] .start "m"
  obtain ⟨m, hstart⟩ := hhere _ [] rfl rfl
  refine ⟨hm, honce, rfl, m, fun x => ⟨fun hx => hsame _ _ hx hstart, ?_⟩⟩
  rintro rfl
  exact hstart

end Treewalk
