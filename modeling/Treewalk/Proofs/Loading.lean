import Treewalk.Proofs.Changes

/-!
# Loading modules

A module is entered into the table of modules before its top level starts, and is never taken out
again. So a module that an import runs is none of those that have been started, and imports that run
inside one another are imports of different modules.
-/

namespace Treewalk

/-- What can be said of the modules of a session at any moment. -/
structure Orderly (s : Session) : Prop where
  once : s.started.Nodup
  known : ∀ path ∈ s.started, s.modules.contains path = true
  loadable : ∀ path ∈ s.started, (s.sources path).isSome
  apart : s.context.loading.Nodup
  begun : ∀ path ∈ s.context.loading, path ∈ s.started

namespace Orderly

theorem contains_of_grows {s s' : Session} (h : s.Grows s') (hp : s.modules.contains path = true) :
    s'.modules.contains path = true := by
  obtain ⟨m, hm⟩ := Option.isSome_iff_exists.1 hp
  obtain ⟨m', hm', -⟩ := h.modules path m hm
  simp [Table.contains, hm']

theorem change (hs : Orderly s) (h : Change s s') : Orderly s' := by
  have hstarted : s'.started = s.started := by cases h <;> rfl
  have hlater := h.later
  refine ⟨?_, ?_, ?_, ?_, ?_⟩
  · rw [hstarted]
    exact hs.once
  · rw [hstarted]
    exact fun path hpath => contains_of_grows hlater.grows (hs.known path hpath)
  · rw [hstarted, hlater.grows.sources]
    exact hs.loadable
  · rw [hlater.context]
    exact hs.apart
  · rw [hlater.context, hstarted]
    exact hs.begun

/-- A module that is about to run was not there before, so it is none of those that have started. -/
theorem not_started (hs : Orderly s) (hnot : s.modules.contains path = false) :
    path ∉ s.started := by
  intro hmem
  rw [hs.known path hmem] at hnot
  cases hnot

theorem load (hs : Orderly s) (hnot : s.modules.contains path = false)
    (hsource : s.sources path = some source) : Orderly (s.load path p) where
  once := List.nodup_cons.2 ⟨hs.not_started hnot, hs.once⟩
  known other hother := by
    simp only [Session.load, Table.contains, Table.get?_insert]
    split
    · rfl
    · next hne =>
      rcases List.mem_cons.1 hother with rfl | hmem
      · exact absurd rfl hne
      · exact hs.known other hmem
  loadable other hother := by
    rcases List.mem_cons.1 hother with rfl | hmem
    · simp [Session.load, Session.commit, hsource]
    · exact hs.loadable other hmem
  apart := by
    refine List.nodup_cons.2 ⟨fun hmem => ?_, hs.apart⟩
    exact hs.not_started hnot (hs.begun path hmem)
  begun other hother := by
    rcases List.mem_cons.1 hother with rfl | hmem
    · exact List.mem_cons_self
    · exact List.mem_cons_of_mem _ (hs.begun other hmem)

end Orderly

theorem kept_orderly : KeptBetween Orderly where
  change h hs := hs.change h
  enter hs := ⟨hs.once, hs.known, hs.loadable, hs.apart, hs.begun⟩
  load hs hnot hsource _ := hs.load hnot hsource
  back hs hgrows hs' := ⟨hs'.once, hs'.known, hs'.loadable, hs.apart,
    fun path hpath => hgrows.started.mem (hs.begun path hpath)⟩
  start sources refusal clock :=
    ⟨List.nodup_nil, by simp [Session.start], by simp [Session.start], List.nodup_nil,
      by simp [Session.start, Context.main]⟩
  commit _ hs := ⟨hs.once, hs.known, hs.loadable, hs.apart, hs.begun⟩
  told _ _ hs := ⟨hs.once, hs.known, hs.loadable, hs.apart, hs.begun⟩

/-- Modules that are being loaded are as many as they are different. -/
theorem Orderly.depth_le (hs : Orderly s) {paths : List String}
    (hpaths : ∀ path, (s.sources path).isSome → path ∈ paths) :
    s.context.loading.length ≤ paths.length := by
  refine (List.Nodup.subperm hs.apart fun path hpath => ?_).length_le
  exact hpaths path (hs.loadable path (hs.begun path hpath))

end Treewalk
