import Treewalk.Proofs.Phases
import Treewalk.Proofs.Shifts

/-!
# Sources that are refused

A source that is refused, entered or imported, changes nothing that can be seen, then or later. That
is plain where sources are prepared apart from the session. Where they are prepared in the session
itself, a refused source leaves marks there: numbers of nodes that no tree has, and distances noted
for them. The two ways of preparing sources are run side by side here, and cannot be told apart.
-/

namespace Treewalk

open Renamings (plain)

-- ---------------------------------------------------------------------------
-- Marks
-- ---------------------------------------------------------------------------

/-- Nothing differs but the numbers of nodes. -/
abbrev Likeness.renumbered : Likeness :=
  .shifted .identity

namespace Likeness

/-- Marks are not seen. -/
theorem Holds.marked {W : World} {env : Renamings} {s s' s'' : Session}
    (h : renumbered.Holds W env s s') (hmarked : s'.Marked s'') :
    renumbered.Holds W env s s'' := by
  have hnotes : renumbered.Notes W.noted s.nextId s''.nextId s.distances s''.distances := {
    nextId := trivial
    noted := fun i j d hij => by
      obtain ⟨hnodes, hi, hj, hd, hd'⟩ := h.notes.noted i j d hij
      exact ⟨hnodes, hi, Nat.lt_of_lt_of_le hj hmarked.nextId, hd,
        (hmarked.distances j (.inl hj)).trans hd'⟩
    unnoted := h.notes.unnoted
    unnoted' := fun j hj => by
      rw [hmarked.distances j (.inr hj)]
      exact h.notes.unnoted' j (Nat.le_trans hmarked.nextId hj)
    agreed := fun _ _ hij => hij.elim }
  rw [← hmarked.others]
  exact { h with notes := hnotes }

end Likeness

-- ---------------------------------------------------------------------------
-- Imports
-- ---------------------------------------------------------------------------

theorem Session.Marked.later {s s' : Session} (h : s.Marked s') : s.Later s' := by
  have hdistances : ∀ id < s.nextId, s'.distances[id]? = s.distances[id]? :=
    fun id hid => h.distances id (.inl hid)
  have hnextId := h.nextId
  revert hdistances hnextId
  rw [← h.others]
  exact fun hdistances hnextId =>
    ⟨⟨.refl _, .refl _, hnextId, hdistances, fun path m hm => ⟨m, hm, rfl⟩, List.suffix_rfl, rfl⟩,
      rfl⟩

/-- Wherever it is prepared, an import does the same, but for the marks that it leaves if the
module is refused. -/
theorem Run.on_importInPlace (w : Worker) (site : Site) (path : String) (s : Session) :
    (importInPlace w site path).on s = (importWith w site path).on s ∨
      ∃ source e, s.modules.contains path = false ∧ s.sources path = some source ∧
        Prepared.program source s.nextId = .error e ∧
        (importInPlace w site path).on s = (.error (.error (.inModule path e)),
          ((submit Parser.program .statements source).on s).2) ∧
        s.Marked ((submit Parser.program .statements source).on s).2 := by
  cases hnot : s.modules.contains path with
  | true =>
    left
    simp only [importInPlace, importWith, on_bind, on_get, hnot, if_true]
  | false =>
    cases hsource : s.sources path with
    | none =>
      left
      simp only [importInPlace, importWith, on_bind, on_get, hnot, hsource]
    | some source =>
      have hsubmits := submits_program source s
      cases hp : Prepared.program source s.nextId with
      | ok p =>
        rw [hp] at hsubmits
        cases hsubmits with
        | ok hm =>
          left
          simp only [importInPlace, importWith, on_bind, on_get, hnot, hsource, hp, on_asModule, hm,
            on_commit, Bool.false_eq_true, if_false]
      | error e =>
        rw [hp] at hsubmits
        cases hsubmits with
        | error hm hmarked =>
          refine .inr ⟨source, e, rfl, rfl, hp, ?_, hm ▸ hmarked⟩
          simp only [importInPlace, on_bind, on_get, hnot, hsource, on_asModule, hm,
            Bool.false_eq_true, if_false]

section
variable {I : Session → Prop} (hI : Kept I)
  (hrefused : ∀ {path source e} {s : Session}, I s → s.sources path = some source →
    Prepared.program source s.nextId = .error e →
    I ((Run.submit Parser.program .statements source).on s).2)
include hI hrefused

/-- With modules prepared in the session a task keeps what it keeps with modules prepared apart, if
that survives the modules that are refused. -/
theorem Kept.stepInPlace {w : Worker} (hw : w.Honours (contract I)) (t : Task) :
    Steady I (w.stepInPlace t) := by
  cases t with
  | importModule site path =>
    intro s hs
    have hstep := hI.importWith hw site path s hs
    rcases Run.on_importInPlace w site path s with hon | hon
    · have hinPlace : (w.stepInPlace (.importModule site path)).on s = _ := hon
      unfold Triple at hstep ⊢
      rwa [hinPlace]
    · obtain ⟨source, e, -, hsource, hp, hon, hmarked⟩ := hon
      refine Triple.of_error hon ⟨⟨source, s.nextId, ?_, hp⟩, hrefused hs hsource hp, hmarked.later⟩
      rw [hmarked.later.grows.sources, hsource]
  | _ => exact hI.step hw _

theorem Kept.runInPlace (fuel : Nat) : (workerInPlace fuel).Honours (contract I) := by
  induction fuel with
  | zero => exact fun _ s hpre => ⟨trivial, hpre.1, .refl s⟩
  | succ fuel ih => exact fun t s hpre => hI.stepInPlace hrefused ih t s hpre.1

theorem Kept.afterInPlace (fuel : Nat) (t : Task) {s : Session} (hs : I s) :
    I ((workerInPlace fuel t).on s).2 := by
  cases fuel with
  | zero => exact hs
  | succ fuel =>
    have hstep : Triple (workerInPlace (fuel + 1) t) s _ _ :=
      hI.stepInPlace hrefused (hI.runInPlace hrefused fuel) t s hs
    rcases hr : (workerInPlace (fuel + 1) t).on s with ⟨_ | _, s'⟩
    · exact (hstep.halt hr).2.1
    · exact (hstep.result hr).1

end

namespace Likeness

variable {W : World} {env : Renamings} {s s' : Session} {w w' : Worker}

theorem Paired.importInPlace (hw : renumbered.Paired w w') (hs : renumbered.Holds W env s s')
    (henv : env 0 = 1) (site : Site) (path : String) :
    renumbered.Joint W env s s' (Run.importWith w site path) (Run.importInPlace w' site path)
      fun _ _ _ => True := by
  have hjoint := hw.importWith hs henv site path
  unfold Joint at hjoint ⊢
  rcases Run.on_importInPlace w' site path s' with hon | hon
  · rwa [hon]
  · obtain ⟨source, e, hnot, hsource, hp, hon, hmarked⟩ := hon
    rw [Run.on_refusedImport hnot hsource hp] at hjoint
    rw [hon]
    generalize (Run.importWith w site path).on s = x at hjoint ⊢
    cases hjoint with
    | halt hW ht hhalt => exact .halt hW (ht.marked hmarked) hhalt

theorem Paired.stepInPlace (hw : renumbered.Paired w w') :
    renumbered.Paired w.step w'.stepInPlace where
  evaluate := hw.evaluateWith
  callValue := hw.callValueWith
  construct := hw.constructWith
  invoke := hw.invokeWith
  execute := hw.executeWith
  loop := hw.loopWith
  interpret := hw.every
  importModule := hw.importInPlace
  splice hs henv path := .splice hs henv path

theorem paired_inPlace : ∀ fuel, renumbered.Paired (worker fuel) (workerInPlace fuel)
  | 0 => renumbered.paired_worker 0
  | fuel + 1 => (paired_inPlace fuel).stepInPlace

/-- Entries that are prepared in the two ways go in lockstep. -/
theorem joint_inPlace (hs : renumbered.Holds W plain s s') (entry : Entry) (fuel : Nat) :
    renumbered.Joint W plain s s' (entry.run fuel) (entry.runInPlace fuel) fun W' =>
      Option.Rel (Value.Like renumbered W') := by
  have hready := shifted_prepares .identity entry s.nextId s'.nextId trivial
  have hsubmits := entry.submits s'
  unfold Joint
  cases hp : entry.prepared s.nextId with
  | error e =>
    rw [hp] at hready
    generalize entry.prepared s'.nextId = x' at hready hsubmits
    cases hready
    cases hsubmits with
    | error hm hmarked =>
      rw [Entry.on_run_error _ _ hp, Entry.runInPlace, Run.on_bind, hm]
      exact .halt (.refl W) (hs.marked hmarked) (.same _)
  | ok p =>
    rw [hp] at hready
    generalize entry.prepared s'.nextId = x' at hready hsubmits
    cases hready with
    | ok hready =>
      cases hsubmits with
      | ok hm =>
        obtain ⟨W', hW, ht, htree⟩ := hs.commit hready
        rw [Entry.on_run_ok _ _ hp, Entry.runInPlace, Run.on_bind, hm, ← Run.on_map]
        exact ((paired_inPlace fuel).line ht htree).grow hW

end Likeness

-- ---------------------------------------------------------------------------
-- Histories
-- ---------------------------------------------------------------------------

/-- Sessions between entries that have had the same history, where sources were prepared apart from
the first and in the second itself. -/
inductive BothWays : Session → Session → Prop
  | start : BothWays (.start sources refusal clock) (.start sources refusal clock)
  | run (entry : Entry) (fuel : Nat) : BothWays s s' →
    BothWays ((entry.run fuel).on s).2 ((entry.runInPlace fuel).on s').2
  | told : BothWays s s' →
    BothWays { s with output := output, clock := clock }
      { s' with output := output, clock := clock }

theorem BothWays.holds (h : BothWays s s') : ∃ W, Likeness.renumbered.Holds W plain s s' := by
  induction h with
  | @start sources refusal clock =>
    refine ⟨Likeness.blank,
      Likeness.start Translation.identity_exact.toInPlace trivial fun path => ?_⟩
    cases sources path with
    | none => exact .none
    | some source => exact .some (Likeness.shifted_modules .identity source)
  | run entry fuel _ ih =>
    obtain ⟨W, hs⟩ := ih
    obtain ⟨W', -, ht, -⟩ := (Likeness.joint_inPlace hs entry fuel).result
    exact ⟨W', ht⟩
  | told _ ih =>
    obtain ⟨W, hs⟩ := ih
    exact ⟨W, { hs with output := rfl, clock := rfl }⟩

/-- What each visit comes to where sources are prepared in the session, in order, and the session
behind the last. -/
def Session.visitedInPlace (s : Session) :
    List Visit → List (Except Halt (Option Value)) × Session
  | [] => ([], s)
  | v :: rest =>
    let (result, after) := (v.entry.runInPlace v.fuel).on { s with clock := v.clock }
    let (results, last) := after.visitedInPlace rest
    (result :: results, last)

/-- Visits come to the same, and leave the same output. -/
structure SameVisits
    (visited visited' : List (Except Halt (Option Value)) × Session) : Prop where
  results : SameResults visited.2.arrays visited'.2.arrays visited.1 visited'.1
  output : visited.2.output = visited'.2.output

theorem SameVisits.symm (h : SameVisits visited visited') : SameVisits visited' visited :=
  ⟨h.results.symm, h.output.symm⟩

theorem SameVisits.trans (h : SameVisits visited visited') (h' : SameVisits visited' visited'') :
    SameVisits visited visited'' :=
  ⟨h.results.trans h'.results, h.output.trans h'.output⟩

namespace Likeness

theorem Holds.visitedInPlace_like {W : World} {s s' : Session}
    (hs : renumbered.Holds W plain s s') (visits : List Visit) :
    ∃ W', W.Grows W' ∧
      renumbered.Holds W' plain (s.visited visits).2 (s'.visitedInPlace visits).2 ∧
      List.Forall₂ (renumbered.ResultLike W') (s.visited visits).1
        (s'.visitedInPlace visits).1 := by
  induction visits generalizing W s s' with
  | nil => exact ⟨W, .refl W, hs, .nil⟩
  | cons v rest ih =>
    obtain ⟨W₁, hW₁, ht, hr⟩ := (joint_inPlace (hs.told v.clock) v.entry v.fuel).result
    obtain ⟨W₂, hW₂, hu, hrs⟩ := ih ht
    exact ⟨W₂, hW₁.trans hW₂, hu, .cons (hr.grow hW₂) hrs⟩

theorem Holds.visitedInPlace {W : World} {s s' : Session} (hs : renumbered.Holds W plain s s')
    (visits : List Visit) : SameVisits (s.visited visits) (s'.visitedInPlace visits) := by
  obtain ⟨W', -, ht, hresults⟩ := hs.visitedInPlace_like visits
  exact ⟨sameResults ht.arrays hresults fun _ _ _ hhalt => hhalt.eq fun _ hρ => hρ, ht.output.symm⟩

end Likeness

/-- An entry that fails with a mistake was refused. -/
theorem Entry.refused_of_mistake {entry : Entry} {fuel : Nat}
    (h : ((entry.run fuel).on s).1 = .error (.error e)) (hmistake : e.Mistake) :
    entry.prepared s.nextId = .error e := by
  cases hp : entry.prepared s.nextId with
  | error e' =>
    rw [entry.on_run_error fuel hp] at h
    cases h
    rfl
  | ok p =>
    rw [entry.on_run_ok fuel hp] at h
    cases hr : ((worker fuel p.tree.task).on (s.commit p)).1 with
    | ok a => rw [hr] at h; cases h
    | error halt =>
      rw [hr] at h
      cases h
      have hrun := worker_ofRun hr
      cases hmistake <;> cases hrun

/-- An entry that fails with a mistake where sources are prepared in the session fails so where they
are prepared apart, and was refused in both. -/
theorem BothWays.refused {s₀ s : Session} (h : BothWays s₀ s) {entry : Entry} {fuel : Nat}
    (herror : ((entry.runInPlace fuel).on s).1 = .error (.error e)) (hmistake : e.Mistake) :
    (entry.run fuel).on s₀ = (.error (.error e), s₀) ∧
      s.Marked ((entry.runInPlace fuel).on s).2 := by
  obtain ⟨W, hs⟩ := h.holds
  obtain ⟨W', -, -, hresult⟩ := (Likeness.joint_inPlace hs entry fuel).result
  rw [herror] at hresult
  have hrun : ((entry.run fuel).on s₀).1 = .error (.error e) := by
    generalize ((entry.run fuel).on s₀).1 = result at hresult ⊢
    cases hresult with
    | halt hhalt => rw [hhalt.eq fun _ hρ => hρ]
  have hp := Entry.refused_of_mistake hrun hmistake
  refine ⟨entry.on_run_error fuel hp, ?_⟩
  have hready := Likeness.shifted_prepares .identity entry s₀.nextId s.nextId trivial
  have hsubmits := entry.submits s
  rw [hp] at hready
  generalize entry.prepared s.nextId = x' at hready hsubmits
  cases hready
  cases hsubmits with
  | error hm hmarked =>
    rw [Entry.runInPlace, Run.on_bind, hm]
    exact hmarked

/-- An import that fails in the name of the module that it was to load finds the module's own source
refused: while the module runs, no other import can fail in its name. -/
theorem refused_of_ownError {fuel : Nat} {s : Session}
    (herror : ((Run.importInPlace (workerInPlace fuel) site path).on s).1 =
      .error (.error (.inModule path e))) :
    ∃ source, s.sources path = some source ∧ Prepared.program source s.nextId = .error e := by
  rcases Run.on_importInPlace (workerInPlace fuel) site path s with hon | hon
  · rw [hon] at herror
    have honours := kept_true.runInPlace (fun _ _ _ => trivial) fuel
    have hkept := kept_true.importWith honours site path s trivial
    rcases hr : (Run.importWith (workerInPlace fuel) site path).on s with ⟨result, s'⟩
    rw [hr] at herror
    obtain rfl : result = _ := herror
    obtain ⟨⟨source, start, hsource, hp⟩, -, hlater⟩ := hkept.halt hr
    rw [hlater.grows.sources] at hsource
    exact ⟨source, hsource, Prepared.program_refused_anywhere hp⟩
  · obtain ⟨source, e', -, hsource, hp, hon, -⟩ := hon
    rw [hon] at herror
    cases herror
    exact ⟨source, hsource, hp⟩

/-- A refused import leaves marks, and the module unloaded. -/
theorem Run.on_importInPlace_refused (w : Worker) (site : Site) {s : Session}
    (hnot : s.modules.contains path = false) (hsource : s.sources path = some source)
    (hp : Prepared.program source s.nextId = .error e) :
    ∃ s', (importInPlace w site path).on s = (.error (.error (.inModule path e)), s') ∧
      s.Marked s' := by
  rcases on_importInPlace w site path s with hon | ⟨source', e', -, hsource', hp', hon, hmarked⟩
  · rw [on_refusedImport hnot hsource hp] at hon
    exact ⟨s, hon, .refl s⟩
  · rw [hsource] at hsource'
    cases hsource'
    rw [hp] at hp'
    cases hp'
    exact ⟨_, hon, hmarked⟩

theorem Session.Marked.modules {s s' : Session} (h : s.Marked s') : s'.modules = s.modules := by
  rw [← h.others]

/-- Let sources be prepared in the session itself, marks and all. An entry that fails with a mistake
leaves marks only: nothing is printed, and frames, fields, modules and context are what they were.
Whatever is entered later comes to the same as if the entry had never been made; no mark is ever
consulted. Hence no history tells sessions that are marked from those where sources are prepared
apart and a refused entry leaves nothing at all. The import of a module that is not loaded, if it
fails in the name of the module, leaves marks only, and the module unloaded. -/
theorem refusals_are_atomic (h : BothWays s₀ s) (fuel : Nat) :
    (∀ (entry : Entry) (e : Error), ((entry.runInPlace fuel).on s).1 = .error (.error e) →
      e.Mistake →
      (entry.run fuel).on s₀ = (.error (.error e), s₀) ∧
      s.Marked ((entry.runInPlace fuel).on s).2 ∧
      ∀ visits, SameVisits (s.visitedInPlace visits)
        (((entry.runInPlace fuel).on s).2.visitedInPlace visits)) ∧
    (∀ visits, SameVisits (s₀.visited visits) (s.visitedInPlace visits)) ∧
    ∀ (t : Session) (site : Site) (path : String) (e : Error), t.modules.contains path = false →
      ((workerInPlace fuel (.importModule site path)).on t).1 =
        .error (.error (.inModule path e)) →
      (worker fuel (.importModule site path)).on t = (.error (.error (.inModule path e)), t) ∧
      t.Marked ((workerInPlace fuel (.importModule site path)).on t).2 ∧
      ((workerInPlace fuel (.importModule site path)).on t).2.modules.contains path = false := by
  obtain ⟨W, hs⟩ := h.holds
  refine ⟨fun entry e herror hmistake => ?_, hs.visitedInPlace, fun t site path e hnot herror => ?_⟩
  · obtain ⟨hrun, hmarked⟩ := h.refused herror hmistake
    exact ⟨hrun, hmarked, fun visits =>
      (hs.visitedInPlace visits).symm.trans ((hs.marked hmarked).visitedInPlace visits)⟩
  · cases fuel with
    | zero => cases herror
    | succ fuel =>
      obtain ⟨source, hsource, hp⟩ := refused_of_ownError herror
      obtain ⟨t', hon, hmarked⟩ :=
        Run.on_importInPlace_refused (workerInPlace fuel) site hnot hsource hp
      have hinPlace : (workerInPlace (fuel + 1) (.importModule site path)).on t = _ := hon
      rw [hinPlace]
      exact ⟨Run.on_refusedImport hnot hsource hp, hmarked, hmarked.modules ▸ hnot⟩

-- A source whose walk notes a local variable before it comes to a mistake, entered and imported.

def marking : String :=
  "\x7bvar a;a;\x7dreturn;"

def markingSources (path : String) : Option String :=
  if path = "m" then some marking else none

def marked : Session :=
  ((Entry.runInPlace 1 (.unit marking)).on (.start markingSources none (.still 0))).2

/-- The distance of the local variable stays behind, and nothing else; the session goes on as a new
one. -/
theorem marks_are_not_seen :
    (marked.distances[0]? = some 0 ∧ (Session.start markingSources none (.still 0)).Marked marked) ∧
    (∀ visits, SameVisits ((Session.start markingSources none (.still 0)).visitedInPlace visits)
      (marked.visitedInPlace visits)) ∧
    (marked.Marked ((workerInPlace 1 (.importModule ⟨1, "import"⟩ "m")).on marked).2 ∧
      ((workerInPlace 1 (.importModule ⟨1, "import"⟩ "m")).on marked).2.modules.contains "m" =
        false) := by
  have hrefused (k : NodeId) : Prepared.program marking k =
      .error (.scope ⟨1, "return"⟩ .returnOutsideFunction) := by
    have hp : Prepared.program marking 0 =
        .error (.scope ⟨1, "return"⟩ .returnOutsideFunction) := by decide +kernel
    exact Prepared.program_refused_anywhere hp
  have herror :
      ((Entry.runInPlace 1 (.unit marking)).on (.start markingSources none (.still 0))).1 =
      .error (.error (.scope ⟨1, "return"⟩ .returnOutsideFunction)) := by
    have hsubmits := submits_program marking (.start markingSources none (.still 0))
    rw [hrefused] at hsubmits
    cases hsubmits with
    | error hm => rw [Entry.runInPlace, Run.on_bind, Entry.submit, Run.on_map, hm]; rfl
  have hstart : BothWays (.start markingSources none (.still 0))
    (.start markingSources none (.still 0)) := .start
  obtain ⟨hentry, -, -⟩ := refusals_are_atomic hstart 1
  obtain ⟨-, hmarked, hlater⟩ := hentry _ _ herror .scope
  replace hmarked : (Session.start markingSources none (.still 0)).Marked marked := hmarked
  refine ⟨⟨by decide +kernel, hmarked⟩, hlater, ?_⟩
  have hnot : marked.modules.contains "m" = false := hmarked.modules ▸ rfl
  have hsource : marked.sources "m" = some marking := by
    rw [hmarked.later.grows.sources]
    rfl
  obtain ⟨t, hon, -⟩ :=
    Run.on_importInPlace_refused (workerInPlace 0) ⟨1, "import"⟩ hnot hsource (hrefused _)
  obtain ⟨-, -, himport⟩ := refusals_are_atomic (hstart.run (.unit marking) 1) 1
  exact (himport marked ⟨1, "import"⟩ "m" _ hnot (congrArg Prod.fst hon)).2

end Treewalk
