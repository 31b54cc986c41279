import Treewalk.Proofs.Agreement
import Treewalk.Proofs.Contexts
import Treewalk.Proofs.Upholding

/-!
# The globals of units

Code always runs with the global frame of a unit for its globals: of the main program, or of a
module that has been loaded. The frame that it stands in is that very frame, or the frame of a
scope. A global frame has no frames around it but the root, and the modules have different ones; so
a search from the globals ends in them or at the root, and never in the frame of a scope.
-/

namespace Treewalk

/-- The frame is the global frame of a unit. -/
def Session.IsGlobal (s : Session) (frame : FrameId) : Prop :=
  frame = rootFrame ∨ ∃ path m, s.modules.get? path = some m ∧ m.frame = frame

theorem Session.IsGlobal.mono {s s' : Session} (h : s.IsGlobal frame) (hgrows : s.Grows s') :
    s'.IsGlobal frame := by
  refine h.imp_right ?_
  rintro ⟨path, m, hm, hframe⟩
  obtain ⟨m', hm', hframe'⟩ := hgrows.modules path m hm
  exact ⟨path, m', hm', hframe'.trans hframe⟩

theorem Session.Owns.isGlobal {s : Session} (h : s.Owns units unit top) : s.IsGlobal top := by
  obtain ⟨-, rfl⟩ | ⟨path, m, _, _, _, hm, rfl, -⟩ := h
  · exact .inl rfl
  · exact .inr ⟨path, m, hm, rfl⟩

-- ---------------------------------------------------------------------------
-- Where code runs
-- ---------------------------------------------------------------------------

/-- Code runs with the globals of a unit, which are also where its top level stands, and the tags of
functions are such globals. -/
def homing : Regime where
  session s := s.IsGlobal s.context.globals ∧
    (s.frames.opener? s.context.frame = none → s.context.frame = s.context.globals)
  function s c := s.IsGlobal (c.home.getD rootFrame)
  object s _ c := c.All fun method => s.IsGlobal (method.home.getD rootFrame)
  call s c := s.IsGlobal (c.home.getD rootFrame)

theorem homing_lawful (avoid : Task → Session → Prop) : homing.Lawful avoid where
  function_mono hgrows h := h.mono hgrows.toGrows
  object_mono hgrows h := h.mono fun _ hm => hm.mono hgrows.toGrows
  call_mono hgrows h := h.mono hgrows.toGrows
  called h := h
  returned h _ := h
  closed hs _ := by
    show Session.IsGlobal _ ((homeOf _).getD rootFrame)
    rw [homeOf_getD]
    exact hs.session.1
  classed {s _ _ _} hs _ := by
    refine Class.all_made fun r initializer => ?_
    show Session.IsGlobal _ ((homeOf _).getD rootFrame)
    rw [homeOf_getD]
    exact hs.session.1
  constructed h := h
  bound h hm _ := by
    have hglobal := Class.All.of_has h hm
    exact hglobal
  adopted _ hm _ := .inr ⟨_, _, hm, rfl⟩
  aside hlater hframes _ hs := by
    refine ⟨?_, ?_⟩
    · rw [hlater.context]
      exact hs.1.mono hlater.grows
    · rw [hlater.context, hframes]
      exact hs.2
  scope hs hlt := by
    refine ⟨hs.1, fun hnone => hs.2 ?_⟩
    rwa [Frames.addScope, Frames.opener?_add_of_lt hlt] at hnone
  inner hs _ _ := ⟨hs.1, fun hnone => hs.2 (by rwa [Frames.opener?_define] at hnone)⟩
  declared hs _ := ⟨hs.1, fun hnone => hs.2 (by rwa [Frames.opener?_define] at hnone)⟩
  assigned _ _ hs _ := ⟨hs.1, fun hnone => hs.2 (by rwa [Frames.opener?_define] at hnone)⟩
  exported _ _ hs _ _ _ hm := ⟨hs.1.mono (Change.exported _ _ hm).later.grows, hs.2⟩
  entered hs hopener _ hglobals := by
    refine ⟨?_, fun hnone => by rw [hopener] at hnone; cases hnone⟩
    obtain rfl | ⟨c, hc, rfl⟩ := hglobals
    · exact hs.1
    · exact hc
  loaded _ _ _ _ _ :=
    ⟨.inr ⟨_, _, (Table.get?_insert ..).trans (if_pos rfl), rfl⟩, fun _ => rfl⟩
  back hs hlt hgrows _ :=
    ⟨hs.1.mono hgrows.within, fun hnone => hs.2 (by rwa [hgrows.frames.opener _ hlt] at hnone)⟩

theorem homing_start (sources : String → Option String) (refusal : Option String) (clock : Clock) :
    homing.session (.start sources refusal clock) :=
  ⟨.inl rfl, fun _ => rfl⟩

-- ---------------------------------------------------------------------------
-- Global frames
-- ---------------------------------------------------------------------------

/-- Global frames are children of the root and differ from one another. -/
structure Session.Planted (s : Session) : Prop extends s.Grounded where
  top : s.frames.parent? rootFrame = none
  child : ∀ frame outer, s.frames.opener? frame = none → s.frames.parent? frame = some outer →
    outer = rootFrame
  apart : ∀ path path' m m', s.modules.get? path = some m → s.modules.get? path' = some m' →
    m.frame = m'.frame → path = path'

/-- Recording an export leaves the frames of modules as they are. -/
theorem module_of_exported {modules : Table Module} (hm : modules.get? path = some m)
    (hn : (modules.insert path { m with exports := exports }).get? other = some n) :
    ∃ n₀, modules.get? other = some n₀ ∧ n₀.frame = n.frame := by
  rw [Table.get?_insert] at hn
  split at hn
  · next heq =>
    cases hn
    exact ⟨m, heq ▸ hm, rfl⟩
  · exact ⟨n, hn, rfl⟩

namespace Session.Planted

variable {s s' : Session}

theorem child_add {fs : Frames} {outer : Nat}
    (h : ∀ frame outer, fs.opener? frame = none → fs.parent? frame = some outer → outer = rootFrame)
    (hnew : opener = none → outer = rootFrame) :
    ∀ frame outer', (fs.add (some outer) opener).opener? frame = none →
      (fs.add (some outer) opener).parent? frame = some outer' → outer' = rootFrame := by
  intro frame outer' hopener hparent
  have hlt := Frames.lt_of_parent? hparent
  rw [Frames.size_add] at hlt
  rcases Nat.lt_succ_iff_lt_or_eq.1 hlt with hlt | rfl
  · rw [Frames.opener?_add_of_lt hlt] at hopener
    rw [Frames.parent?_add_of_lt hlt] at hparent
    exact h frame outer' hopener hparent
  · have hopener' : opener = none := (Frames.opener?_add_next fs).symm.trans hopener
    have hparent' : (some outer).filter (· < fs.store.size) = some outer' := by
      simpa [Frames.parent?, Frames.add, Frames.size] using hparent
    obtain rfl := Option.some.inj (Option.filter_eq_some_iff.1 hparent').1
    exact hnew hopener'

theorem change (h : Change s s') (hs : s.Planted) : s'.Planted := by
  have hgrounded := hs.toGrounded.change h
  cases h with
  | frame parent opener =>
    refine ⟨hgrounded, ?_, child_add hs.child nofun, hs.apart⟩
    exact (Frames.parent?_add_of_lt hs.toGrounded.root.1).trans hs.top
  | bind frame name value =>
    refine ⟨hgrounded, ?_, fun other outer hopener hparent => ?_, hs.apart⟩
    · rw [Frames.parent?_define]
      exact hs.top
    · rw [Frames.opener?_define] at hopener
      rw [Frames.parent?_define] at hparent
      exact hs.child other outer hopener hparent
  | exported name value hm =>
    refine ⟨hgrounded, hs.top, hs.child, fun p p' m₁ m₂ h₁ h₂ hframe => ?_⟩
    obtain ⟨n₁, hn₁, hframe₁⟩ := module_of_exported hm h₁
    obtain ⟨n₂, hn₂, hframe₂⟩ := module_of_exported hm h₂
    exact hs.apart p p' n₁ n₂ hn₁ hn₂ (by rw [hframe₁, hframe₂, hframe])
  | _ => exact ⟨hgrounded, hs.top, hs.child, hs.apart⟩

theorem load (hs : s.Planted) (path : String) (p : Prepared (List Stmt)) :
    (s.load path p).Planted := by
  refine ⟨hs.toGrounded.load path p, ?_, child_add hs.child fun _ => rfl, ?_⟩
  · exact (Frames.parent?_add_of_lt hs.toGrounded.root.1).trans hs.top
  · intro q q' m m' hm hm' hframe
    have old {q : String} {n : Module} (hn : (s.load path p).modules.get? q = some n) :
        (q = path ∧ n.frame = s.frames.size) ∨
          (s.modules.get? q = some n ∧ n.frame < s.frames.size) := by
      simp only [Session.load, Table.get?_insert] at hn
      split at hn
      · next heq =>
        cases hn
        exact .inl ⟨heq, rfl⟩
      · exact .inr ⟨hn, (hs.modules q n hn).2.1⟩
    obtain ⟨rfl, hq⟩ | ⟨hq, hlt⟩ := old hm <;> obtain ⟨rfl, hq'⟩ | ⟨hq', hlt'⟩ := old hm'
    · rfl
    · exact absurd hlt' (by rw [← hframe, hq]; exact Nat.lt_irrefl _)
    · exact absurd hlt (by rw [hframe, hq']; exact Nat.lt_irrefl _)
    · exact hs.apart q q' m m' hq hq' hframe

theorem opener (hs : s.Planted) (h : s.IsGlobal frame) :
    frame < s.frames.size ∧ s.frames.opener? frame = none := by
  obtain rfl | ⟨path, m, hm, rfl⟩ := h
  · exact hs.toGrounded.root
  · exact (hs.modules path m hm).2

end Session.Planted

theorem kept_planted : KeptBetween Session.Planted where
  change h hs := hs.change h
  enter hs := ⟨kept_grounded.enter hs.toGrounded, hs.top, hs.child, hs.apart⟩
  load hs _ _ _ := hs.load _ _
  back hs hgrows hs' := ⟨kept_grounded.back hs.toGrounded hgrows hs'.toGrounded, hs'.top, hs'.child,
    hs'.apart⟩
  start sources refusal clock := by
    refine ⟨kept_grounded.start sources refusal clock, rfl, fun frame outer _ hparent => ?_,
      fun _ _ _ _ h => (nomatch h)⟩
    have hlt : frame < Frames.initial.size := Frames.lt_of_parent? hparent
    obtain rfl : frame = rootFrame := Nat.lt_one_iff.1 hlt
    cases hparent
  commit hp hs := ⟨kept_grounded.commit hp hs.toGrounded, hs.top, hs.child, hs.apart⟩
  told output clock hs :=
    ⟨kept_grounded.told output clock hs.toGrounded, hs.top, hs.child, hs.apart⟩

namespace Frames

variable {fs : Frames}

/-- A search ends where it begins if the name is bound there. -/
theorem holder?_self (h : (fs.getLocal? frame name).isSome) :
    fs.holder? frame name = some frame := by
  rw [holder?, holderWithin, contains_bindings, if_pos h]

end Frames

/-- A search from the globals ends in them or, if they do not bind the name, at the root; also when
the frames have grown. -/
theorem Session.Planted.holder {s : Session} (hs : s.Planted) (h : s.IsGlobal globals)
    (hgrows : s.frames.Grows fs) (hfound : fs.holder? globals name = some found) :
    found = globals ∨ found = rootFrame ∧ fs.getLocal? globals name = none := by
  rw [Frames.holder?, Frames.holderWithin, Frames.contains_bindings] at hfound
  split at hfound
  · exact .inl (Option.some.inj hfound).symm
  · next hunbound =>
    split at hfound
    · next outer hparent =>
      rw [hgrows.parent _ (hs.opener h).1] at hparent
      obtain rfl := hs.child _ _ (hs.opener h).2 hparent
      cases globals with
      | zero => cases hfound
      | succ reach =>
        rw [Frames.holderWithin] at hfound
        split at hfound
        · exact .inr ⟨(Option.some.inj hfound).symm, Option.not_isSome_iff_eq_none.1 hunbound⟩
        · rw [hgrows.parent _ hs.toGrounded.root.1, hs.top] at hfound
          cases hfound
    · cases hfound

-- ---------------------------------------------------------------------------
-- Moments of entries
-- ---------------------------------------------------------------------------

/-- What can be said of where code stands, at every moment of every entry. -/
structure Located (t : Task) (s : Session) : Prop where
  planted : s.Planted
  globals : s.IsGlobal s.context.globals
  here : s.context.frame < s.frames.size
  top : s.frames.opener? s.context.frame = none → s.context.frame = s.context.globals
  ready : ∃ A : Account, A.Ready t s

theorem Reachable.located (hs : Reachable units s₀) (hp : Entry.prepared entry s₀.nextId = .ok p)
    (hm : ComesTo nowhere fuel p.tree.task (s₀.commit p) t s) : Located t s := by
  obtain ⟨haccepts, hmain⟩ := hs.accepted
  have hready := Account.comesTo (fun (h : False) _ _ _ => h.elim)
    (haccepts.entered hmain (entry.checked hp)) hm
  have hhoming := (homing_lawful nowhere).moment homing_start hs hp hm
  exact ⟨(kept_planted.comesTo hs hp hm).1, hhoming.1.session.1, hhoming.1.here,
    hhoming.1.session.2, _, hready.2⟩

namespace Located

variable {s s' : Session}

/-- A task within the one at hand leaves the global frames as they were. -/
theorem after (h : Located t s) (hrun : (worker fuel t').on s = (result, s')) :
    s.Later s' ∧ s'.Planted := by
  have hlater := worker_later fuel t' s
  have hplanted := (kept_planted.toKept.after fuel t' h.planted).1
  rw [hrun] at hlater hplanted
  exact ⟨hlater, hplanted⟩

/-- The frame that code stands in is no global frame but the one in force. -/
theorem frame_ne (h : Located t s) (hlater : s.Later s') (hplanted : s'.Planted)
    (hG : s'.IsGlobal G) (hother : s'.context.globals ≠ G) : G ≠ s'.context.frame := by
  rintro rfl
  have hopener := (hplanted.opener hG).2
  rw [hlater.context] at hopener hother
  rw [hlater.grows.frames.opener _ h.here] at hopener
  exact hother (h.top hopener).symm

end Located

/-- The sessions between entries none of which comes to a moment to be avoided. -/
inductive Avoiding (avoid : Task → Session → Prop) : List Line → Session → Prop
  | start : Avoiding avoid [] (.start sources refusal clock)
  | run (entry : Entry) (fuel : Nat) : Avoiding avoid units s →
    (∀ p, entry.prepared s.nextId = .ok p → ∀ t' s',
      ComesTo avoid fuel p.tree.task (s.commit p) t' s' → ¬ avoid t' s') →
    Avoiding avoid (entry.units s ++ units) ((entry.run fuel).on s).2
  | told : Avoiding avoid units s → Avoiding avoid units { s with output := output, clock := clock }

namespace Avoiding

variable {avoid : Task → Session → Prop}

theorem reachable (h : Avoiding avoid units s) : Reachable units s := by
  induction h with
  | start => exact .start
  | run entry fuel _ _ ih => exact ih.run entry fuel
  | told _ ih => exact ih.told

/-- A regime that is kept away from the moments to be avoided, wherever code stands as it can stand,
holds between such entries. -/
theorem accepts {R : Regime} (hR : R.Lawful fun t s => avoid t s ∨ ¬ Located t s)
    (hstart : ∀ sources refusal clock, R.session (.start sources refusal clock))
    (h : Avoiding avoid units s) : R.Accepts s := by
  induction h with
  | start => exact Regime.accepts_start (hstart _ _ _)
  | told _ ih => exact hR.accepts_told ih _ _
  | run entry fuel h hclear ih =>
    refine hR.accepts_run ih entry fuel fun p hp t' s' hm => ?_
    rintro (havoid | hlost)
    · exact hclear p hp t' s' (hm.mono fun _ _ => .inl) havoid
    · exact hlost (h.reachable.located hp (hm.mono fun _ _ h => h.elim))

end Avoiding

namespace Run

/-- Only the innermost frame gets what a module binds. -/
theorem splice_elsewhere (path : String) (hs : s.Grounded) (hlt : s.context.frame < s.frames.size)
    (hframe : frame ≠ s.context.frame) (name : String) :
    ((splice path).on s).2.frames.getLocal? frame name = s.frames.getLocal? frame name := by
  simp only [splice, on_bind, on_get]
  cases hm : s.modules.get? path with
  | none => rfl
  | some m =>
    obtain ⟨s', hrun, -, -, hkept⟩ :=
      adoptAll_on m.frame (s.frames.bindings m.frame).entries s hlt (hs.distinct m.frame)
    simp only [hrun]
    exact hkept frame name (.inl hframe)

/-- The innermost frame gets each value that the module's frame binds a name to, as it is passed
on. -/
theorem splice_here (hs : s.Grounded) (hlt : s.context.frame < s.frames.size)
    (hm : s.modules.get? path = some m) :
    ∃ s', (splice path).on s = (.ok (), s') ∧ s'.context = s.context ∧
      ∀ name v, s.frames.getLocal? m.frame name = some v →
        ∃ v', s'.frames.getLocal? s.context.frame name = some v' ∧ Adopted m.frame v v' := by
  obtain ⟨s', hrun, hcontext, hbound⟩ := splice_on hs hlt hm
  refine ⟨s', hrun, hcontext, fun name v hv => hbound name v ?_⟩
  obtain ⟨before, behind, hsplit, -⟩ := List.lookup_eq_some_iff.1 hv
  rw [hsplit]
  simp

end Run

/-- What a node is noted for is the distance of its name in the stack that it stands in. -/
theorem Account.Stands.noted_iff {A : Account} {node : NodeId} (h : A.Stands s σ (.expression e))
    (hr : e.refers? = some (node, name)) :
    s.distances[node]? = some d ↔ Scope.distance? σ.names name.lexeme = some d := by
  obtain ⟨unit, top, hknows, hinside, -, -⟩ := h
  obtain ⟨notes, hunit, hnoted⟩ := hknows.noted
  have hown : node ∈ e.ids := by
    refine (Piece.ids_perm σ (.expression e)).mem_iff.2 (List.mem_append_right _ ?_)
    simp [Piece.ownIds, hr]
  exact ((hnoted node (hinside.ids_subset hown)).2 d).trans ((hinside.analysed hunit).noted hr d)

theorem Account.Stands.noted_later {A : Account} {node : NodeId}
    (h : A.Stands s σ (.expression e)) (hr : e.refers? = some (node, name)) (hlater : s.Later s') :
    s'.distances[node]? = s.distances[node]? :=
  Option.ext fun _ => ((h.later hlater).noted_iff hr).trans (h.noted_iff hr).symm

/-- An assignment that ends in the global frame of a unit has no distance, and ends where a search
from the globals in force does. -/
theorem Account.Stands.assignee_global {A : Account} {node : NodeId}
    (h : A.Stands s σ (.expression (.assign node name e)))
    (hframe : (Run.assignee node name).on s = (.ok frame, s))
    (hopener : s.frames.opener? frame = none) :
    s.distances[node]? = none ∧ s.frames.holder? s.context.globals name.lexeme = some frame := by
  simp only [Run.assignee, Run.on_bind, Run.on_get] at hframe
  cases hd : s.distances[node]? with
  | some d =>
    obtain ⟨-, scope, found, -, hfound, hscope, -⟩ := h.found rfl hd
    simp only [hd, hfound, Run.on_pure, Prod.mk.injEq, Except.ok.injEq, and_true] at hframe
    rw [← hframe, hscope] at hopener
    cases hopener
  | none =>
    refine ⟨rfl, ?_⟩
    simp only [hd] at hframe
    cases hholder : s.frames.holder? s.context.globals name.lexeme with
    | some found =>
      simp only [hholder, Run.on_pure, Prod.mk.injEq, Except.ok.injEq, and_true] at hframe
      rw [hframe]
    | none =>
      simp only [hholder, Run.on_raise] at hframe
      cases hframe

-- ---------------------------------------------------------------------------
-- A main program that imports a module
-- ---------------------------------------------------------------------------

def importStatement : Stmt :=
  .importModule ⟨.kwImport, "import", 1⟩ ⟨.text "m", "\"m\"", 1⟩

def importer : Prepared Line :=
  ⟨.statements [importStatement], [], 0⟩

theorem importer_prepared : (Entry.unit "import\"m\";").prepared 0 = .ok importer := by
  decide +kernel

theorem importer_imports (s : Session) :
    ComesTo nowhere 3 importer.tree.task s (.importModule ⟨1, "import"⟩ "m") s := by
  refine .first (fun w halt h => Run.on_bind_error h) (fun h => h) ?_
  exact .first (fun w halt h => Run.on_bind_error h) (fun h => h) .beginning

theorem importer_units (h : s.nextId = 0) :
    (Entry.unit "import\"m\";").units s = [importer.tree] := by
  rw [Entry.units, h, importer_prepared]

/-- The top level of the module runs, and its names are passed on. -/
theorem importer_on {s : Session} {p : Prepared (List Stmt)} (hsource : sources "m" = some source)
    (hp : Prepared.program source 0 = .ok p)
    (hbody : (worker (fuel + 1) (.interpret p.tree)).on
      ((Session.start sources none (.still 0)).load "m" p) = (.ok (), s))
    (hsplice : (Run.splice "m").on { s with context := .main } = (.ok (), s')) :
    ((Entry.unit "import\"m\";").run (fuel + 4)).on (.start sources none (.still 0)) =
      (.ok none, s') := by
  let s₀ : Session := .start sources none (.still 0)
  have himport : (Run.importWith (worker (fuel + 1)) ⟨1, "import"⟩ "m").on s₀ = (.ok (), s') := by
    rw [Run.on_firstImport (s := s₀) rfl hsource hp hbody]
    exact hsplice
  have hunit : worker (fuel + 4) (.interpret [importStatement]) =
      ((Run.importWith (worker (fuel + 1)) ⟨1, "import"⟩ "m" >>= fun _ => pure Flow.normal) >>=
        fun _ => pure ()) := rfl
  have hrun : (worker (fuel + 4) (.interpret [importStatement])).on s₀ = (.ok (), s') := by
    rw [hunit, Run.on_bind, Run.on_bind, himport]
    rfl
  rw [Entry.on_run_ok _ _ importer_prepared]
  exact congrArg (fun r => (Except.map (fun _ => none) r.1, r.2)) hrun

end Treewalk
