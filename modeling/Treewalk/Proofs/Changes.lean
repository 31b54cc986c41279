import Treewalk.Proofs.Growth

/-!
# The changes that a run consists of

Carrying out a task changes the session one small step at a time: a frame is added, a name is
bound, an object is made. The steps are listed here; what each of them keeps is kept at every
moment of every run, however deep the tasks within tasks go and however they end.
-/

namespace Treewalk

/-- The single changes of a session that stay in its context. -/
inductive Change : Session → Session → Prop
  | frame (parent : FrameId) (opener : Opener) :
    Change s { s with frames := s.frames.addScope parent opener }
  | bind (frame : FrameId) (name : String) (value : Value) :
    Change s { s with frames := s.frames.define frame name value }
  | identity : Change s { s with nextIdentity := s.nextIdentity + 1 }
  | object : Change s { s with fields := s.fields.push .empty }
  | field (id : ObjectId) (name : String) (value : Value) :
    Change s { s with fields := s.fields.modify id (·.insert name value) }
  | printed (text : String) : Change s { s with output := s.output ++ text ++ "\n" }
  | array (elements : List Value) : Change s { s with arrays := s.arrays.add elements }
  | tick : Change s { s with clock := s.clock.tick }
  | exported (name : String) (value : Value) (h : s.modules.get? path = some m) :
    Change s { s with
      modules := s.modules.insert path { m with exports := m.exports.insert name value } }

/-- The session in which the top level of a module starts. -/
def Session.load (s : Session) (path : String) (p : Prepared (List Stmt)) : Session :=
  { s.commit p with
    frames := s.frames.addChild rootFrame
    modules := s.modules.insert path ⟨s.frames.next, .empty⟩
    started := path :: s.started
    context := ⟨s.frames.next, s.frames.next, path :: s.context.loading⟩ }

/-- What a task leaves of the session that it began in. -/
structure Session.Later (s s' : Session) : Prop where
  grows : s.Grows s'
  context : s'.context = s.context

theorem Session.Later.refl (s : Session) : s.Later s :=
  ⟨.refl s, rfl⟩

theorem Session.Later.trans {s s' s'' : Session} (h : s.Later s') (h' : s'.Later s'') :
    s.Later s'' :=
  ⟨h.grows.trans h'.grows, h'.context.trans h.context⟩

theorem Change.later (h : Change s s') : s.Later s' := by
  refine ⟨?_, by cases h <;> rfl⟩
  cases h with
  | frame parent opener => exact { Session.Grows.refl s with frames := .add .. }
  | bind frame name value => exact { Session.Grows.refl s with frames := .define .. }
  | array elements => exact { Session.Grows.refl s with arrays := .add .. }
  | exported name value hm =>
    refine { Session.Grows.refl s with modules := fun path m hget => ?_ }
    simp only [Table.get?_insert]
    split
    · next heq =>
      subst heq
      rw [hm] at hget
      cases hget
      exact ⟨_, rfl, rfl⟩
    · exact ⟨m, hget, rfl⟩
  | _ => exact { Session.Grows.refl s with }

theorem Session.Grows.load {s : Session} (hnot : s.modules.contains path = false)
    (h : Prepared.program source s.nextId = .ok p) : s.Grows (s.load path p) := by
  have hcommit : s.Grows (s.commit p) := Session.Grows.commit (program_checked h)
  refine { hcommit with frames := .add .., modules := fun other m hget => ?_, started := ?_ }
  · simp only [Session.load, Table.get?_insert]
    split
    · next heq =>
      subst heq
      simp [Table.contains, hget] at hnot
    · exact ⟨m, hget, rfl⟩
  · exact List.suffix_cons _ _

/-- How a run may stop: out of allowance, at a text without end, or with an error that is not about
its own source. An error in a module is the one with which the module's source is refused. -/
def Halt.Usual (sources : String → Option String) : Halt → Prop
  | .exhausted | .endless => True
  | .error (.runtime _ _) => True
  | .error (.output _) => True
  | .error (.inModule path e) =>
    ∃ source start, sources path = some source ∧ Prepared.program source start = .error e
  | .error _ => False

/-- The faults that say that a name was not resolved as it should be. -/
@[simp] def RuntimeFault.Internal : RuntimeFault → Prop
  | .unbound _ _ => True
  | .noReceiver => True
  | _ => False

/-- A failure of the running code that has nothing to do with how names were resolved. -/
def Error.Ordinary (e : Error) : Prop :=
  ∃ site fault, e = .runtime site fault ∧ ¬ fault.Internal

/-- What stops a computation of values: an ordinary failure, or an array that has no text. -/
def Halt.Ordinary (as : Arrays) : Halt → Prop
  | .error e => e.Ordinary
  | .endless => ∃ v, as.text? v = none
  | .exhausted => False

variable {as : Arrays}

theorem Halt.Ordinary.usual {h : Halt} (hh : h.Ordinary as) : h.Usual sources := by
  cases h with
  | error e =>
    obtain ⟨site, fault, rfl, -⟩ := hh
    trivial
  | exhausted => exact hh.elim
  | endless => trivial

/-- A property of sessions that every change keeps. -/
structure Lasting (I : Session → Prop) : Prop where
  change : Change s s' → I s → I s'

/-- A property of sessions that every change keeps, and that does not depend on which frames the
context names. -/
structure Kept (I : Session → Prop) : Prop extends Lasting I where
  enter : I s → I { s with context := { s.context with frame := frame, globals := globals } }
  load : I s → s.modules.contains path = false → s.sources path = some source →
    Prepared.program source s.nextId = .ok p → I (s.load path p)
  back : I s → s.Grows s' → I s' → I { s' with context := s.context }

/-- From a session with `I`, the computation leaves one with `I`, later than it. -/
def Steady (I : Session → Prop) (m : Run α) : Prop :=
  ∀ s, I s →
    Triple m s (fun _ s' => I s' ∧ s.Later s') (fun h s' => h.Usual s'.sources ∧ I s' ∧ s.Later s')

namespace Steady

variable {I : Session → Prop} {α β : Type}

theorem pure (a : α) : Steady I (Pure.pure a) :=
  fun s hs => Triple.pure ⟨hs, .refl s⟩

theorem fail (site : Site) (fault : RuntimeFault) : Steady I (Run.fail site fault : Run α) :=
  fun s hs => Triple.fail ⟨trivial, hs, .refl s⟩

/-- What a steady computation leaves is later than all that came before. -/
theorem after {m : Run α} {s : Session} (hm : Steady I m) (hlater : s.Later s') (hs : I s') :
    Triple m s' (fun _ s'' => I s'' ∧ s.Later s'')
      (fun h s'' => h.Usual s''.sources ∧ I s'' ∧ s.Later s'') := by
  refine (hm s' hs).mono ?_ ?_
  · rintro a s'' ⟨hs'', hlater'⟩
    exact ⟨hs'', hlater.trans hlater'⟩
  · rintro halt s'' ⟨husual, hs'', hlater'⟩
    exact ⟨husual, hs'', hlater.trans hlater'⟩

theorem bind {m : Run α} {f : α → Run β} (hm : Steady I m) (hf : ∀ a, Steady I (f a)) :
    Steady I (m >>= f) :=
  fun s hs => Triple.bind (hm s hs) fun a _ h => (hf a).after h.2 h.1

theorem get : Steady I (MonadState.get : Run Session) :=
  fun s hs => Triple.of_ok (Run.on_get s) ⟨hs, .refl s⟩

theorem change (hI : Lasting I) {m : Run α} (h : ∀ s, ∃ a s', m.on s = (.ok a, s') ∧ Change s s') :
    Steady I m := by
  intro s hs
  obtain ⟨a, s', hrun, hchange⟩ := h s
  exact Triple.of_ok hrun ⟨hI.change hchange hs, hchange.later⟩

theorem ofResult {r : Except Halt α} (h : ∀ halt, r = .error halt → halt.Ordinary as) :
    Steady I (Run.ofResult r) := by
  intro s hs
  cases r with
  | ok a => exact Triple.pure ⟨hs, .refl s⟩
  | error halt => exact Triple.of_error rfl ⟨(h halt rfl).usual, hs, .refl s⟩

theorem ofExcept {r : Except Error α} (h : ∀ e, r = .error e → e.Ordinary) :
    Steady I (Run.ofExcept r) := by
  intro s hs
  cases r with
  | ok a => exact Triple.pure ⟨hs, .refl s⟩
  | error e =>
    have he : (Halt.error e).Ordinary .empty := h e rfl
    exact Triple.of_error rfl ⟨he.usual, hs, .refl s⟩

theorem each {action : α → Run β} (h : ∀ a, Steady I (action a)) (items : List α) :
    Steady I (Run.each action items) := by
  induction items with
  | nil => exact pure []
  | cons item rest ih => exact (h item).bind fun _ => ih.bind fun _ => pure _

/-- Whatever a steady computation ends in, it has kept `I` and left a later session. -/
theorem leaves {m : Run α} (hm : Steady I m) (hs : I s) : I (m.on s).2 ∧ s.Later (m.on s).2 := by
  rcases hr : m.on s with ⟨_ | _, s'⟩
  · exact ((hm s hs).halt hr).2
  · exact (hm s hs).result hr

theorem inSequence {action : Stmt → Run Flow} (h : ∀ s, Steady I (action s)) (body : List Stmt) :
    Steady I (Run.inSequence action body) := by
  induction body with
  | nil => exact pure _
  | cons s rest ih =>
    refine (h s).bind fun flow => ?_
    cases flow with
    | normal => exact ih
    | breaking => exact pure _
    | returning value => exact pure _

theorem every {action : Stmt → Run Flow} (h : ∀ s, Steady I (action s)) (body : List Stmt) :
    Steady I (Run.every action body) := by
  induction body with
  | nil => exact pure _
  | cons s rest ih => exact (h s).bind fun _ => ih

end Steady

-- ---------------------------------------------------------------------------
-- Failures of operators
-- ---------------------------------------------------------------------------

theorem Operator.fail_ordinary (h : ¬ fault.Internal)
    (hfail : (Operator.fail t fault : Except Halt α) = .error halt) : halt.Ordinary as := by
  cases hfail
  exact ⟨_, fault, rfl, h⟩

theorem Arrays.text_error (h : as.text v = .error halt) : halt.Ordinary as := by
  unfold Arrays.text at h
  split at h
  · cases h
  · next hnone =>
    cases h
    exact ⟨v, hnone⟩

theorem Operator.unary_error (as : Arrays) (h : Operator.unary op right = .error halt) :
    halt.Ordinary as := by
  unfold Operator.unary at h
  split at h
  case h_1 | h_2 => cases h
  all_goals exact Operator.fail_ordinary (by simp) h

theorem Operator.onNumbers_error (h : Operator.onNumbers op left right f = .error halt) :
    halt.Ordinary as := by
  unfold Operator.onNumbers at h
  split at h
  · cases h
  · exact Operator.fail_ordinary (by simp) h

theorem Operator.plus_error (h : Operator.plus as left right = .error halt) : halt.Ordinary as := by
  unfold Operator.plus at h
  split at h
  · cases h
  · obtain h | ⟨_, -, h⟩ := bind_eq_error.1 h
    · exact Arrays.text_error h
    · obtain h | ⟨_, -, h⟩ := bind_eq_error.1 h
      · exact Arrays.text_error h
      · cases h

theorem Operator.divide_error (h : Operator.divide op left right = .error halt) :
    halt.Ordinary as := by
  unfold Operator.divide at h
  split at h
  · split at h
    · exact Operator.fail_ordinary (by simp) h
    · cases h
  · exact Operator.fail_ordinary (by simp) h

theorem Operator.binary_error (h : Operator.binary as op left right = .error halt) :
    halt.Ordinary as := by
  unfold Operator.binary at h
  split at h
  case h_4 => exact Operator.plus_error h
  case h_7 => exact Operator.divide_error h
  case h_15 => exact Operator.fail_ordinary (by simp) h
  case h_1 | h_2 | h_3 => cases h
  all_goals exact Operator.onNumbers_error h

theorem Operator.index_error (h : Operator.index as bracket target position = .error halt) :
    halt.Ordinary as := by
  unfold Operator.index at h
  split at h
  · split at h
    · split at h
      · cases h
      · exact Operator.fail_ordinary (by simp) h
    · split at h
      · cases h
      · exact Operator.fail_ordinary (by simp) h
    · exact Operator.fail_ordinary (by simp) h
  · exact Operator.fail_ordinary (by simp) h

theorem Native.fail_error (h : Native.fail site message = .error halt) : halt.Ordinary as := by
  cases h
  exact ⟨_, _, rfl, id⟩

theorem Native.call_error (h : Native.call as now site f arguments = .error halt) :
    halt.Ordinary as := by
  unfold Native.call at h
  split at h
  · cases h
  · obtain h | ⟨_, -, h⟩ := bind_eq_error.1 h
    · exact Arrays.text_error h
    · exact Native.fail_error h
  · exact Native.fail_error h
  · unfold Native.length at h
    split at h
    · exact Native.fail_error h
    · cases h
    · obtain h | ⟨_, -, h⟩ := bind_eq_error.1 h
      · exact Arrays.text_error h
      · cases h
  · exact Native.fail_error h

theorem Frames.undefined_ordinary (name : Token) : (Frames.undefined name).Ordinary :=
  ⟨_, _, rfl, by simp⟩

theorem Frames.read_error {fs : Frames} (h : fs.read frame name = .error e) : e.Ordinary := by
  unfold Frames.read at h
  split at h <;> cases h
  exact Frames.undefined_ordinary name

-- ---------------------------------------------------------------------------
-- Variables and members
-- ---------------------------------------------------------------------------

namespace Run

theorem on_printLine (text : String) (s : Session) :
    (∃ reason, (printLine text).on s = (.error (.error (.output reason)), s)) ∨
      (printLine text).on s = (.ok (), { s with output := s.output ++ text ++ "\n" }) := by
  simp only [printLine, on_bind, on_get]
  split
  · exact .inl ⟨_, rfl⟩
  · exact .inr rfl

theorem on_recordExport (name : String) (value : Value) (s : Session) :
    (recordExport name value).on s = (.ok (), s) ∨
      ∃ path m, s.context.loading.head? = some path ∧ s.modules.get? path = some m ∧
        (recordExport name value).on s = (.ok (), { s with
          modules :=
            s.modules.insert path { m with exports := m.exports.insert name value } }) := by
  simp only [recordExport, on_modify]
  cases hpath : s.context.loading.head? with
  | none => exact .inl rfl
  | some path =>
    cases hm : s.modules.get? path with
    | none => exact .inl (by simp [hm])
    | some m => exact .inr ⟨path, m, rfl, hm, by simp [hm]⟩

end Run

namespace Lasting

variable {I : Session → Prop} (hI : Lasting I)
include hI

theorem newFrame : Steady I (Run.newFrame parent opener) :=
  Steady.change hI fun _ => ⟨_, _, rfl, .frame parent opener⟩

theorem define : Steady I (Run.define frame name value) :=
  Steady.change hI fun _ => ⟨_, _, rfl, .bind frame name value⟩

theorem defineHere : Steady I (Run.defineHere name value) :=
  Steady.get.bind fun _ => hI.define

theorem newIdentity : Steady I Run.newIdentity :=
  Steady.change hI fun _ => ⟨_, _, rfl, .identity⟩

theorem newObject : Steady I Run.newObject :=
  Steady.change hI fun _ => ⟨_, _, rfl, .object⟩

theorem newArray : Steady I (Run.newArray elements) :=
  Steady.change hI fun _ => ⟨_, _, rfl, .array elements⟩

theorem time : Steady I Run.time :=
  Steady.change hI fun _ => ⟨_, _, rfl, .tick⟩

omit hI in
theorem textOf : Steady I (Run.textOf v) :=
  Steady.get.bind fun _ => .ofResult fun _ h => Arrays.text_error h

theorem setField : Steady I (Run.setField object name value) :=
  Steady.change hI fun _ => ⟨_, _, rfl, .field object name value⟩

theorem printLine : Steady I (Run.printLine text) := by
  intro s hs
  obtain ⟨reason, hrun⟩ | hrun := Run.on_printLine text s
  · exact Triple.of_error hrun ⟨trivial, hs, .refl s⟩
  · exact Triple.of_ok hrun ⟨hI.change (.printed text) hs, Change.later (.printed text)⟩

theorem recordExport : Steady I (Run.recordExport name value) := by
  intro s hs
  obtain hrun | ⟨path, m, -, hm, hrun⟩ := Run.on_recordExport name value s
  · exact Triple.of_ok hrun ⟨hs, .refl s⟩
  · have hchange := Change.exported name value hm
    exact Triple.of_ok hrun ⟨hI.change hchange hs, hchange.later⟩

omit hI in
theorem lookUp : Steady I (Run.lookUp node name) := by
  refine Steady.get.bind fun s => ?_
  split
  · split
    · exact .pure _
    · exact .fail _ _
  · exact .ofExcept fun e he => Frames.read_error he

theorem assign : Steady I (Run.assign node name value) := by
  refine Steady.bind (Steady.get.bind fun s => ?_) fun _ => hI.define
  split
  · split
    · exact .pure _
    · exact .fail _ _
  · split
    · exact .pure _
    · exact .fail _ _

omit hI in
theorem close : Steady I (Run.close routine initializer) :=
  Steady.get.bind fun _ => Steady.get.bind fun _ => .pure _

theorem functionValue {closure : Closure} : Steady I (Run.functionValue closure) :=
  hI.newIdentity.bind fun _ => .pure _

theorem bindReceiver {closure : Closure} : Steady I (Run.bindReceiver closure receiver) :=
  hI.newFrame.bind fun _ => hI.define.bind fun _ => .pure _

theorem memberOf : Steady I (Run.memberOf object methods receiver name) := by
  refine Steady.bind (Steady.get.bind fun _ => .pure _) fun found => ?_
  cases found with
  | some value => exact .pure _
  | none =>
    dsimp only
    split
    · exact hI.bindReceiver.bind fun _ => hI.functionValue
    · exact .fail _ _

theorem member : Steady I (Run.member object name) := by
  unfold Run.member
  split
  · exact hI.memberOf
  · exact hI.memberOf
  · exact .fail _ _

omit hI in
theorem closeAll (routines : List Routine) : Steady I (Run.closeAll isInitializer routines) := by
  induction routines with
  | nil => exact .pure _
  | cons r rest ih => exact close.bind fun _ => ih.bind fun _ => .pure _

theorem declareClass : Steady I (Run.declareClass name methods classMethods) :=
  hI.defineHere.bind fun _ => (closeAll _).bind fun _ => (closeAll _).bind fun _ =>
    hI.newObject.bind fun _ => hI.defineHere

theorem adopt : Steady I (Run.adopt frame value) := by
  unfold Run.adopt
  split
  · split
    · exact .pure _
    · exact hI.functionValue
  · exact .pure _

theorem adoptAll (entries : List (String × Value)) : Steady I (Run.adoptAll frame entries) := by
  induction entries with
  | nil => exact .pure _
  | cons entry rest ih => exact hI.adopt.bind fun _ => hI.defineHere.bind fun _ => ih

theorem splice : Steady I (Run.splice path) := by
  refine Steady.get.bind fun s => ?_
  split
  · exact hI.adoptAll _
  · exact .pure _

theorem bindParameters (params : List Token) (values : List Value) :
    Steady I (Run.bindParameters frame params values) := by
  induction params generalizing values with
  | nil => exact .pure _
  | cons p params ih =>
    cases values with
    | nil => exact .pure _
    | cons v values => exact hI.define.bind fun _ => ih values

omit hI in
theorem receiver {closure : Closure} : Steady I (Run.receiver closure site) := by
  refine Steady.get.bind fun s => ?_
  split
  · exact .pure _
  · exact .fail _ _

end Lasting

/-- The code of another scope of the same modules. -/
theorem Kept.within (hI : Kept I) {m : Run α} (hm : Steady I m) (hs : I s)
    (henter : I { s with context := r.enter s.context }) :
    Triple (Run.within r m) s
      (fun _ s' => I s' ∧ s.Later s') (fun h s' => h.Usual s'.sources ∧ I s' ∧ s.Later s') := by
  -- What is not put back is as it was, because the code inside is steady.
  refine Triple.within_kept ((hm _ henter).mono ?_ ?_)
  · rintro a s' ⟨hs', hlater⟩
    have hgrows : s.Grows s' := hlater.grows.within
    exact ⟨hlater.context, hI.back hs hgrows hs', hgrows.within, rfl⟩
  · rintro halt s' ⟨husual, hs', hlater⟩
    have hgrows : s.Grows s' := hlater.grows.within
    exact ⟨hlater.context, husual, hI.back hs hgrows hs', hgrows.within, rfl⟩

-- ---------------------------------------------------------------------------
-- Tasks
-- ---------------------------------------------------------------------------

theorem Triple.firstImport {w : Worker} (hnot : s.modules.contains path = false)
    (hsource : s.sources path = some source) (hp : Prepared.program source s.nextId = .ok p)
    (h : Triple (w.interpret p.tree) (s.load path p)
      (fun _ s' => Triple (w.splice path) { s' with context := s.context } Q E)
      (fun h s' => E h { s' with context := s.context })) :
    Triple (Run.importWith w site path) s Q E := by
  refine Triple.step (Run.on_get s) ?_
  simp only [hnot, hsource, hp, Bool.false_eq_true, if_false]
  have hframe : Run.newModuleFrame.on (s.commit p) = (.ok s.frames.next,
      { s.commit p with frames := s.frames.addChild rootFrame }) := rfl
  refine Triple.step (Run.on_commit p s) (Triple.step hframe (Triple.step (Run.on_modify _ _) ?_))
  refine Triple.bind (R := fun _ s' => Triple (w.splice path) s' Q E) ?_ fun _ _ h => h
  exact Triple.within h

theorem Run.on_firstImport {w : Worker} (hnot : s.modules.contains path = false)
    (hsource : s.sources path = some source) (hp : Prepared.program source s.nextId = .ok p)
    (hbody : (w.interpret p.tree).on (s.load path p) = (.ok (), s')) :
    (Run.importWith w site path).on s = (w.splice path).on { s' with context := s.context } := by
  rw [Triple.on_eq_iff]
  exact Triple.firstImport hnot hsource hp (Triple.of_ok hbody (Triple.on_eq_iff.1 rfl))

theorem Triple.importWith {w : Worker} (loaded : s.modules.contains path = true →
      Triple (w.splice path) s Q E)
    (missing : E (.error (.runtime site (.moduleMissing path))) s)
    (refused : ∀ source e, s.sources path = some source →
      Prepared.program source s.nextId = .error e → E (.error (.inModule path e)) s)
    (run : ∀ source p, s.modules.contains path = false → s.sources path = some source →
      Prepared.program source s.nextId = .ok p →
      Triple (w.interpret p.tree) (s.load path p)
        (fun _ s' => Triple (w.splice path) { s' with context := s.context } Q E)
        (fun h s' => E h { s' with context := s.context })) :
    Triple (Run.importWith w site path) s Q E := by
  cases hmodule : s.modules.contains path with
  | true =>
    refine Triple.step (Run.on_get s) ?_
    simpa only [hmodule, if_true] using loaded hmodule
  | false =>
    cases hsource : s.sources path with
    | none =>
      refine Triple.step (Run.on_get s) ?_
      simpa only [hmodule, hsource, Bool.false_eq_true, if_false] using Triple.fail missing
    | some source =>
      cases hp : Prepared.program source s.nextId with
      | error e =>
        refine Triple.step (Run.on_get s) ?_
        simp only [hmodule, hsource, hp, Bool.false_eq_true, if_false]
        exact Triple.of_error rfl (refused source e hsource hp)
      | ok p => exact Triple.firstImport hmodule hsource hp (run source p hmodule hsource hp)

theorem beginsWith_load (hnot : s.modules.contains path = false)
    (hsource : s.sources path = some source) (hp : Prepared.program source s.nextId = .ok p) :
    BeginsWith (.importModule site path) s (.interpret p.tree) (s.load path p) := by
  intro w halt h
  rw [Triple.halts_iff] at h ⊢
  exact Triple.firstImport hnot hsource hp (h.mono (fun _ _ h => h.elim) fun _ _ h => h)

namespace Kept

variable {I : Session → Prop}

/-- The top level of a module starts only when the module has just been entered, from a session
that did not have it; the top level of a main unit starts outside all modules. -/
def Starts (I : Session → Prop) : Task → Session → Prop
  | .interpret body, s => s.context.loading = [] ∨
    ∃ s₁ path source p, I s₁ ∧ s₁.modules.contains path = false ∧ s₁.sources path = some source ∧
      Prepared.program source s₁.nextId = .ok p ∧ s = s₁.load path p ∧ body = p.tree
  | _, _ => True

/-- What every task keeps, with the tasks within it left to a worker that does the same. -/
def contract (I : Session → Prop) : Contract where
  pre t s := I s ∧ Starts I t s
  post _ s _ s' := I s' ∧ s.Later s'
  fault _ s h s' := h.Usual s'.sources ∧ I s' ∧ s.Later s'

theorem steady {w : Worker} (hw : w.Honours (contract I)) (t : Task) (ht : ∀ s, Starts I t s) :
    Steady I (w t) :=
  fun s hs => hw t s ⟨hs, ht s⟩

theorem evaluates {w : Worker} (hw : w.Honours (contract I)) (e : Expr) :
    Steady I (w.evaluate e) :=
  steady hw (.evaluate e) fun _ => trivial

theorem executes {w : Worker} (hw : w.Honours (contract I)) (st : Stmt) :
    Steady I (w.execute st) :=
  steady hw (.execute st) fun _ => trivial

theorem evaluateWith (hI : Kept I) {w : Worker} (hw : w.Honours (contract I)) (e : Expr) :
    Steady I (Run.evaluateWith w e) := by
  cases e with
  | literal value => exact .pure _
  | group inner => exact evaluates hw inner
  | unary op right =>
    exact (evaluates hw _).bind fun _ => .ofResult fun _ he => Operator.unary_error .empty he
  | binary op left right =>
    exact (evaluates hw _).bind fun _ => (evaluates hw _).bind fun _ => Steady.get.bind fun _ =>
      .ofResult fun _ he => Operator.binary_error he
  | logical op left right =>
    refine (evaluates hw _).bind fun left => ?_
    split
    · exact .pure _
    · exact evaluates hw right
  | conditional condition yes no =>
    refine (evaluates hw _).bind fun condition => ?_
    split
    · exact evaluates hw yes
    · exact evaluates hw no
  | var id name => exact Lasting.lookUp
  | this id keyword => exact Lasting.lookUp
  | assign id name value => exact (evaluates hw _).bind fun _ => hI.assign.bind fun _ => .pure _
  | call callee paren arguments =>
    exact (evaluates hw _).bind fun _ => (Steady.each (evaluates hw) _).bind fun _ =>
      steady hw _ fun _ => trivial
  | get object name =>
    refine (evaluates hw _).bind fun object => hI.member.bind fun value => ?_
    split
    · split
      · exact steady hw _ fun _ => trivial
      · exact .pure _
    · exact .pure _
  | set object name value =>
    refine (evaluates hw _).bind fun object => ?_
    split
    · exact (evaluates hw _).bind fun _ => hI.setField.bind fun _ => .pure _
    · exact .fail _ _
  | array elements =>
    exact (Steady.each (evaluates hw) _).bind fun _ => hI.newArray.bind fun _ => .pure _
  | index target bracket position =>
    exact (evaluates hw _).bind fun _ => (evaluates hw _).bind fun _ => Steady.get.bind fun _ =>
      .ofResult fun _ he => Operator.index_error he

theorem callValueWith (hI : Kept I) {w : Worker} (hw : w.Honours (contract I)) (callee : Value)
    (site : Site) (arguments : List Value) :
    Steady I (Run.callValueWith w callee site arguments) := by
  unfold Run.callValueWith
  split
  · exact .fail _ _
  · split
    · exact .fail _ _
    · split
      · exact steady hw _ fun _ => trivial
      · exact hI.time.bind fun _ => Steady.get.bind fun _ =>
          .ofResult fun _ he => Native.call_error he
      · exact steady hw _ fun _ => trivial
      · exact .fail _ _

theorem constructWith (hI : Kept I) {w : Worker} (hw : w.Honours (contract I)) (c : Class)
    (site : Site) (arguments : List Value) : Steady I (Run.constructWith w c site arguments) := by
  refine hI.newObject.bind fun made => ?_
  split
  · refine hI.bindReceiver.bind fun bound => ?_
    exact (steady hw (.invoke bound site arguments) fun _ => trivial).bind fun _ => .pure _
  · exact .pure _

theorem invokeWith (hI : Kept I) {w : Worker} (hw : w.Honours (contract I)) (closure : Closure)
    (site : Site) (arguments : List Value) :
    Steady I (Run.invokeWith w closure site arguments) := by
  refine hI.newFrame.bind fun frame => (hI.bindParameters _ _).bind fun _ => ?_
  intro s hs
  have body : Steady I (Run.inSequence w.execute closure.routine.body) :=
    .inSequence (executes hw) _
  refine Triple.bind (hI.within body hs (hI.enter hs)) fun flow s' h => ?_
  refine Steady.after ?_ h.2 h.1
  split
  · exact Lasting.receiver
  · split
    · exact .pure _
    · exact .pure _

theorem executeWith (hI : Kept I) {w : Worker} (hw : w.Honours (contract I)) (s : Stmt) :
    Steady I (Run.executeWith w s) := by
  cases s with
  | expression e => exact (evaluates hw _).bind fun _ => .pure _
  | print e =>
    exact (evaluates hw _).bind fun _ => Lasting.textOf.bind fun _ => hI.printLine.bind fun _ =>
      .pure _
  | var name initial =>
    cases initial with
    | none => exact (Steady.pure _).bind fun _ => hI.defineHere.bind fun _ => .pure _
    | some e => exact (evaluates hw _).bind fun _ => hI.defineHere.bind fun _ => .pure _
  | block body =>
    intro s hs
    have hchange : Change s _ := .frame s.context.frame (.block body)
    have hframe : (Run.newFrame s.context.frame (.block body)).on s = (.ok s.frames.next, _) := rfl
    refine Triple.step (Run.on_get s) (Triple.step hframe ?_)
    have inner : Steady I (Run.inSequence w.execute body) :=
      .inSequence (executes hw) _
    have hs₁ := hI.change hchange hs
    refine (hI.within inner hs₁ (hI.enter hs₁)).mono ?_ ?_
    · exact fun _ _ h => ⟨h.1, hchange.later.trans h.2⟩
    · exact fun _ _ h => ⟨h.1, h.2.1, hchange.later.trans h.2.2⟩
  | ifElse condition yes no =>
    refine (evaluates hw _).bind fun condition => ?_
    split
    · exact executes hw yes
    · split
      · exact executes hw _
      · exact .pure _
  | whileLoop condition body => exact steady hw _ fun _ => trivial
  | breakLoop keyword => exact .pure _
  | function routine =>
    exact Lasting.close.bind fun _ => hI.functionValue.bind fun _ =>
      hI.defineHere.bind fun _ => .pure _
  | classDecl name methods classMethods => exact hI.declareClass.bind fun _ => .pure _
  | returnValue keyword value =>
    cases value with
    | none => exact .pure _
    | some e => exact (evaluates hw _).bind fun _ => .pure _
  | importModule keyword path =>
    simp only [Run.executeWith]
    split
    · next path _ =>
      have himport := steady hw (.importModule keyword.site path) fun _ => trivial
      exact himport.bind fun _ => .pure _
    · exact (Steady.fail _ _).bind fun _ => .pure _
  | exportDecl keyword declaration =>
    refine (executes hw _).bind fun _ => ?_
    split
    · exact Steady.get.bind fun _ => hI.recordExport.bind fun _ => .pure _
    · exact .fail _ _

theorem loopWith {w : Worker} (hw : w.Honours (contract I)) (condition : Expr) (body : Stmt) :
    Steady I (Run.loopWith w condition body) := by
  refine (evaluates hw _).bind fun value => ?_
  split
  · refine (executes hw body).bind fun flow => ?_
    cases flow with
    | normal => exact steady hw _ fun _ => trivial
    | breaking => exact .pure _
    | returning value => exact .pure _
  · exact .pure _

theorem importWith (hI : Kept I) {w : Worker} (hw : w.Honours (contract I)) (site : Site)
    (path : String) : Steady I (Run.importWith w site path) := by
  intro s hs
  refine Triple.importWith ?_ ⟨trivial, hs, .refl s⟩ (fun source e hsource hp =>
    ⟨⟨source, s.nextId, hsource, hp⟩, hs, .refl s⟩) ?_
  · exact fun _ => hw (.splice path) s ⟨hs, trivial⟩
  · intro source p hnot hsource hp
    have hload := Session.Grows.load hnot hp
    have hstarts : Starts I (.interpret p.tree) (s.load path p) :=
      .inr ⟨s, path, source, p, hs, hnot, hsource, hp, rfl, rfl⟩
    refine (hw (.interpret p.tree) _ ⟨hI.load hs hnot hsource hp, hstarts⟩).mono ?_ ?_
    · rintro _ s' ⟨hs', hlater⟩
      have hgrows : s.Grows s' := hload.trans hlater.grows
      have hsplice := steady hw (.splice path) fun _ => trivial
      exact hsplice.after ⟨hgrows.within, rfl⟩ (hI.back hs hgrows hs')
    · rintro halt s' ⟨husual, hs', hlater⟩
      have hgrows : s.Grows s' := hload.trans hlater.grows
      exact ⟨husual, hI.back hs hgrows hs', hgrows.within, rfl⟩

/-- One task keeps what the tasks within it keep. -/
theorem step (hI : Kept I) {w : Worker} (hw : w.Honours (contract I)) (t : Task) :
    Steady I (w.step t) := by
  cases t with
  | evaluate e => exact hI.evaluateWith hw e
  | callValue callee site arguments => exact hI.callValueWith hw callee site arguments
  | construct c site arguments => exact hI.constructWith hw c site arguments
  | invoke closure site arguments => exact hI.invokeWith hw closure site arguments
  | execute s => exact hI.executeWith hw s
  | loop condition body => exact loopWith hw condition body
  | interpret body => exact .every (executes hw) body
  | importModule site path => exact hI.importWith hw site path
  | splice path => exact hI.splice

theorem inductive_contract (hI : Kept I) (avoid : Task → Session → Prop) :
    (contract I).Inductive avoid :=
  fun _ hw t s hpre _ => hI.step hw t s hpre.1

theorem run (hI : Kept I) (fuel : Nat) : (worker fuel).Honours (contract I) :=
  Contract.honoured (hI.inductive_contract nowhere)
    (fun _ s hpre => ⟨trivial, hpre.1, .refl s⟩) fuel

/-- Whatever a task ends in, it has kept `I` and left a later session. -/
theorem after (hI : Kept I) (fuel : Nat) (t : Task) (hs : I s) :
    I ((worker fuel t).on s).2 ∧ s.Later ((worker fuel t).on s).2 := by
  cases fuel with
  | zero => exact ⟨hs, .refl s⟩
  | succ fuel => exact (hI.step (hI.run fuel) t).leaves hs

/-- `I` holds at every moment of a run that begins with it. -/
theorem comesTo (hI : Kept I) (hpre : (contract I).pre t s) (h : ComesTo avoid fuel t s t' s') :
    (contract I).pre t' s' := by
  refine Contract.comesTo (hI.inductive_contract avoid)
    (fun _ s hpre => ⟨trivial, hpre.1, .refl s⟩) (.error (.lex 0 .unterminated)) ?_ hpre h
  rintro _ _ _ ⟨husual, -⟩
  exact husual

theorem starts_task (I : Session → Prop) (l : Line) (h : s.context = .main) :
    Starts I l.task s := by
  cases l with
  | statements body => exact .inl (by rw [h]; rfl)
  | expression e => trivial

end Kept

structure KeptBetween (I : Session → Prop) : Prop extends Kept I where
  start : ∀ sources refusal clock, I (.start sources refusal clock)
  commit : Checked s.nextId p → I s → I (s.commit p)
  told : ∀ output clock, I s → I { s with output := output, clock := clock }

/-- Between entries the context is that of the main program, whatever the entries ended in. -/
theorem KeptBetween.reachable (hI : KeptBetween I) (h : Reachable units s) :
    I s ∧ s.context = .main := by
  induction h with
  | start => exact ⟨hI.start _ _ _, rfl⟩
  | told _ ih => exact ⟨hI.told _ _ ih.1, ih.2⟩
  | @run units s entry fuel _ ih =>
    obtain ⟨hs, hmain⟩ := ih
    cases hp : entry.prepared s.nextId with
    | error e =>
      rw [entry.on_run_error fuel hp]
      exact ⟨hs, hmain⟩
    | ok p =>
      rw [entry.on_run_ok fuel hp]
      have hpre := hI.commit (entry.checked hp) hs
      have hrun := hI.toKept.run fuel p.tree.task _ ⟨hpre, Kept.starts_task I p.tree hmain⟩
      rcases hr : (worker fuel p.tree.task).on (s.commit p) with ⟨_ | _, s'⟩
      · obtain ⟨-, hs', hlater⟩ := hrun.halt hr
        exact ⟨hs', hlater.context.trans hmain⟩
      · obtain ⟨hs', hlater⟩ := hrun.result hr
        exact ⟨hs', hlater.context.trans hmain⟩

/-- What holds between entries and is kept holds at every moment of an entry. -/
theorem KeptBetween.comesTo (hI : KeptBetween I) (h : Reachable units s)
    (hp : Entry.prepared entry s.nextId = .ok p)
    (hm : ComesTo avoid fuel p.tree.task (s.commit p) t' s') : (Kept.contract I).pre t' s' := by
  obtain ⟨hs, hmain⟩ := hI.reachable h
  refine hI.toKept.comesTo ⟨hI.commit (entry.checked hp) hs, ?_⟩ hm
  exact Kept.starts_task I p.tree hmain

/-- A session only grows in the course of a run. -/
theorem kept_grows (s : Session) : Kept s.Grows where
  change h hs := hs.trans h.later.grows
  enter hs := hs.within
  load hs hnot _ hp := hs.trans (.load hnot hp)
  back _ _ hs' := hs'.within

end Treewalk
