import Treewalk.Proofs.Changes
import Treewalk.Proofs.Filling

/-!
# Runs in tandem

Sessions are alike when they have the same filled form and their modules are read as trees that
have; what they store of variables without initial value may differ. Two computations run in tandem
if, from sessions that are alike, they come to results with one filled form and to sessions that are
alike, or fail with the same error. The first may run out of its allowance before the second does;
then it has printed a first part of what the second prints.
-/

namespace Treewalk

-- ---------------------------------------------------------------------------
-- Sessions
-- ---------------------------------------------------------------------------

def Module.filled (m : Module) : Module :=
  { m with exports := m.exports.map Value.filled }

namespace Session

/-- What a session behaves as, its sources apart. -/
def filled (s : Session) : Session :=
  { s with
    frames := s.frames.filled
    fields := s.fields.map (Table.map Value.filled)
    arrays := s.arrays.filled
    modules := s.modules.map Module.filled
    sources := fun _ => none }

/-- What a module's source is before it runs. -/
def moduleAt (s : Session) (path : String) (start : NodeId) :
    Option (Except Error (Prepared (List Stmt))) :=
  (s.sources path).map (Prepared.program · start)

/-- Sessions that no run tells apart. -/
structure Alike (s s' : Session) : Prop where
  filled : s.filled = s'.filled
  sources : ∀ path start, Treewalk.Alike (Option.map (Except.map (Prepared.mapTree Stmt.filledAll)))
    (s.moduleAt path start) (s'.moduleAt path start)

/-- The second has printed what the first has, and maybe more. -/
def PrintsOn (s s' : Session) : Prop :=
  ∃ more, s'.output = s.output ++ more

theorem PrintsOn.refl (s : Session) : s.PrintsOn s :=
  ⟨"", by simp⟩

theorem PrintsOn.trans {s s' s'' : Session} (h : s.PrintsOn s') (h' : s'.PrintsOn s'') :
    s.PrintsOn s'' := by
  obtain ⟨more, hmore⟩ := h
  obtain ⟨rest, hrest⟩ := h'
  exact ⟨more ++ rest, by rw [hrest, hmore, String.append_assoc]⟩

namespace Alike

variable {s s' : Session}

theorem refl (s : Session) : s.Alike s :=
  ⟨rfl, fun _ _ => rfl⟩

theorem symm (h : s.Alike s') : s'.Alike s :=
  ⟨h.filled.symm, fun path start => (h.sources path start).symm⟩

theorem trans (h : s.Alike s') (h' : s'.Alike s'') : s.Alike s'' :=
  ⟨h.filled.trans h'.filled, fun path start => (h.sources path start).trans (h'.sources path start)⟩

theorem frames (h : s.Alike s') : s.frames.filled = s'.frames.filled :=
  (congrArg Session.frames h.filled :)

theorem context (h : s.Alike s') : s.context = s'.context :=
  (congrArg Session.context h.filled :)

theorem output (h : s.Alike s') : s.output = s'.output :=
  (congrArg Session.output h.filled :)

theorem nextId (h : s.Alike s') : s.nextId = s'.nextId :=
  (congrArg Session.nextId h.filled :)

theorem distances (h : s.Alike s') : s.distances = s'.distances :=
  (congrArg Session.distances h.filled :)

theorem next (h : s.Alike s') : s.frames.next = s'.frames.next := by
  rw [← Frames.next_filled, h.frames, Frames.next_filled]

theorem fields (h : s.Alike s') :
    s.fields.map (Table.map Value.filled) = s'.fields.map (Table.map Value.filled) :=
  (congrArg Session.fields h.filled :)

theorem arrays (h : s.Alike s') : s.arrays.filled = s'.arrays.filled :=
  (congrArg Session.arrays h.filled :)

theorem clock (h : s.Alike s') : s.clock = s'.clock :=
  (congrArg Session.clock h.filled :)

theorem modules (h : s.Alike s') : s.modules.map Module.filled = s'.modules.map Module.filled :=
  (congrArg Session.modules h.filled :)

theorem printsOn (h : s.Alike s') : s.PrintsOn s' :=
  ⟨"", by rw [h.output, String.append_empty]⟩

-- The changes of one field, which leave the others as they are.

theorem withFrames {fs fs' : Frames} (h : s.Alike s') (hfs : fs.filled = fs'.filled) :
    Alike { s with frames := fs } { s' with frames := fs' } where
  filled := by
    show { s.filled with frames := fs.filled } = { s'.filled with frames := fs'.filled }
    rw [h.filled, hfs]
  sources := h.sources

theorem withFields {store store' : Array (Table Value)} (h : s.Alike s')
    (hstore : store.map (Table.map Value.filled) = store'.map (Table.map Value.filled)) :
    Alike { s with fields := store } { s' with fields := store' } where
  filled := by
    show { s.filled with fields := store.map (Table.map Value.filled) } =
      { s'.filled with fields := store'.map (Table.map Value.filled) }
    rw [h.filled, hstore]
  sources := h.sources

theorem withArrays {as as' : Arrays} (h : s.Alike s') (has : as.filled = as'.filled) :
    Alike { s with arrays := as } { s' with arrays := as' } where
  filled := by
    show { s.filled with arrays := as.filled } = { s'.filled with arrays := as'.filled }
    rw [h.filled, has]
  sources := h.sources

theorem withModules {table table' : Table Module} (h : s.Alike s')
    (htable : table.map Module.filled = table'.map Module.filled) :
    Alike { s with modules := table } { s' with modules := table' } where
  filled := by
    show { s.filled with modules := table.map Module.filled } =
      { s'.filled with modules := table'.map Module.filled }
    rw [h.filled, htable]
  sources := h.sources

theorem withContext (h : s.Alike s') (c : Context) :
    Alike { s with context := c } { s' with context := c } where
  filled := congrArg (fun s : Session => { s with context := c }) h.filled
  sources := h.sources

theorem withStarted (h : s.Alike s') (path : String) :
    Alike { s with started := path :: s.started } { s' with started := path :: s'.started } where
  filled := congrArg (fun s : Session => { s with started := path :: s.started }) h.filled
  sources := h.sources

theorem withOutput (h : s.Alike s') (text : String) :
    Alike { s with output := s.output ++ text ++ "\n" }
      { s' with output := s'.output ++ text ++ "\n" } where
  filled := congrArg (fun s : Session => { s with output := s.output ++ text ++ "\n" }) h.filled
  sources := h.sources

theorem withNextIdentity (h : s.Alike s') :
    Alike { s with nextIdentity := s.nextIdentity + 1 }
      { s' with nextIdentity := s'.nextIdentity + 1 } where
  filled := congrArg (fun s : Session => { s with nextIdentity := s.nextIdentity + 1 }) h.filled
  sources := h.sources

theorem tick (h : s.Alike s') :
    Alike { s with clock := s.clock.tick } { s' with clock := s'.clock.tick } where
  filled := congrArg (fun s : Session => { s with clock := s.clock.tick }) h.filled
  sources := h.sources

theorem told (h : s.Alike s') (output : String) (clock : Clock) :
    Alike { s with output := output, clock := clock }
      { s' with output := output, clock := clock } where
  filled := congrArg (fun s : Session => { s with output := output, clock := clock }) h.filled
  sources := h.sources

theorem commit {p p' : Prepared α} {form : α → β} (h : s.Alike s')
    (hp : p.mapTree form = p'.mapTree form) : Alike (s.commit p) (s'.commit p') where
  filled := by
    have hnotes : p.notes = p'.notes := (congrArg Prepared.notes hp :)
    have hnext : p.nextId = p'.nextId := (congrArg Prepared.nextId hp :)
    show s.filled.commit p = s'.filled.commit p'
    rw [h.filled, Session.commit, Session.commit, hnotes, hnext]
  sources := h.sources

theorem define (h : s.Alike s') (frame : FrameId) (name : String)
    (hvalue : value.filled = value'.filled) :
    Alike { s with frames := s.frames.define frame name value }
      { s' with frames := s'.frames.define frame name value' } :=
  h.withFrames (by rw [Frames.filled_define, Frames.filled_define, h.frames, hvalue])

theorem add (h : s.Alike s') (parent : Option FrameId) (opener opener' : Option Opener) :
    Alike { s with frames := s.frames.add parent opener }
      { s' with frames := s'.frames.add parent opener' } :=
  h.withFrames (by rw [Frames.filled_add, Frames.filled_add, h.frames])

end Alike

end Session

-- ---------------------------------------------------------------------------
-- Computations
-- ---------------------------------------------------------------------------

theorem both_of_map_eq {form : α → β} {x x' : Option α} (h : x.map form = x'.map form) :
    (x = none ∧ x' = none) ∨ ∃ a a', x = some a ∧ x' = some a' ∧ form a = form a' := by
  cases x with
  | none =>
    cases x' with
    | none => exact .inl ⟨rfl, rfl⟩
    | some a' => cases h
  | some a =>
    cases x' with
    | none => cases h
    | some a' => exact .inr ⟨a, a', rfl, rfl, Option.some.inj h⟩

theorem both_of_except_eq {form : α → β} {x x' : Except ε α} (h : x.map form = x'.map form) :
    (∃ e, x = .error e ∧ x' = .error e) ∨ ∃ a a', x = .ok a ∧ x' = .ok a' ∧ form a = form a' := by
  cases x with
  | error e =>
    cases x' with
    | error e' => exact .inl ⟨e, rfl, congrArg Except.error (Except.error.inj h).symm⟩
    | ok a' => cases h
  | ok a =>
    cases x' with
    | error e' => cases h
    | ok a' => exact .inr ⟨a, a', rfl, rfl, Except.ok.inj h⟩

/-- What two computations come to. Of the second nothing is asked where the first is out of
allowance, but that it has printed no less. -/
inductive Outcomes (form : α → β) : Except Halt α × Session → Except Halt α × Session → Prop
  | ok {s s' : Session} : form a = form a' → s.Alike s' → Outcomes form (.ok a, s) (.ok a', s')
  | halt {s s' : Session} (h : Halt) : s.Alike s' →
    Outcomes form (.error h, s) (.error h, s')
  | exhausted {s : Session} : s.PrintsOn x.2 → Outcomes form (.error .exhausted, s) x

/-- From sessions that are alike, the computations come to outcomes with one filled form. -/
structure Tandem (form : α → β) (m m' : Run α) : Prop where
  runs : ∀ {s s' : Session}, s.Alike s' → Outcomes form (m.on s) (m'.on s')
  prints : ∀ s : Session, s.PrintsOn (m'.on s).2

namespace Tandem

variable {form : α → β}

theorem pure (h : form a = form a') : Tandem form (Pure.pure a) (Pure.pure a') where
  runs hs := .ok h hs
  prints s := .refl s

theorem stop (h : Halt) : Tandem form (throw h) (throw h) where
  runs hs := .halt h hs
  prints s := .refl s

theorem raise (e : Error) : Tandem form (Run.raise e) (Run.raise e) :=
  stop _

theorem fail (site : Site) (fault : RuntimeFault) :
    Tandem form (Run.fail site fault) (Run.fail site fault) :=
  raise _

/-- Out of allowance, a computation has printed nothing yet. -/
theorem exhausted {m : Run α} (h : ∀ s : Session, s.PrintsOn (m.on s).2) :
    Tandem form (throw .exhausted) m where
  runs {_ s'} hs := .exhausted (hs.printsOn.trans (h s'))
  prints := h

theorem bind {m m' : Run α} {f f' : α → Run γ} {form' : γ → δ} (hm : Tandem form m m')
    (hf : ∀ a a', form a = form a' → Tandem form' (f a) (f' a')) :
    Tandem form' (m >>= f) (m' >>= f') where
  runs {s s'} hs := by
    have hm := hm.runs hs
    rw [Run.on_bind, Run.on_bind]
    generalize m.on s = x at hm ⊢
    generalize m'.on s' = x' at hm ⊢
    cases hm with
    | ok ha h₁ => exact (hf _ _ ha).runs h₁
    | halt h h₁ => exact .halt h h₁
    | exhausted hout =>
      -- Whatever the second goes on to do, it takes back nothing that it has printed.
      refine .exhausted (hout.trans ?_)
      rcases x' with ⟨_ | a, s₁⟩
      · exact .refl s₁
      · exact (hf a a rfl).prints s₁
  prints s := by
    have hm := hm.prints s
    rw [Run.on_bind]
    generalize m'.on s = x at hm ⊢
    rcases x with ⟨_ | a, s₁⟩
    · exact hm
    · exact hm.trans ((hf a a rfl).prints s₁)

theorem bind_same {m m' : Run α} {f f' : α → Run γ} {form : γ → δ} (hm : Tandem id m m')
    (hf : ∀ a, Tandem form (f a) (f' a)) : Tandem form (m >>= f) (m' >>= f') :=
  hm.bind fun a a' (h : a = a') => h ▸ hf a

theorem map {m m' : Run α} {g g' : α → γ} {form' : γ → δ} (hm : Tandem form m m')
    (hg : ∀ a a', form a = form a' → form' (g a) = form' (g' a')) :
    Tandem form' (g <$> m) (g' <$> m') := by
  rw [map_eq_pure_bind, map_eq_pure_bind]
  exact hm.bind fun a a' ha => pure (hg a a' ha)

theorem get_bind {f f' : Session → Run α}
    (hf : ∀ s s' : Session, s.Alike s' → Tandem form (f s) (f' s')) :
    Tandem form (get >>= f) (get >>= f') where
  runs {s s'} hs := by
    rw [Run.on_bind, Run.on_bind]
    exact (hf s s' hs).runs hs
  prints s := by
    rw [Run.on_bind]
    exact (hf s s (.refl s)).prints s

theorem updateGet {f f' : Session → α × Session}
    (h : ∀ s s' : Session, s.Alike s' → form (f s).1 = form (f' s').1 ∧ (f s).2.Alike (f' s').2)
    (hout : ∀ s : Session, s.PrintsOn (f' s).2) :
    Tandem form (modifyGet f : Run α) (modifyGet f' : Run α) where
  runs {s s'} hs := .ok (h s s' hs).1 (h s s' hs).2
  prints := hout

theorem update {f f' : Session → Session}
    (h : ∀ s s' : Session, s.Alike s' → (f s).Alike (f' s'))
    (hout : ∀ s : Session, s.PrintsOn (f' s)) :
    Tandem id (modify f : Run Unit) (modify f' : Run Unit) :=
  updateGet (fun s s' hs => ⟨rfl, h s s' hs⟩) hout

theorem within {m m' : Run α} (r : Region) (hm : Tandem form m m') :
    Tandem form (Run.within r m) (Run.within r m') where
  runs {s s'} hs := by
    have hm := hm.runs (hs.withContext (r.enter s.context))
    rw [Run.on_within, Run.on_within, ← hs.context]
    generalize m.on _ = x at hm ⊢
    generalize m'.on _ = x' at hm ⊢
    cases hm with
    | ok ha h₁ =>
      dsimp only
      rw [h₁.context]
      exact .ok ha (h₁.withContext _)
    | halt h h₁ =>
      dsimp only
      rw [h₁.context]
      exact .halt h (h₁.withContext _)
    | exhausted hout => exact .exhausted hout
  prints s := hm.prints { s with context := r.enter s.context }

theorem ofExcept {r r' : Except Error α} (h : r.map form = r'.map form) :
    Tandem form (Run.ofExcept r) (Run.ofExcept r') := by
  obtain ⟨e, rfl, rfl⟩ | ⟨a, a', rfl, rfl, ha⟩ := both_of_except_eq h
  · exact raise e
  · exact pure ha

theorem ofResult {r r' : Except Halt α} (h : r.map form = r'.map form) :
    Tandem form (Run.ofResult r) (Run.ofResult r') := by
  obtain ⟨halt, rfl, rfl⟩ | ⟨a, a', rfl, rfl, ha⟩ := both_of_except_eq h
  · exact stop halt
  · exact pure ha

theorem each {action action' : γ → Run α} (h : ∀ item, Tandem form (action item) (action' item))
    (items : List γ) : Tandem (List.map form) (Run.each action items) (Run.each action' items) := by
  induction items with
  | nil => exact pure rfl
  | cons item rest ih =>
    refine (h item).bind fun a a' ha => ih.bind fun as as' has => pure ?_
    rw [List.map_cons, List.map_cons, ha, has]

end Tandem

-- ---------------------------------------------------------------------------
-- Variables and members
-- ---------------------------------------------------------------------------

namespace Tandem

theorem newFrame (parent : FrameId) (opener opener' : Opener) :
    Tandem id (Run.newFrame parent opener) (Run.newFrame parent opener') :=
  updateGet (fun _ _ h => ⟨h.next, h.add _ _ _⟩) fun s => .refl s

theorem newModuleFrame : Tandem id Run.newModuleFrame Run.newModuleFrame :=
  updateGet (fun _ _ h => ⟨h.next, h.add _ _ _⟩) fun s => .refl s

theorem define (frame : FrameId) (name : String) (h : Value.filled v = Value.filled v') :
    Tandem id (Run.define frame name v) (Run.define frame name v') :=
  update (fun _ _ hs => hs.define frame name h) fun s => .refl s

theorem defineHere (name : String) (h : Value.filled v = Value.filled v') :
    Tandem id (Run.defineHere name v) (Run.defineHere name v') := by
  refine get_bind fun s s' hs => ?_
  rw [hs.context]
  exact define _ name h

theorem newIdentity : Tandem id Run.newIdentity Run.newIdentity :=
  updateGet (fun _ _ h => ⟨(congrArg Session.nextIdentity h.filled :), h.withNextIdentity⟩) fun s =>
    .refl s

theorem newArray (h : List.map Value.filled vs = List.map Value.filled vs') :
    Tandem id (Run.newArray vs) (Run.newArray vs') := by
  refine updateGet (fun s s' hs => ⟨?_, hs.withArrays ?_⟩) fun s => .refl s
  · show s.arrays.next = s'.arrays.next
    rw [← Arrays.next_filled, hs.arrays, Arrays.next_filled]
  · rw [Arrays.filled_add, Arrays.filled_add, hs.arrays, h]

theorem time : Tandem id Run.time Run.time :=
  updateGet (fun _ _ h => ⟨congrArg (· 0) h.clock, h.tick⟩) fun s => .refl s

theorem textOf (h : Value.filled v = Value.filled v') :
    Tandem id (Run.textOf v) (Run.textOf v') := by
  refine get_bind fun s s' hs => ofResult ?_
  rw [← Arrays.text_filled, hs.arrays, h, Arrays.text_filled]

theorem newObject : Tandem id Run.newObject Run.newObject := by
  refine updateGet (fun s s' h => ⟨?_, h.withFields ?_⟩) fun s => .refl s
  · simpa using congrArg Array.size h.fields
  · rw [Array.map_push, Array.map_push, h.fields]

theorem field? (object : ObjectId) (name : String) :
    Tandem (Option.map Value.filled) (Run.field? object name) (Run.field? object name) := by
  refine get_bind fun s s' h => pure ?_
  have found (s : Session) : Option.map Value.filled (s.fields[object]?.bind (·.get? name)) =
      (s.fields.map (Table.map Value.filled))[object]?.bind (·.get? name) := by
    rw [Array.getElem?_map]
    cases s.fields[object]? with
    | none => rfl
    | some table => exact (Table.get?_map Value.filled table name).symm
  rw [found, found, h.fields]

theorem setField (object : ObjectId) (name : String) (h : Value.filled v = Value.filled v') :
    Tandem id (Run.setField object name v) (Run.setField object name v') := by
  refine update (fun s s' hs => hs.withFields ?_) fun s => .refl s
  have changed (fields : Array (Table Value)) (v : Value) :
      (fields.modify object (·.insert name v)).map (Table.map Value.filled) =
        (fields.map (Table.map Value.filled)).modify object (·.insert name v.filled) :=
    map_modify (fun table => Table.map_insert Value.filled table name v) fields object
  rw [changed, changed, hs.fields, h]

theorem printLine (text : String) : Tandem id (Run.printLine text) (Run.printLine text) := by
  refine get_bind fun s s' h => ?_
  have hrefusal : s.refusal = s'.refusal := (congrArg Session.refusal h.filled :)
  rw [hrefusal]
  cases s'.refusal with
  | some reason => exact raise _
  | none =>
    refine update (fun _ _ h => h.withOutput text) fun s => ⟨text ++ "\n", ?_⟩
    exact String.append_assoc ..

theorem commit {form : α → β} {p p' : Prepared α} (h : p.mapTree form = p'.mapTree form) :
    Tandem form (Run.commit p) (Run.commit p') :=
  updateGet (fun _ _ hs => ⟨(congrArg Prepared.tree h :), hs.commit h⟩) fun s => .refl s

theorem lookUp (node : NodeId) (name : Token) :
    Tandem Value.filled (Run.lookUp node name) (Run.lookUp node name) := by
  refine get_bind fun s s' h => ?_
  rw [h.distances, h.context]
  cases s'.distances[node]? with
  | none =>
    refine ofExcept ?_
    rw [← Frames.read_filled, ← Frames.read_filled, h.frames]
  | some distance =>
    have hfound := congrArg (·.getAt? s'.context.frame distance name.lexeme) h.frames
    simp only [Frames.getAt?_filled] at hfound
    obtain ⟨hx, hx'⟩ | ⟨v, v', hx, hx', hv⟩ := both_of_map_eq hfound
    · simp only [hx, hx']
      exact fail _ _
    · simp only [hx, hx']
      exact pure hv

theorem assignee (node : NodeId) (name : Token) :
    Tandem id (Run.assignee node name) (Run.assignee node name) := by
  refine get_bind fun s s' h => ?_
  rw [h.distances, h.context]
  cases s'.distances[node]? with
  | none =>
    have hholder : s.frames.holder? s'.context.globals name.lexeme =
        s'.frames.holder? s'.context.globals name.lexeme := by
      rw [← Frames.holder?_filled, h.frames, Frames.holder?_filled]
    simp only [hholder]
    cases s'.frames.holder? s'.context.globals name.lexeme with
    | none => exact raise _
    | some frame => exact pure rfl
  | some distance =>
    have hancestor : s.frames.ancestor? s'.context.frame distance =
        s'.frames.ancestor? s'.context.frame distance := by
      rw [← Frames.ancestor?_filled, h.frames, Frames.ancestor?_filled]
    simp only [hancestor]
    cases s'.frames.ancestor? s'.context.frame distance with
    | none => exact fail _ _
    | some frame => exact pure rfl

theorem assign (node : NodeId) (name : Token) (h : Value.filled v = Value.filled v') :
    Tandem id (Run.assign node name v) (Run.assign node name v') :=
  (assignee node name).bind_same fun frame => define frame name.lexeme h

theorem currentHome : Tandem id Run.currentHome Run.currentHome :=
  get_bind fun s s' h => pure (by rw [h.context])

theorem close (h : Routine.filled r = Routine.filled r') (initializer : Bool) :
    Tandem Closure.filled (Run.close r initializer) (Run.close r' initializer) := by
  refine get_bind fun s s' hs => currentHome.bind_same fun home => pure ?_
  rw [Closure.filled, Closure.filled, h, hs.context]

theorem functionValue (h : Closure.filled c = Closure.filled c') :
    Tandem Value.filled (Run.functionValue c) (Run.functionValue c') :=
  newIdentity.bind_same fun i => pure (congrArg (Value.function i) h)

theorem bindReceiver (h : Closure.filled c = Closure.filled c')
    (hreceiver : Value.filled v = Value.filled v') :
    Tandem Closure.filled (Run.bindReceiver c v) (Run.bindReceiver c' v') := by
  obtain ⟨hroutine, hframe, hinitializer, hhome⟩ := Closure.filled_eq h
  unfold Run.bindReceiver
  rw [hframe]
  refine (newFrame _ _ _).bind_same fun frame => ?_
  refine (define frame "this" hreceiver).bind_same fun _ => pure ?_
  rw [Closure.filled, Closure.filled, hroutine, hinitializer, hhome]

theorem memberOf (object : ObjectId)
    (hmethods : methods.map Closure.filled = methods'.map Closure.filled)
    (hreceiver : Value.filled v = Value.filled v') (name : Token) :
    Tandem Value.filled (Run.memberOf object methods v name)
      (Run.memberOf object methods' v' name) := by
  refine (field? object name.lexeme).bind fun x x' hx => ?_
  obtain ⟨rfl, rfl⟩ | ⟨u, u', rfl, rfl, hu⟩ := both_of_map_eq hx
  · have hfound := congrArg (·.get? name.lexeme) hmethods
    simp only [Table.get?_map] at hfound
    obtain ⟨hm, hm'⟩ | ⟨m, m', hm, hm', hmethod⟩ := both_of_map_eq hfound
    · simp only [hm, hm']
      exact fail _ _
    · simp only [hm, hm']
      exact (bindReceiver hmethod hreceiver).bind fun _ _ => functionValue
  · exact pure hu

theorem member (h : Value.filled v = Value.filled v') (name : Token) :
    Tandem Value.filled (Run.member v name) (Run.member v' name) := by
  cases Value.twins h with
  | inert hv hv' =>
    rw [hv.member, hv'.member]
    exact fail _ _
  | object hc => exact memberOf _ (Class.filled_eq hc).2.2.1 h name
  | classObject hc =>
    obtain ⟨hid, -, -, hmethods⟩ := Class.filled_eq hc
    simp only [Run.member, hid]
    exact memberOf _ hmethods h name
  | function _ | native => exact fail _ _

theorem closeAll (isInitializer : Routine → Bool)
    (hinit : ∀ r, isInitializer r.filled = isInitializer r) :
    ∀ {routines routines' : List Routine},
      Routine.filledAll routines = Routine.filledAll routines' →
      Tandem (List.map fun pair : String × Closure => (pair.1, pair.2.filled))
        (Run.closeAll isInitializer routines) (Run.closeAll isInitializer routines')
  | [], [], _ => pure rfl
  | r :: rest, r' :: rest', h => by
    obtain ⟨hr, hrest⟩ := List.cons.inj h
    have hsame : isInitializer r = isInitializer r' := by rw [← hinit, hr, hinit]
    unfold Run.closeAll
    rw [hsame, (Routine.filled_eq hr).1]
    refine (close hr _).bind fun c c' hc => ?_
    refine (closeAll isInitializer hinit hrest).bind fun pairs pairs' hpairs => pure ?_
    rw [List.map_cons, List.map_cons, hc, hpairs]

theorem declareClass (name : Token)
    (hmethods : Routine.filledAll methods = Routine.filledAll methods')
    (hothers : Routine.filledAll classMethods = Routine.filledAll classMethods') :
    Tandem id (Run.declareClass name methods classMethods)
      (Run.declareClass name methods' classMethods') := by
  refine (defineHere name.lexeme rfl).bind_same fun _ => ?_
  refine (closeAll _ (fun _ => rfl) hothers).bind fun others others' hothers => ?_
  refine (closeAll _ (fun r => by rw [Routine.name_filled]) hmethods).bind fun own own' hown => ?_
  refine newObject.bind_same fun object => defineHere name.lexeme ?_
  simp only [Value.filled, Class.filled, Table.map_ofList, hothers, hown]

theorem adopt (frame : FrameId) (h : Value.filled v = Value.filled v') :
    Tandem Value.filled (Run.adopt frame v) (Run.adopt frame v') := by
  cases Value.twins h with
  | inert hv hv' =>
    rw [hv.adopt, hv'.adopt]
    exact pure h
  | @function c c' i hc =>
    obtain ⟨hroutine, hframe, hinitializer, hhome⟩ := Closure.filled_eq hc
    unfold Run.adopt
    dsimp only
    rw [hhome]
    cases c'.home with
    | some home => exact pure h
    | none =>
      refine functionValue ?_
      rw [Closure.filled, Closure.filled, hroutine, hframe, hinitializer]
  | native | classObject _ | object _ => exact pure h

theorem adoptAll (frame : FrameId) : ∀ {entries entries' : List (String × Value)},
    (entries.map fun entry => (entry.1, entry.2.filled)) =
      (entries'.map fun entry => (entry.1, entry.2.filled)) →
    Tandem id (Run.adoptAll frame entries) (Run.adoptAll frame entries')
  | [], [], _ => pure rfl
  | (name, v) :: rest, (name', v') :: rest', h => by
    obtain ⟨hentry, hrest⟩ := List.cons.inj h
    obtain ⟨rfl, hv⟩ := Prod.mk.inj hentry
    refine (adopt frame hv).bind fun u u' hu => ?_
    exact (defineHere name hu).bind_same fun _ => adoptAll frame hrest

theorem splice (path : String) : Tandem id (Run.splice path) (Run.splice path) := by
  refine get_bind fun s s' h => ?_
  have hmodule := congrArg (·.get? path) h.modules
  simp only [Table.get?_map] at hmodule
  obtain ⟨hm, hm'⟩ | ⟨m, m', hm, hm', hmm⟩ := both_of_map_eq hmodule
  · simp only [hm, hm']
    exact pure rfl
  · have hframe : m.frame = m'.frame := (congrArg Module.frame hmm :)
    simp only [hm, hm', hframe]
    refine adoptAll _ ?_
    have hbindings := congrArg (·.bindings m'.frame) h.frames
    simp only [Frames.bindings_filled] at hbindings
    exact (congrArg Table.entries hbindings :)

theorem register (path : String) (frame : FrameId) :
    Tandem id (Run.register path frame) (Run.register path frame) := by
  refine update (fun s s' h => ?_) fun s => .refl s
  have hmodules : (s.modules.insert path ⟨frame, .empty⟩).map Module.filled =
      (s'.modules.insert path ⟨frame, .empty⟩).map Module.filled := by
    rw [Table.map_insert, Table.map_insert, h.modules]
  exact (h.withModules hmodules).withStarted path

theorem recordExport (name : String) (h : Value.filled v = Value.filled v') :
    Tandem id (Run.recordExport name v) (Run.recordExport name v') := by
  refine update (fun s s' hs => ?_) fun s => ?_
  · have hloading : s.context.loading.head? = s'.context.loading.head? := by rw [hs.context]
    rw [hloading]
    cases s'.context.loading.head? with
    | none => exact hs
    | some path =>
      have hmodule := congrArg (·.get? path) hs.modules
      simp only [Table.get?_map] at hmodule
      obtain ⟨hm, hm'⟩ | ⟨m, m', hm, hm', hmm⟩ := both_of_map_eq hmodule
      · simp only [hm, hm']
        exact hs
      · simp only [hm, hm']
        refine hs.withModules ?_
        obtain ⟨hframe, hexports⟩ := Module.mk.inj hmm
        simp only [Table.map_insert, Module.filled, hs.modules, hframe, hexports, h]
  · split
    · split <;> exact .refl _
    · exact .refl _

theorem bindParameters (frame : FrameId) (params : List Token) :
    ∀ {values values' : List Value}, values.map Value.filled = values'.map Value.filled →
      Tandem id (Run.bindParameters frame params values)
        (Run.bindParameters frame params values') := by
  induction params with
  | nil =>
    intro values values' _
    exact pure rfl
  | cons p params ih =>
    intro values values' h
    match values, values', h with
    | [], [], _ => exact pure rfl
    | v :: rest, v' :: rest', h =>
      obtain ⟨hv, hrest⟩ := List.cons.inj h
      exact (define frame p.lexeme hv).bind_same fun _ => ih hrest

theorem receiver (site : Site) (h : Closure.filled c = Closure.filled c') :
    Tandem Value.filled (Run.receiver c site) (Run.receiver c' site) := by
  refine get_bind fun s s' hs => ?_
  rw [(Closure.filled_eq h).2.1]
  have hfound := congrArg (·.getAt? c'.frame 0 "this") hs.frames
  simp only [Frames.getAt?_filled] at hfound
  obtain ⟨hx, hx'⟩ | ⟨v, v', hx, hx', hv⟩ := both_of_map_eq hfound
  · simp only [hx, hx']
    exact fail _ _
  · simp only [hx, hx']
    exact pure hv

end Tandem

end Treewalk
