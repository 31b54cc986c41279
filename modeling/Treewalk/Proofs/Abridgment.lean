import Treewalk.Proofs.Bearings

/-!
# Sessions without the frames of rounds

A computation in a session goes on in the same way when the frames of rounds are left out of it. The
rules for this are stated for two computations side by side, and the small changes that tasks
consist of keep to them. One way to halt is let through: a task may be stopped in that way where it
cannot occur.
-/

namespace Treewalk

-- ---------------------------------------------------------------------------
-- Going the same way
-- ---------------------------------------------------------------------------

/-- Where the scopes of rounds are left out, `m'` does what `m` does. -/
def Agrees (chosen : Stmt → Bool) (m m' : Run α) (s : Session) : Prop :=
  m'.on (s.abridged chosen) = ((m.on s).1, (m.on s).2.abridged chosen)

/-- If `m` does not halt in the given way, `m'` agrees with it, and `Q` holds of what it gives. -/
def Mirrors (chosen : Stmt → Bool) (halt : Halt) (m m' : Run α) (s : Session)
    (Q : α → Session → Prop) : Prop :=
  (m.on s).1 = .error halt ∨
    Agrees chosen m m' s ∧ s.Later (m.on s).2 ∧ ∀ a, (m.on s).1 = .ok a → Q a (m.on s).2

/-- Code stands in a frame that is kept. -/
structure Session.Level (chosen : Stmt → Bool) (s : Session) : Prop where
  kept : s.frames.skip chosen s.context.frame = s.context.frame
  here : s.context.frame < s.frames.size

variable {chosen : Stmt → Bool} {halt : Halt} {s s' : Session} {r : Region}

theorem Session.Later.here (h : s.Later s') (hlt : s.context.frame < s.frames.size) :
    s'.context.frame < s'.frames.size := by
  rw [h.context]
  exact Nat.lt_of_lt_of_le hlt h.grows.frames.size

theorem Session.Level.later (h : s.Level chosen) (hlater : s.Later s') : s'.Level chosen := by
  refine ⟨?_, hlater.here h.here⟩
  rw [hlater.context, Frames.skip_of_grows hlater.grows.frames h.here]
  exact h.kept

/-- Another context is given back at the end. -/
theorem Session.abridged_back (hlt : s.context.frame < s.frames.size)
    (hgrows : s.frames.Grows s'.frames) : { s' with context := s.context }.abridged chosen =
      { s'.abridged chosen with context := (s.abridged chosen).context } := by
  simp only [Session.abridged, Frames.skip_of_grows hgrows hlt]

/-- A region is entered in its own frame, if that is kept. -/
theorem Session.abridged_enter
    (hkept : s.frames.skip chosen (r.enter s.context).frame = (r.enter s.context).frame) :
    { s with context := r.enter s.context }.abridged chosen =
      { s.abridged chosen with context := r.enter (s.abridged chosen).context } := by
  simp only [Session.abridged, hkept]
  cases r <;> rfl

theorem Session.abridged_kept (hframe : (r.enter s.context).frame < s.frames.size)
    (hkept : s.frames.skip chosen (r.enter s.context).frame = (r.enter s.context).frame)
    (hlater : { s with context := r.enter s.context }.Later s') :
    (s'.abridged chosen).context = r.enter (s.abridged chosen).context := by
  have hskip : s'.frames.skip chosen (r.enter s.context).frame = (r.enter s.context).frame :=
    (Frames.skip_of_grows hlater.grows.frames hframe).trans hkept
  simp only [Session.abridged, hlater.context, hskip]
  cases r <;> rfl

theorem Session.abridged_define (s : Session) (frame : FrameId) (name : String) (value : Value) :
    { s with frames := s.frames.define frame name value }.abridged chosen =
      { s.abridged chosen with
        frames := (s.abridged chosen).frames.define frame name value } := by
  simp only [Session.abridged, Frames.abridged_define, Frames.skip_define]

theorem Session.abridged_add (hlt : s.context.frame < s.frames.size)
    (h : opener.any (Opener.isRound chosen) = false) (parent : FrameId) :
    { s with frames := s.frames.add (some parent) opener }.abridged chosen =
      { s.abridged chosen with frames :=
        (s.abridged chosen).frames.add (some (s.frames.skip chosen parent)) opener } := by
  have hskip : (s.frames.add (some parent) opener).skip chosen s.context.frame =
      s.frames.skip chosen s.context.frame := Frames.skip_of_grows (.add ..) hlt
  simp only [Session.abridged, hskip, Frames.abridged_add _ _ h, Option.map_some]

/-- A new frame is kept if it is not that of a round. -/
theorem Frames.skip_next {fs : Frames} (h : opener.any (Opener.isRound chosen) = false)
    (within : Option FrameId) : (fs.add within opener).skip chosen fs.next = fs.next := by
  refine skip_of_not_round ?_
  rwa [isRound, opener?_add_next]

namespace Mirrors

variable {α β : Type} {Q Q' : α → Session → Prop} {m m' : Run α} {f f' : α → Run β}

theorem of_ok (hm : m.on s = (.ok a, s'))
    (hm' : m'.on (s.abridged chosen) = (.ok a, s'.abridged chosen))
    (hlater : s.Later s') (h : Q a s') : Mirrors chosen halt m m' s Q := by
  refine .inr ?_
  rw [Agrees, hm, hm']
  refine ⟨rfl, hlater, ?_⟩
  rintro _ ⟨⟩
  exact h

theorem pure (h : Q a s) : Mirrors chosen halt (Pure.pure a) (Pure.pure a) s Q :=
  of_ok rfl rfl (.refl s) h

theorem raise (e : Error) : Mirrors chosen halt (Run.raise e : Run α) (Run.raise e) s Q :=
  .inr ⟨rfl, .refl s, nofun⟩

theorem fail (site : Site) (fault : RuntimeFault) :
    Mirrors chosen halt (Run.fail site fault : Run α) (Run.fail site fault) s Q :=
  raise _

theorem ofResult (r : Except Halt α) :
    Mirrors chosen halt (Run.ofResult r) (Run.ofResult r) s fun _ _ => True := by
  cases r with
  | ok a => exact pure trivial
  | error h => exact .inr ⟨rfl, .refl s, nofun⟩

theorem ofExcept (r : Except Error α) :
    Mirrors chosen halt (Run.ofExcept r) (Run.ofExcept r) s fun _ _ => True := by
  cases r with
  | ok a => exact pure trivial
  | error e => exact raise e

theorem weaken (h : Mirrors chosen halt m m' s Q) (hQ : ∀ a s', s.Later s' → Q a s' → Q' a s') :
    Mirrors chosen halt m m' s Q' :=
  h.imp_right fun ⟨hagrees, hlater, hpost⟩ =>
    ⟨hagrees, hlater, fun a ha => hQ a _ hlater (hpost a ha)⟩

theorem bind {R : α → Session → Prop} {Q : β → Session → Prop} (hm : Mirrors chosen halt m m' s R)
    (hf : ∀ a s₁, s.Later s₁ → R a s₁ → Mirrors chosen halt (f a) (f' a) s₁ Q) :
    Mirrors chosen halt (m >>= f) (m' >>= f') s Q := by
  rcases hm with hstops | ⟨hagrees, hlater, hpost⟩
  · exact .inl (Run.on_bind_error hstops)
  · rw [Agrees] at hagrees
    rcases hr : m.on s with ⟨halt' | a, s₁⟩
    · rw [hr] at hagrees hlater
      have hrun : (m >>= f).on s = (.error halt', s₁) := by rw [Run.on_bind, hr]
      have hrun' : (m' >>= f').on (s.abridged chosen) = (.error halt', s₁.abridged chosen) := by
        rw [Run.on_bind, hagrees]
      refine .inr ?_
      rw [Agrees, hrun, hrun']
      exact ⟨rfl, hlater, nofun⟩
    · rw [hr] at hagrees hlater hpost
      have hrun : (m >>= f).on s = (f a).on s₁ := by rw [Run.on_bind, hr]
      have hrun' : (m' >>= f').on (s.abridged chosen) = (f' a).on (s₁.abridged chosen) := by
        rw [Run.on_bind, hagrees]
      have hrest := hf a s₁ hlater (hpost a rfl)
      rw [Mirrors, Agrees] at hrest ⊢
      rw [hrun, hrun']
      exact hrest.imp_right fun ⟨hagrees', hlater', hpost'⟩ =>
        ⟨hagrees', hlater.trans hlater', hpost'⟩

/-- First parts whose outcomes are known, and that need not give the same. -/
theorem first {Q : β → Session → Prop} {m' : Run γ} {f' : γ → Run β} (hm : m.on s = (.ok a, s'))
    (hm' : m'.on (s.abridged chosen) = (.ok a', s'.abridged chosen)) (hlater : s.Later s')
    (hf : Mirrors chosen halt (f a) (f' a') s' Q) :
    Mirrors chosen halt (m >>= f) (m' >>= f') s Q := by
  have hrun : (m >>= f).on s = (f a).on s' := by rw [Run.on_bind, hm]
  have hrun' : (m' >>= f').on (s.abridged chosen) = (f' a').on (s'.abridged chosen) := by
    rw [Run.on_bind, hm']
  rw [Mirrors, Agrees] at hf ⊢
  rw [hrun, hrun']
  exact hf.imp_right fun ⟨hagrees, hlater', hpost⟩ => ⟨hagrees, hlater.trans hlater', hpost⟩

theorem congr {n : Run α} (hm : m.on s = n.on s) (h : Mirrors chosen halt n m' s Q) :
    Mirrors chosen halt m m' s Q := by
  rw [Mirrors, Agrees, hm]
  exact h

theorem get {Q : β → Session → Prop} {f f' : Session → Run β}
    (hf : Mirrors chosen halt (f s) (f' (s.abridged chosen)) s Q) :
    Mirrors chosen halt (MonadState.get >>= f) (MonadState.get >>= f') s Q :=
  first rfl rfl (.refl s) hf

theorem ite {c : Prop} [Decidable c] {n n' : Run α} (hm : c → Mirrors chosen halt m m' s Q)
    (hn : ¬ c → Mirrors chosen halt n n' s Q) :
    Mirrors chosen halt (if c then m else n) (if c then m' else n') s Q := by
  split
  · next h => exact hm h
  · next h => exact hn h

/-- What is run in a region whose frame is kept. -/
theorem within (hlt : s.context.frame < s.frames.size)
    (hframe : (r.enter s.context).frame < s.frames.size)
    (hkept : s.frames.skip chosen (r.enter s.context).frame = (r.enter s.context).frame)
    (hm : Mirrors chosen halt m m' { s with context := r.enter s.context } Q) :
    Mirrors chosen halt (Run.within r m) (Run.within r m') s fun _ _ => True := by
  rw [Mirrors, Agrees] at hm ⊢
  rcases hrun : m.on { s with context := r.enter s.context } with ⟨result, t⟩
  rw [hrun] at hm
  rcases hm with hstops | ⟨hagrees, hlater, -⟩
  · rw [Run.on_within, hrun]
    exact .inl hstops
  · rw [Session.abridged_enter hkept] at hagrees
    rw [Run.on_within_of_kept hrun hlater.context,
      Run.on_within_of_kept hagrees (Session.abridged_kept hframe hkept hlater)]
    refine .inr ⟨?_, ⟨hlater.grows.within, rfl⟩, fun _ _ => trivial⟩
    rw [Session.abridged_back hlt hlater.grows.frames]

/-- What is run in a frame that is not kept, and where that frame stands for the other
computation. -/
theorem inside (hlt : s.context.frame < s.frames.size)
    (hframe : (r.enter s.context).frame < s.frames.size)
    (hstart : { s with context := r.enter s.context }.abridged chosen = s.abridged chosen)
    (hm : Mirrors chosen halt m m' { s with context := r.enter s.context } Q) :
    Mirrors chosen halt (Run.within r m) m' s fun _ _ => True := by
  rw [Mirrors, Agrees, hstart] at hm
  rw [Mirrors, Agrees]
  rcases hrun : m.on { s with context := r.enter s.context } with ⟨result, t⟩
  rw [hrun] at hm
  rcases hm with hstops | ⟨hagrees, hlater, -⟩
  · rw [Run.on_within, hrun]
    exact .inl hstops
  · have hcontext : (t.abridged chosen).context = (s.abridged chosen).context := by
      rw [← hstart, Session.abridged, hlater.context,
        Frames.skip_of_grows hlater.grows.frames hframe]
      rfl
    rw [Run.on_within_of_kept hrun hlater.context, hagrees]
    refine .inr ⟨?_, ⟨hlater.grows.within, rfl⟩, fun _ _ => trivial⟩
    rw [Session.abridged_back hlt hlater.grows.frames, ← hcontext]

end Mirrors

-- ---------------------------------------------------------------------------
-- Single changes
-- ---------------------------------------------------------------------------

namespace Run

/-- A new frame that is kept, in what is kept of the frames around it. -/
theorem newFrame_mirrors (hlt : s.context.frame < s.frames.size)
    (hround : opener.isRound chosen = false) (hparent : s.frames.skip chosen parent = parent') :
    Mirrors chosen halt (newFrame parent opener) (newFrame parent' opener) s fun frame s' =>
      s'.frames.skip chosen frame = frame ∧ frame < s'.frames.size := by
  subst hparent
  have hany : (some opener).any (Opener.isRound chosen) = false := hround
  have hnew := Session.abridged_add hlt hany parent
  refine .of_ok rfl ?_ (Change.frame parent opener).later
    ⟨Frames.skip_next hany (some parent), s.frames.next_lt_add⟩
  show (Except.ok (s.frames.abridged chosen).size, _) = _
  rw [Frames.size_abridged]
  exact congrArg (Prod.mk _) hnew.symm

/-- The top level of a module is in the root frame. -/
theorem newModuleFrame_mirrors (hlt : s.context.frame < s.frames.size)
    (hroot : s.frames.skip chosen rootFrame = rootFrame) :
    Mirrors chosen halt newModuleFrame newModuleFrame s fun frame s' =>
      s'.frames.skip chosen frame = frame ∧ frame < s'.frames.size ∧ s'.modules = s.modules := by
  have hany : (none : Option Opener).any (Opener.isRound chosen) = false := rfl
  have hnew := Session.abridged_add hlt hany rootFrame
  rw [hroot] at hnew
  refine .of_ok rfl ?_ ⟨{ Session.Grows.refl s with frames := .add .. }, rfl⟩
    ⟨Frames.skip_next hany (some rootFrame), s.frames.next_lt_add, rfl⟩
  show (Except.ok (s.frames.abridged chosen).size, _) = _
  rw [Frames.size_abridged]
  exact congrArg (Prod.mk _) hnew.symm

theorem register_mirrors (hnot : s.modules.contains path = false) (frame : FrameId) :
    Mirrors chosen halt (register path frame) (register path frame) s fun _ s' =>
      s'.frames = s.frames := by
  refine .of_ok rfl rfl ⟨{ Session.Grows.refl s with
    modules := fun other m hget => ?_, started := List.suffix_cons _ _ }, rfl⟩ rfl
  simp only [Table.get?_insert]
  split
  · next heq =>
    subst heq
    simp [Table.contains, hget] at hnot
  · exact ⟨m, hget, rfl⟩

theorem define_mirrors (frame : FrameId) (name : String) (value : Value) :
    Mirrors chosen halt (define frame name value) (define frame name value) s fun _ _ => True :=
  .of_ok rfl (congrArg (Prod.mk _) (s.abridged_define frame name value).symm)
    (Change.bind frame name value).later trivial

theorem defineHere_mirrors (hs : s.Level chosen) (name : String) (value : Value) :
    Mirrors chosen halt (defineHere name value) (defineHere name value) s fun _ _ => True := by
  refine .get ?_
  rw [show (s.abridged chosen).context.frame = s.context.frame from hs.kept]
  exact define_mirrors ..

theorem newIdentity_mirrors :
    Mirrors chosen halt newIdentity newIdentity s fun _ _ => True :=
  .of_ok rfl rfl Change.identity.later trivial

theorem newArray_mirrors (elements : List Value) :
    Mirrors chosen halt (newArray elements) (newArray elements) s fun _ _ => True :=
  .of_ok rfl rfl (Change.array elements).later trivial

theorem time_mirrors : Mirrors chosen halt time time s fun _ _ => True :=
  .of_ok rfl rfl Change.tick.later trivial

theorem textOf_mirrors (v : Value) :
    Mirrors chosen halt (textOf v) (textOf v) s fun _ _ => True :=
  .get (.ofResult _)

theorem newObject_mirrors :
    Mirrors chosen halt newObject newObject s fun _ s' => s'.frames = s.frames :=
  .of_ok rfl rfl Change.object.later rfl

theorem setField_mirrors (object : ObjectId) (name : String) (value : Value) :
    Mirrors chosen halt (setField object name value) (setField object name value) s
      fun _ _ => True :=
  .of_ok rfl rfl (Change.field object name value).later trivial

theorem printLine_mirrors (text : String) :
    Mirrors chosen halt (printLine text) (printLine text) s fun _ _ => True := by
  refine .get ?_
  dsimp only [Session.abridged]
  cases s.refusal with
  | some reason => exact .raise _
  | none => exact .of_ok rfl rfl (Change.printed text).later trivial

theorem recordExport_mirrors (name : String) (value : Value) :
    Mirrors chosen halt (recordExport name value) (recordExport name value) s fun _ _ => True := by
  have hlater : s.Later ((recordExport name value).on s).2 := by
    obtain hrun | ⟨path, m, -, hm, hrun⟩ := on_recordExport name value s
    · rw [hrun]
      exact .refl s
    · rw [hrun]
      exact (Change.exported name value hm).later
  refine .of_ok (on_modify _ s) ?_ hlater trivial
  rw [recordExport, on_modify]
  dsimp only [Session.abridged]
  cases s.context.loading.head? with
  | none => rfl
  | some path =>
    dsimp only
    cases s.modules.get? path <;> rfl

theorem functionValue_mirrors (closure : Closure) :
    Mirrors chosen halt (functionValue closure) (functionValue closure) s fun _ _ => True :=
  newIdentity_mirrors.bind fun _ _ _ _ => .pure trivial

theorem close_mirrors (hs : s.Level chosen) (routine : Routine) (initializer : Bool) :
    Mirrors chosen halt (close routine initializer) (close routine initializer) s
      fun _ _ => True := by
  refine .get (.get ?_)
  rw [show (s.abridged chosen).context.frame = s.context.frame from hs.kept]
  exact .pure trivial

theorem closeAll_mirrors (hs : s.Level chosen) (isInitializer : Routine → Bool)
    (routines : List Routine) :
    Mirrors chosen halt (closeAll isInitializer routines) (closeAll isInitializer routines) s
      fun _ _ => True := by
  induction routines generalizing s with
  | nil => exact .pure trivial
  | cons r rest ih =>
    refine (close_mirrors hs r _).bind fun _ s₁ hlater _ => ?_
    exact (ih (hs.later hlater)).bind fun _ _ _ _ => .pure trivial

theorem declareClass_mirrors (hs : s.Level chosen) (name : Token)
    (methods classMethods : List Routine) :
    Mirrors chosen halt (declareClass name methods classMethods)
      (declareClass name methods classMethods) s fun _ _ => True := by
  refine (defineHere_mirrors hs _ _).bind fun _ s₁ h₁ _ => ?_
  refine (closeAll_mirrors (hs.later h₁) _ _).bind fun _ s₂ h₂ _ => ?_
  refine (closeAll_mirrors ((hs.later h₁).later h₂) _ _).bind fun _ s₃ h₃ _ => ?_
  refine newObject_mirrors.bind fun _ s₄ h₄ _ => ?_
  exact defineHere_mirrors (hs.later (h₁.trans (h₂.trans (h₃.trans h₄)))) _ _

theorem bindReceiver_mirrors (hlt : s.context.frame < s.frames.size) {method : Closure}
    (hmethod : s.frames.skip chosen method.frame = method.frame) (receiver : Value) :
    Mirrors chosen halt (bindReceiver method receiver) (bindReceiver method receiver) s
      fun _ _ => True := by
  refine (newFrame_mirrors hlt rfl hmethod).bind fun frame s₁ _ _ => ?_
  exact (define_mirrors frame _ receiver).bind fun _ _ _ _ => .pure trivial

theorem memberOf_mirrors (hlt : s.context.frame < s.frames.size)
    (hmethods : methods.All fun m => s.frames.skip chosen m.frame = m.frame) (object : ObjectId)
    (receiver : Value) (name : Token) :
    Mirrors chosen halt (memberOf object methods receiver name)
      (memberOf object methods receiver name) s fun _ _ => True := by
  have hfield : Mirrors chosen halt (field? object name.lexeme) (field? object name.lexeme) s
      fun _ s' => s' = s := .of_ok rfl rfl (.refl s) rfl
  refine hfield.bind fun found s₁ _ hs₁ => ?_
  subst hs₁
  cases found with
  | some value => exact .pure trivial
  | none =>
    cases hmethod : methods.get? name.lexeme with
    | none => exact .fail _ _
    | some method =>
      refine (bindReceiver_mirrors hlt (hmethods.get? hmethod) receiver).bind fun _ _ _ _ => ?_
      exact functionValue_mirrors _

theorem member_mirrors {A : Account} (hlt : s.context.frame < s.frames.size) (hs : s.Planted)
    (hv : A.Holds s object) (name : Token) :
    Mirrors chosen halt (member object name) (member object name) s fun _ _ => True := by
  have kept {methods : Table Closure} (h : methods.All (A.Method s)) :
      methods.All fun m => s.frames.skip chosen m.frame = m.frame :=
    h.mono fun _ hm => hm.unskipped hs
  unfold member
  split
  · next c => exact memberOf_mirrors hlt (kept (show A.Classed s c from hv).methods.1) ..
  · next c => exact memberOf_mirrors hlt (kept (show A.Classed s c from hv).methods.2) ..
  · exact .fail _ _

theorem receiver_mirrors (closure : Closure) (site : Site) :
    Mirrors chosen halt (receiver closure site) (receiver closure site) s fun _ _ => True := by
  refine .get ?_
  have hthis : (s.abridged chosen).frames.getAt? closure.frame 0 "this" =
      s.frames.getAt? closure.frame 0 "this" :=
    Frames.getLocal?_abridged
  rw [hthis]
  split
  · exact .pure trivial
  · exact .fail _ _

theorem bindParameters_mirrors (frame : FrameId) (params : List Token) (values : List Value) :
    Mirrors chosen halt (bindParameters frame params values) (bindParameters frame params values) s
      fun _ _ => True := by
  induction params generalizing s values with
  | nil => exact .pure trivial
  | cons p params ih =>
    cases values with
    | nil => exact .pure trivial
    | cons v values => exact (define_mirrors frame _ v).bind fun _ _ _ _ => ih values

theorem adopt_mirrors (frame : FrameId) (value : Value) :
    Mirrors chosen halt (adopt frame value) (adopt frame value) s fun _ _ => True := by
  unfold adopt
  split
  · split
    · exact .pure trivial
    · exact functionValue_mirrors _
  · exact .pure trivial

theorem adoptAll_mirrors (hs : s.Level chosen) (frame : FrameId) (entries : List (String × Value)) :
    Mirrors chosen halt (adoptAll frame entries) (adoptAll frame entries) s fun _ _ => True := by
  induction entries generalizing s with
  | nil => exact .pure trivial
  | cons entry rest ih =>
    refine (adopt_mirrors frame entry.2).bind fun v s₁ h₁ _ => ?_
    refine (defineHere_mirrors (hs.later h₁) entry.1 v).bind fun _ s₂ h₂ _ => ?_
    exact ih (hs.later (h₁.trans h₂))

theorem splice_mirrors (hs : s.Level chosen) (path : String) :
    Mirrors chosen halt (splice path) (splice path) s fun _ _ => True := by
  refine .get ?_
  dsimp only [Session.abridged]
  cases s.modules.get? path with
  | none => exact .pure trivial
  | some m =>
    dsimp only
    rw [Frames.bindings_abridged]
    exact adoptAll_mirrors hs m.frame _

end Run

-- ---------------------------------------------------------------------------
-- Variables
-- ---------------------------------------------------------------------------

namespace Run

variable {A : Account} {node : NodeId} {name : Token}

/-- What has been declared around a node leads where the distance that was noted for it leads. -/
theorem lookUp_mirrors (hstands : A.Stands s σ (.expression e)) (hs : s.Planted)
    (hglobals : s.IsGlobal s.context.globals) (hr : e.refers? = some (node, name))
    (hreads : e.reads? = some name) :
    Mirrors chosen halt (lookUp node name) (lookUpAround node name) s fun _ _ => True := by
  have hscope : (s.frames.abridged chosen).scopeOf? node name.lexeme
      (s.frames.skip chosen s.context.frame) = _ := hstands.scopeOf hs hr
  refine .get ?_
  dsimp only [Session.abridged]
  rw [hscope]
  cases hd : s.distances[node]? with
  | none =>
    simp only [Option.bind_none]
    rw [show (s.frames.abridged chosen).read s.context.globals name =
      s.frames.read s.context.globals name from hs.read_abridged hglobals name]
    exact .ofExcept _
  | some d =>
    obtain ⟨-, scope, frame, -, hframe, -, hbound⟩ := hstands.found hr hd
    obtain ⟨v, hv⟩ := Option.isSome_iff_exists.1 (hbound hreads)
    have hv' : (s.frames.abridged chosen).getLocal? frame name.lexeme = some v :=
      Frames.getLocal?_abridged.trans hv
    simp only [Option.bind_some, Frames.getAt?, hframe, hv, hv']
    exact .pure trivial

theorem assignee_mirrors (hstands : A.Stands s σ (.expression e)) (hs : s.Planted)
    (hglobals : s.IsGlobal s.context.globals) (hr : e.refers? = some (node, name)) :
    Mirrors chosen halt (assignee node name) (assigneeAround node name) s fun _ _ => True := by
  have hscope : (s.frames.abridged chosen).scopeOf? node name.lexeme
      (s.frames.skip chosen s.context.frame) = _ := hstands.scopeOf hs hr
  refine .get ?_
  dsimp only [Session.abridged]
  rw [hscope]
  cases hd : s.distances[node]? with
  | none =>
    simp only [Option.bind_none]
    rw [show (s.frames.abridged chosen).holder? s.context.globals name.lexeme =
      s.frames.holder? s.context.globals name.lexeme from hs.holder_abridged hglobals name.lexeme]
    cases s.frames.holder? s.context.globals name.lexeme with
    | some frame => exact .pure trivial
    | none => exact .raise _
  | some d =>
    obtain ⟨-, scope, frame, -, hframe, -⟩ := hstands.found hr hd
    simp only [Option.bind_some, hframe]
    exact .pure trivial

end Run

end Treewalk
