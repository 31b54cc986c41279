import Treewalk.Proofs.Resolution

/-!
# Running code keeps the account

One task at a time: what a task relies on, what it gives, and that it sees to what the tasks within
it rely on. Calls open the scopes of routines, blocks open their own, modules start at a top level;
everything else stays where it is. An import that passes on a function without module tag would
give it the tag of another unit; under `strict` such imports are set aside.
-/

namespace Treewalk

/-- The module's frame binds a function without module tag, which an import would tag. -/
def Session.Stray (s : Session) (path : String) : Prop :=
  ∃ m, s.modules.get? path = some m ∧ ∃ entry ∈ (s.frames.bindings m.frame).entries,
    ∃ id closure, entry.2 = .function id closure ∧ closure.home = none

namespace Account

variable {A : Account} {s s' : Session}

-- ---------------------------------------------------------------------------
-- The contract
-- ---------------------------------------------------------------------------

def Carries (A : Account) (flow : Flow) (s : Session) : Prop :=
  ∀ v, flow = .returning v → A.Holds s v

def Ready (A : Account) : Task → Session → Prop
  | .evaluate e, s => ∃ σ, A.Stands s σ (.expression e)
  | .callValue callee _ arguments, s => A.Holds s callee ∧ ∀ v ∈ arguments, A.Holds s v
  | .construct c _ arguments, s =>
    A.Classed s c ∧ (∀ v ∈ arguments, A.Holds s v) ∧ arguments.length = c.arity
  | .invoke closure _ arguments, s =>
    A.Function s closure ∧ (∀ v ∈ arguments, A.Holds s v) ∧
      arguments.length = closure.routine.arity
  | .execute st, s => ∃ σ, A.Stands s σ (.statement st)
  | .loop condition body, s =>
    ∃ σ, A.Stands s σ (.expression condition) ∧ A.Stands s σ (.statement body)
  | .interpret body, s => ∃ σ, A.Stands s σ (.statements body)
  | .importModule _ _, s => s.context.frame < s.frames.size
  | .splice _, s => s.context.frame < s.frames.size

/-- What a task gives. A declaration that has run is bound in the frame that it stands in. -/
def Answers (A : Account) : (t : Task) → t.Answer → Session → Prop
  | .evaluate _, v, s => A.Holds s v
  | .callValue _ _ _, v, s => A.Holds s v
  | .construct _ _ _, v, s => A.Holds s v
  | .invoke _ _ _, v, s => A.Holds s v
  | .execute st, flow, s => A.Carries flow s ∧
    ∀ name, st.declares = some name → (s.frames.getLocal? s.context.frame name.lexeme).isSome
  | .loop _ _, flow, s => A.Carries flow s
  | .interpret _, _, _ => True
  | .importModule _ _, _, _ => True
  | .splice _, _, _ => True

def contract (A : Account) : Contract where
  pre t s := A.Accepts s ∧ A.Ready t s
  post t s a s' := A.Accepts s' ∧ s.Later s' ∧ A.Answers t a s'
  fault _ s h s' := A.Accepts s' ∧ s.Later s' ∧ ¬ h.Unbound

theorem carries_normal : A.Carries .normal s :=
  fun _ h => (nomatch h)

theorem carries_breaking : A.Carries .breaking s :=
  fun _ h => (nomatch h)

theorem carries_returning (hv : A.Holds s v) : A.Carries (.returning v) s := by
  rintro _ ⟨⟩
  exact hv

theorem Carries.mono (h : A.Carries flow s) (hgrows : s.Grows s') : A.Carries flow s' :=
  fun v hv => (h v hv).mono hgrows

variable {w : Worker}

/-- A worker that honours the contract carries out tasks that are ready. -/
theorem asks (hw : w.Honours A.contract) (t : Task) (hs : A.Accepts s) (ht : A.Ready t s) :
    A.Keeps (w t) s (A.Answers t) :=
  hw t s ⟨hs, ht⟩

theorem evaluates (hw : w.Honours A.contract) (hs : A.Accepts s)
    (h : A.Stands s σ (.expression e)) : A.Keeps (w.evaluate e) s fun v s' => A.Holds s' v :=
  asks hw (.evaluate e) hs ⟨σ, h⟩

theorem executes (hw : w.Honours A.contract) (hs : A.Accepts s)
    (h : A.Stands s σ (.statement st)) : A.Keeps (w.execute st) s (A.Answers (.execute st)) :=
  asks hw (.execute st) hs ⟨σ, h⟩

theorem each_keeps (hw : w.Honours A.contract) {es : List Expr} (hs : A.Accepts s)
    (h : ∀ e ∈ es, A.Stands s σ (.expression e)) :
    A.Keeps (Run.each w.evaluate es) s fun vs s' => ∀ v ∈ vs, A.Holds s' v := by
  induction es generalizing s with
  | nil => exact .pure hs (by simp)
  | cons e es ih =>
    refine (evaluates hw hs (h e List.mem_cons_self)).bind fun v s₁ hs₁ hlater₁ hv => ?_
    have hrest := ih hs₁ fun e he => (h e (List.mem_cons_of_mem _ he)).later hlater₁
    refine hrest.bind fun vs s₂ hs₂ hlater₂ hvs => .pure hs₂ fun v' hv' => ?_
    rcases List.mem_cons.1 hv' with rfl | hmem
    · exact hv.mono hlater₂.grows
    · exact hvs v' hmem

/-- Behind a statement that has run, the rest stands in the stack behind it. -/
theorem Stands.behind (h : A.Stands s σ (.statements (st :: rest))) (hlater : s.Later s')
    (hbound : ∀ name, st.declares = some name →
      (s'.frames.getLocal? s'.context.frame name.lexeme).isSome) :
    A.Stands s' (σ.after st) (.statements rest) :=
  (h.later hlater).part (by simp [Piece.parts]) fun _ hchain => hchain.after st hbound

theorem inSequence_keeps (hw : w.Honours A.contract) {body : List Stmt} (hs : A.Accepts s)
    (h : A.Stands s σ (.statements body)) :
      A.Keeps (Run.inSequence w.execute body) s A.Carries := by
  induction body generalizing s σ with
  | nil => exact .pure hs carries_normal
  | cons st rest ih =>
    refine (executes hw hs (h.same (by simp [Piece.parts]))).bind ?_
    rintro flow s' hs' hlater ⟨hcarries, hbound⟩
    cases flow with
    | normal => exact ih hs' (h.behind hlater hbound)
    | breaking => exact .pure hs' hcarries
    | returning v => exact .pure hs' hcarries

theorem every_keeps (hw : w.Honours A.contract) {body : List Stmt} (hs : A.Accepts s)
    (h : A.Stands s σ (.statements body)) :
    A.Keeps (Run.every w.execute body) s fun _ _ => True := by
  induction body generalizing s σ with
  | nil => exact .pure hs trivial
  | cons st rest ih =>
    refine (executes hw hs (h.same (by simp [Piece.parts]))).bind ?_
    rintro flow s' hs' hlater ⟨-, hbound⟩
    exact ih hs' (h.behind hlater hbound)

-- ---------------------------------------------------------------------------
-- Expressions
-- ---------------------------------------------------------------------------

theorem evaluateWith_keeps (hw : w.Honours A.contract) (hs : A.Accepts s)
    (h : A.Stands s σ (.expression e)) :
    A.Keeps (Run.evaluateWith w e) s fun v s' => A.Holds s' v := by
  cases e with
  | literal value => exact .pure hs (holds_plain (Value.plain_toValue value))
  | group inner => exact evaluates hw hs (h.operand (by simp [Expr.parts]))
  | unary op right =>
    refine (evaluates hw hs (h.operand (by simp [Expr.parts]))).bind fun v s₁ hs₁ _ _ => ?_
    exact .ofResult hs₁ (fun _ he => Operator.unary_error s₁.arrays he)
      fun v hv => holds_plain (Operator.unary_plain hv)
  | binary op left right =>
    refine (evaluates hw hs (h.operand (by simp [Expr.parts]))).bind fun l s₁ hs₁ hlater₁ hl => ?_
    have hright : A.Stands s₁ σ (.expression right) :=
      (h.later hlater₁).operand (by simp [Expr.parts])
    refine (evaluates hw hs₁ hright).bind fun r s₂ hs₂ hlater₂ hr => ?_
    refine .get (.ofResult hs₂ (fun _ he => Operator.binary_error he) fun v hv => ?_)
    obtain rfl | hplain := Operator.binary_result hv
    · exact hr
    · exact holds_plain hplain
  | logical op left right =>
    refine (evaluates hw hs (h.operand (by simp [Expr.parts]))).bind fun l s₁ hs₁ hlater₁ hl => ?_
    split
    · exact .pure hs₁ hl
    · exact evaluates hw hs₁ ((h.later hlater₁).operand (by simp [Expr.parts]))
  | conditional condition yes no =>
    refine (evaluates hw hs (h.operand (by simp [Expr.parts]))).bind fun c s₁ hs₁ hlater₁ _ => ?_
    split
    · exact evaluates hw hs₁ ((h.later hlater₁).operand (by simp [Expr.parts]))
    · exact evaluates hw hs₁ ((h.later hlater₁).operand (by simp [Expr.parts]))
  | var node name => exact lookUp_keeps hs h rfl rfl
  | this node keyword => exact lookUp_keeps hs h rfl rfl
  | assign node name value =>
    refine (evaluates hw hs (h.operand (by simp [Expr.parts]))).bind fun v s₁ hs₁ hlater₁ hv => ?_
    refine (assign_keeps hs₁ (h.later hlater₁) rfl hv).bind fun _ s₂ hs₂ hlater₂ _ => ?_
    exact .pure hs₂ (hv.mono hlater₂.grows)
  | call callee paren arguments =>
    refine (evaluates hw hs (h.operand (by simp [Expr.parts]))).bind fun c s₁ hs₁ hlater₁ hc => ?_
    have hargs : ∀ e ∈ arguments, A.Stands s₁ σ (.expression e) := fun e he =>
      (h.later hlater₁).operand (by simp [Expr.parts, he])
    refine (each_keeps hw hs₁ hargs).bind fun vs s₂ hs₂ hlater₂ hvs => ?_
    exact asks hw (.callValue c paren.site vs) hs₂ ⟨hc.mono hlater₂.grows, hvs⟩
  | get object name =>
    refine (evaluates hw hs (h.operand (by simp [Expr.parts]))).bind fun o s₁ hs₁ hlater₁ ho => ?_
    refine (member_keeps hs₁ ho name).bind fun v s₂ hs₂ hlater₂ hv => ?_
    split
    · next closure =>
      split
      · next hgetter =>
        refine asks hw (.invoke closure name.site []) hs₂ ⟨hv, by simp, ?_⟩
        obtain ⟨routine, frame, initializer, home⟩ := closure
        obtain ⟨_, params, _⟩ := routine
        cases params with
        | none => rfl
        | some params => cases hgetter
      · exact .pure hs₂ hv
    · exact .pure hs₂ hv
  | set object name value =>
    refine (evaluates hw hs (h.operand (by simp [Expr.parts]))).bind fun o s₁ hs₁ hlater₁ ho => ?_
    split
    · next object _ =>
      have hvalue : A.Stands s₁ σ (.expression value) :=
        (h.later hlater₁).operand (by simp [Expr.parts])
      refine (evaluates hw hs₁ hvalue).bind fun v s₂ hs₂ hlater₂ hv => ?_
      have hfield := (Change.field object name.lexeme v).later (s := s₂)
      exact .first rfl hfield (.pure (hs₂.field hv object _) (hv.mono hfield.grows))
    · exact .fail hs₁ (by simp)
  | array elements =>
    have helements : ∀ e ∈ elements, A.Stands s σ (.expression e) := fun e he =>
      h.operand (by simp [Expr.parts, he])
    refine (each_keeps hw hs helements).bind fun vs s₁ hs₁ hlater₁ hvs => ?_
    exact .first rfl (Change.array vs).later (.pure (hs₁.array hvs) trivial)
  | index target bracket position =>
    refine (evaluates hw hs (h.operand (by simp [Expr.parts]))).bind fun t s₁ hs₁ hlater₁ ht => ?_
    have hposition : A.Stands s₁ σ (.expression position) :=
      (h.later hlater₁).operand (by simp [Expr.parts])
    refine (evaluates hw hs₁ hposition).bind fun i s₂ hs₂ hlater₂ _ => ?_
    refine .get (.ofResult hs₂ (fun _ he => Operator.index_error he) fun v hv => ?_)
    obtain ⟨id, rfl, hmem⟩ | hplain := Operator.index_result hv
    · exact hs₂.elements id v hmem
    · exact holds_plain hplain

-- ---------------------------------------------------------------------------
-- Calls
-- ---------------------------------------------------------------------------

theorem callValueWith_keeps (hw : w.Honours A.contract) (hs : A.Accepts s)
    (hcallee : A.Holds s callee) (hargs : ∀ v ∈ arguments, A.Holds s v) :
    A.Keeps (Run.callValueWith w callee site arguments) s fun v s' => A.Holds s' v := by
  unfold Run.callValueWith
  split
  · exact .fail hs (by simp)
  · next arity harity =>
    split
    · exact .fail hs (by simp)
    · next hlength =>
      have hlength : arguments.length = arity := Decidable.not_not.1 hlength
      split
      · next closure =>
        cases harity
        exact asks hw (.invoke closure site arguments) hs ⟨hcallee, hargs, hlength⟩
      · exact .first rfl Change.tick.later (.get (.ofResult hs.tick
          (fun _ he => Native.call_error he) fun v hv => holds_plain (Native.call_plain hv)))
      · next c =>
        cases harity
        exact asks hw (.construct c site arguments) hs ⟨hcallee, hargs, hlength⟩
      · exact .fail hs (by simp)

theorem constructWith_keeps (hw : w.Honours A.contract) (hs : A.Accepts s)
    (hc : A.Classed s c) (hargs : ∀ v ∈ arguments, A.Holds s v)
    (hlength : arguments.length = c.arity) :
    A.Keeps (Run.constructWith w c site arguments) s fun v s' => A.Holds s' v := by
  have hobject := Change.object.later (s := s)
  refine .first rfl hobject ?_
  have hmade : A.Classed { s with fields := s.fields.push .empty } c := hc.mono hobject.grows
  split
  · next initializer hinit =>
    have hinstance : A.Holds { s with fields := s.fields.push .empty } (.object s.fields.size c) :=
      hmade
    refine (bindReceiver_keeps hs.object (hmade.methods.1.get? hinit) hinstance).bind ?_
    rintro bound s₁ hs₁ hlater₁ ⟨hbound, hroutine⟩
    have hlength : arguments.length = bound.routine.arity := by
      rw [hlength, hroutine, Class.arity, hinit]
    have hargs : ∀ v ∈ arguments, A.Holds s₁ v := fun v hv =>
      (hargs v hv).mono (hobject.trans hlater₁).grows
    refine (asks hw (.invoke bound site arguments) hs₁ ⟨hbound, hargs, hlength⟩).bind ?_
    exact fun _ s₂ hs₂ hlater₂ _ => .pure hs₂ (hmade.mono (hlater₁.trans hlater₂).grows)
  · exact .pure hs.object hmade

theorem bindParameters_keeps {frame : FrameId} {params : List Token} {values : List Value}
    (hs : A.Accepts s) (hlt : frame < s.frames.size) (hvalues : ∀ v ∈ values, A.Holds s v)
    (hlength : values.length = params.length) :
    A.Keeps (Run.bindParameters frame params values) s fun _ s' =>
      ∀ p ∈ params, (s'.frames.getLocal? frame p.lexeme).isSome := by
  induction params generalizing s values with
  | nil => exact .pure hs (by simp)
  | cons p params ih =>
    cases values with
    | nil => cases hlength
    | cons v values =>
      refine (define_keeps hs (hvalues v List.mem_cons_self) frame p.lexeme).bind ?_
      rintro _ _ hs₁ hlater₁ rfl
      have hrest := ih hs₁ (by simpa using hlt)
        (fun v hv => (hvalues v (List.mem_cons_of_mem _ hv)).mono hlater₁.grows)
        (by simpa using hlength)
      refine hrest.weaken fun _ s₂ hlater₂ hbound q hq => ?_
      rcases List.mem_cons.1 hq with rfl | hmem
      · exact hlater₂.grows.frames.bound _ _ (bound_define hlt _ v)
      · exact hbound q hmem

theorem receiver_keeps {closure : Closure} (hs : A.Accepts s)
    (hthis : (s.frames.getLocal? closure.frame "this").isSome) :
    A.Keeps (Run.receiver closure site) s fun v s' => A.Holds s' v := by
  refine Keeps.get ?_
  obtain ⟨v, hv⟩ := Option.isSome_iff_exists.1 hthis
  simp only [Frames.getAt?, Frames.ancestor?, hv]
  exact .pure hs (hs.getLocal? hv)

/-- An initializer that can be called has been bound to a receiver. -/
theorem Function.seated {closure : Closure} (h : A.Function s closure)
    (hinit : closure.initializer = true) :
    s.frames.opener? closure.frame = some (.receiver closure.routine) ∧
      (s.frames.getLocal? closure.frame "this").isSome := by
  obtain ⟨unit, top, σ, -, -, hchain, hreceiver, -⟩ := h
  obtain ⟨outer, rfl⟩ : ∃ outer, σ = Stack.receiver outer closure.routine := hreceiver hinit
  cases hchain with
  | opens hopener _ hbound _ => exact ⟨hopener, hbound "this" rfl⟩

theorem Function.stands {closure : Closure} (h : A.Function s closure)
    (hgrows : (s.frames.addScope closure.frame (.call closure.routine)).Grows s'.frames)
    (hlater : s.Later s')
    (hbound : ∀ p ∈ closure.routine.parameters,
      (s'.frames.getLocal? s.frames.next p.lexeme).isSome) (loading : List String) :
    ∃ σ, A.Stands { s' with context := ⟨s.frames.next, closure.home.getD rootFrame, loading⟩ } σ
      (.statements closure.routine.body) := by
  obtain ⟨unit, top, σ, hknows, hinside, hchain, -, hhome⟩ := h
  refine ⟨σ.call closure.routine, unit, top, ?_, ?_, ?_, ?_⟩
  · exact hknows.mono hlater.grows.within
  · exact hinside.part (by simp [Piece.parts])
  · refine hchain.push hgrows fun name hname => ?_
    obtain ⟨before, behind, hsplit, -⟩ := List.lookup_eq_some_iff.1 hname
    dsimp only at hsplit
    have hmem : (name, true) ∈ closure.routine.parameters.map fun p => (p.lexeme, true) := by
      rw [hsplit]
      simp
    obtain ⟨p, hp, heq⟩ := List.mem_map.1 hmem
    cases heq
    exact hbound p hp
  · intro hstrict
    simp only [hhome hstrict, homeOf_getD]

theorem invokeWith_keeps {closure : Closure} (hw : w.Honours A.contract) (hs : A.Accepts s)
    (hclosure : A.Function s closure) (hargs : ∀ v ∈ arguments, A.Holds s v)
    (hlength : arguments.length = closure.routine.arity) :
    A.Keeps (Run.invokeWith w closure site arguments) s fun v s' => A.Holds s' v := by
  have hframe := (Change.frame closure.frame (.call closure.routine)).later (s := s)
  refine .first rfl hframe ?_
  refine (bindParameters_keeps (hs.frame ..) s.frames.next_lt_add
    (fun v hv => (hargs v hv).mono hframe.grows) hlength).bind ?_
  intro _ s₁ hs₁ hlater₁ hbound
  obtain ⟨σ, hstands⟩ := hclosure.stands hlater₁.grows.frames (hframe.trans hlater₁) hbound
    s₁.context.loading
  have hbody := inSequence_keeps hw (hs₁.context _) hstands
  refine (Keeps.within (r := .body ..) hbody fun _ _ h =>
    Carries.mono h (Session.Grows.within (.refl _))).bind ?_
  intro flow s₂ hs₂ hlater₂ hflow
  split
  · next hinit =>
    have hlater := (hframe.trans hlater₁).trans hlater₂
    exact receiver_keeps hs₂ (hlater.grows.frames.bound _ _ (hclosure.seated hinit).2)
  · split
    · exact .pure hs₂ (hflow _ rfl)
    · exact .pure hs₂ trivial

-- ---------------------------------------------------------------------------
-- Declarations
-- ---------------------------------------------------------------------------

theorem defineHere_keeps (name : String) (hs : A.Accepts s)
    (hv : A.Holds { s with frames := s.frames.define s.context.frame name v } v) :
    A.Keeps (Run.defineHere name v) s fun _ s' =>
      s' = { s with frames := s.frames.define s.context.frame name v } :=
  .of_ok (defineHere_on name v s) (hs.bind hv) (Change.bind _ name v).later rfl

/-- A function can be called as soon as its name is bound: it may call itself. -/
theorem Stands.function (h : A.Stands s σ (.statement (.function routine)))
    (hbound : (s.frames.getLocal? s.context.frame routine.name.lexeme).isSome) :
    A.Function s ⟨routine, s.context.frame, false, homeOf s.context.globals⟩ := by
  obtain ⟨unit, top, hknows, hinside, hchain, hglobals⟩ := h
  refine ⟨unit, top, σ.enter routine.name.lexeme true, hknows, ?_, hchain.entered hbound, nofun,
    ?_⟩
  · exact hinside.part (by simp [Piece.parts, Stmt.parts])
  · exact fun hstrict => by rw [hglobals hstrict]

/-- A method can be bound as soon as the name of its class is. -/
theorem Stands.method (h : A.Stands s σ (.statement (.classDecl name methods classMethods)))
    (hbound : (s.frames.getLocal? s.context.frame name.lexeme).isSome)
    (hr : r ∈ methods ++ classMethods) (initializer : Bool) :
    A.Method s ⟨r, s.context.frame, initializer, homeOf s.context.globals⟩ := by
  obtain ⟨unit, top, hknows, hinside, hchain, hglobals⟩ := h
  refine ⟨unit, top, σ.enter name.lexeme true, hknows, ?_, hchain.entered hbound, fun _ => ⟨_, rfl⟩,
    ?_⟩
  · exact hinside.part (List.mem_map.2 ⟨r, hr, rfl⟩)
  · exact fun hstrict => by rw [hglobals hstrict]

theorem functionDecl_keeps (hs : A.Accepts s) (h : A.Stands s σ (.statement (.function routine))) :
    A.Keeps (Run.executeWith w (.function routine)) s
      (A.Answers (.execute (.function routine))) := by
  have hidentity := Change.identity.later (s := s)
  refine .first rfl (.refl s) (.first rfl hidentity ?_)
  have hname := bound_define (h.later hidentity).lt routine.name.lexeme
    (.function s.nextIdentity ⟨routine, s.context.frame, false, homeOf s.context.globals⟩)
  have hdefine := (Change.bind s.context.frame routine.name.lexeme
    (.function s.nextIdentity ⟨routine, s.context.frame, false, homeOf s.context.globals⟩)).later
    (s := { s with nextIdentity := s.nextIdentity + 1 })
  refine (defineHere_keeps _ hs.identity ?_).bind ?_
  · exact (h.later (hidentity.trans hdefine)).function hname
  · rintro _ _ hs' - rfl
    refine .pure hs' ⟨carries_normal, ?_⟩
    rintro _ ⟨⟩
    exact hname

/-- The closures of a class are all of one frame and one unit. -/
theorem closeAll_on (isInitializer : Routine → Bool) (routines : List Routine) (s : Session) :
    (Run.closeAll isInitializer routines).on s = (.ok (routines.map fun r =>
      (r.name.lexeme, ⟨r, s.context.frame, isInitializer r, homeOf s.context.globals⟩)), s) := by
  induction routines with
  | nil => rfl
  | cons r rest ih =>
    have hclose : (Run.close r (isInitializer r)).on s =
      (.ok ⟨r, s.context.frame, isInitializer r, homeOf s.context.globals⟩, s) := rfl
    simp only [Run.closeAll, Run.on_bind, hclose, ih, Run.on_pure, List.map_cons]

theorem classDecl_keeps (hs : A.Accepts s)
    (h : A.Stands s σ (.statement (.classDecl name methods classMethods))) :
    A.Keeps (Run.declareClass name methods classMethods) s fun _ s' =>
      (s'.frames.getLocal? s'.context.frame name.lexeme).isSome := by
  refine (defineHere_keeps (v := .nil) _ hs trivial).bind ?_
  rintro _ s₁ hs₁ hlater₁ hs₁eq
  have hstands : A.Stands s₁ σ (.statement (.classDecl name methods classMethods)) :=
    h.later hlater₁
  have hname : (s₁.frames.getLocal? s₁.context.frame name.lexeme).isSome := by
    rw [hs₁eq]
    exact bound_define h.lt name.lexeme .nil
  refine .first (closeAll_on ..) (.refl _) (.first (closeAll_on ..) (.refl _) ?_)
  have hobject := Change.object.later (s := s₁)
  refine .first rfl hobject ?_
  have closures {rs : List Routine} (hrs : rs ⊆ methods ++ classMethods)
      (isInitializer : Routine → Bool) :
      (Table.ofList (rs.map fun r => (r.name.lexeme, (⟨r, s₁.context.frame, isInitializer r,
        homeOf s₁.context.globals⟩ : Closure)))).All (A.Method s₁) := by
    refine .ofList fun pair hpair => ?_
    obtain ⟨r, hr, rfl⟩ := List.mem_map.1 hpair
    exact hstands.method hname (hrs hr) _
  have hclass : A.Classed s₁ (.made s₁.fields.size name methods classMethods s₁.context.frame
      (homeOf s₁.context.globals)) := by
    refine ⟨⟨closures (List.subset_append_left ..) (·.name.lexeme = "init"),
      closures (List.subset_append_right ..) fun _ => false⟩, ?_⟩
    obtain ⟨unit, top, hknows, hinside, -⟩ := hstands
    exact ⟨unit, top, σ, name, methods, classMethods, _, _, hknows, hinside, rfl⟩
  refine (defineHere_keeps (v := .classObject _) _ hs₁.object
    (hclass.mono (hobject.trans (Change.bind _ _ _).later).grows)).weaken ?_
  rintro _ _ - rfl
  exact bound_define hstands.lt _ _

-- ---------------------------------------------------------------------------
-- Statements
-- ---------------------------------------------------------------------------

theorem printLine_keeps (hs : A.Accepts s) (text : String) :
    A.Keeps (Run.printLine text) s fun _ _ => True := by
  obtain ⟨reason, hrun⟩ | hrun := Run.on_printLine text s
  · refine Triple.of_error hrun ⟨hs, .refl s, ?_⟩
    rintro ⟨_, _, _, heq⟩
    cases heq
  · exact .of_ok hrun (hs.printed text) (Change.printed text).later trivial

theorem recordExport_keeps (hs : A.Accepts s) (hv : A.Holds s v) (name : String) :
    A.Keeps (Run.recordExport name v) s fun _ _ => True := by
  obtain hrun | ⟨path, m, -, hm, hrun⟩ := Run.on_recordExport name v s
  · exact .of_ok hrun hs (.refl s) trivial
  · exact .of_ok hrun (hs.exported hv hm) (Change.exported name v hm).later trivial

theorem answers_of_declares_none (h : st.declares = none) (hflow : A.Carries flow s) :
    A.Answers (.execute st) flow s :=
  ⟨hflow, fun name hname => by rw [h] at hname; cases hname⟩

theorem Stands.block (h : A.Stands s σ (.statement (.block body))) :
    A.Stands
      { s with
        frames := s.frames.addScope s.context.frame (.block body)
        context := { s.context with frame := s.frames.next } }
      (σ.block body) (.statements body) := by
  obtain ⟨unit, top, hknows, hinside, hchain, hglobals⟩ := h
  have hframe := (Change.frame s.context.frame (.block body)).later (s := s)
  refine ⟨unit, top, hknows.mono hframe.grows.within, ?_, ?_, hglobals⟩
  · exact hinside.part (by simp [Piece.parts, Stmt.parts])
  · refine hchain.push (.refl _) fun _ hname => ?_
    cases hname

theorem executeWith_keeps (hw : w.Honours A.contract) (hs : A.Accepts s)
    (h : A.Stands s σ (.statement st)) :
    A.Keeps (Run.executeWith w st) s (A.Answers (.execute st)) := by
  cases st with
  | expression e =>
    have he : A.Stands s σ (.expression e) := h.same (by simp [Piece.parts, Stmt.parts])
    refine (evaluates hw hs he).bind fun _ s₁ hs₁ _ _ => ?_
    exact .pure hs₁ (answers_of_declares_none rfl carries_normal)
  | print e =>
    have he : A.Stands s σ (.expression e) := h.same (by simp [Piece.parts, Stmt.parts])
    refine (evaluates hw hs he).bind fun v s₁ hs₁ _ _ => ?_
    refine (Keeps.textOf hs₁ v).bind ?_
    rintro text _ hs₂ - rfl
    refine (printLine_keeps hs₂ text).bind fun _ s₃ hs₃ _ _ => ?_
    exact .pure hs₃ (answers_of_declares_none rfl carries_normal)
  | var name initial =>
    have finish (v : Value) (s₁ : Session) (hs₁ : A.Accepts s₁) (hlater : s.Later s₁)
        (hv : A.Holds s₁ v) : A.Keeps (do Run.defineHere name.lexeme v; return .normal) s₁
          (A.Answers (.execute (.var name initial))) := by
      refine (defineHere_keeps _ hs₁ (hv.mono (Change.bind ..).later.grows)).bind ?_
      rintro _ _ hs₂ - rfl
      refine .pure hs₂ ⟨carries_normal, ?_⟩
      rintro _ ⟨⟩
      exact bound_define (h.later hlater).lt _ v
    cases initial with
    | none => exact .first rfl (.refl s) (finish .unset s hs (.refl s) trivial)
    | some e =>
      -- Its own name is pending while the initial value is computed.
      have he : A.Stands s (σ.enter name.lexeme false) (.expression e) :=
        h.part (by simp [Piece.parts, Stmt.parts]) fun _ hchain => hchain.pending _
      exact (evaluates hw hs he).bind finish
  | block body =>
    have hframe := (Change.frame s.context.frame (.block body)).later (s := s)
    refine Keeps.get (.first rfl hframe ?_)
    have hbody := inSequence_keeps hw ((hs.frame ..).context _) h.block
    exact Keeps.within (r := .block _) hbody fun _ _ hflow => answers_of_declares_none rfl
      (Carries.mono hflow (Session.Grows.within (.refl _)))
  | ifElse condition yes no =>
    have hcondition : A.Stands s σ (.expression condition) :=
      h.same (by cases no <;> simp [Piece.parts, Stmt.parts])
    refine (evaluates hw hs hcondition).bind fun v s₁ hs₁ hlater₁ _ => ?_
    split
    · have hyes : A.Stands s₁ σ (.statement yes) :=
        (h.later hlater₁).same (by cases no <;> simp [Piece.parts, Stmt.parts])
      exact (executes hw hs₁ hyes).weaken fun _ _ _ hflow => answers_of_declares_none rfl hflow.1
    · split
      · next no =>
        have hno : A.Stands s₁ σ (.statement no) :=
          (h.later hlater₁).same (by simp [Piece.parts, Stmt.parts])
        exact (executes hw hs₁ hno).weaken fun _ _ _ hflow => answers_of_declares_none rfl hflow.1
      · exact .pure hs₁ (answers_of_declares_none rfl carries_normal)
  | whileLoop condition body =>
    have hready : A.Ready (.loop condition body) s :=
      ⟨σ, h.same (by simp [Piece.parts, Stmt.parts]), h.same (by simp [Piece.parts, Stmt.parts])⟩
    exact (asks hw (.loop condition body) hs hready).weaken fun _ _ _ hflow =>
      answers_of_declares_none rfl hflow
  | breakLoop keyword => exact .pure hs (answers_of_declares_none rfl carries_breaking)
  | function routine => exact functionDecl_keeps hs h
  | classDecl name methods classMethods =>
    refine (classDecl_keeps hs h).bind fun _ s₁ hs₁ _ hname => .pure hs₁ ⟨carries_normal, ?_⟩
    rintro _ ⟨⟩
    exact hname
  | returnValue keyword value =>
    cases value with
    | none => exact .pure hs (answers_of_declares_none rfl (carries_returning trivial))
    | some e =>
      have he : A.Stands s σ (.expression e) := h.same (by simp [Piece.parts, Stmt.parts])
      refine (evaluates hw hs he).bind fun v s₁ hs₁ _ hv => ?_
      exact .pure hs₁ (answers_of_declares_none rfl (carries_returning hv))
  | importModule keyword path =>
    simp only [Run.executeWith]
    split
    · next path _ =>
      refine (asks hw (.importModule keyword.site path) hs h.lt).bind fun _ s₁ hs₁ _ _ => ?_
      exact .pure hs₁ (answers_of_declares_none rfl carries_normal)
    · exact Keeps.bind (R := fun _ _ => True) (.fail hs (by simp)) fun _ s₁ hs₁ _ _ =>
        .pure hs₁ (answers_of_declares_none rfl carries_normal)
  | exportDecl keyword declaration =>
    have hdeclaration : A.Stands s σ (.statement declaration) :=
      h.same (by simp [Piece.parts, Stmt.parts])
    refine (executes hw hs hdeclaration).bind fun flow s₁ hs₁ _ hanswer => ?_
    split
    · next name _ =>
      have hv : A.Holds s₁ ((s₁.frames.getLocal? s₁.context.frame name.lexeme).getD .nil) := by
        cases hget : s₁.frames.getLocal? s₁.context.frame name.lexeme with
        | none => trivial
        | some v => exact hs₁.getLocal? hget
      refine Keeps.get ((recordExport_keeps hs₁ hv name.lexeme).bind ?_)
      intro _ s₂ hs₂ hlater₂ _
      refine .pure hs₂ ⟨carries_normal, fun other hother => ?_⟩
      rw [hlater₂.context]
      exact hlater₂.grows.frames.bound _ _ (hanswer.2 other hother)
    · exact .fail hs₁ (by simp)

theorem loopWith_keeps (hw : w.Honours A.contract) (hs : A.Accepts s)
    (hcondition : A.Stands s σ (.expression condition)) (hbody : A.Stands s σ (.statement body)) :
    A.Keeps (Run.loopWith w condition body) s A.Carries := by
  refine (evaluates hw hs hcondition).bind fun v s₁ hs₁ hlater₁ _ => ?_
  split
  · refine (executes hw hs₁ (hbody.later hlater₁)).bind fun flow s₂ hs₂ hlater₂ hflow => ?_
    have hlater := hlater₁.trans hlater₂
    cases flow with
    | normal =>
      exact asks hw (.loop condition body) hs₂ ⟨σ, hcondition.later hlater, hbody.later hlater⟩
    | breaking => exact .pure hs₂ carries_normal
    | returning value => exact .pure hs₂ hflow.1
  · exact .pure hs₁ carries_normal

-- ---------------------------------------------------------------------------
-- Imports
-- ---------------------------------------------------------------------------

/-- The top level of a module starts at the module's own frame. -/
theorem stands_load (hs : A.Accepts s) (hsource : s.sources path = some source)
    (hp : Prepared.program source s.nextId = .ok p) :
    A.Stands (s.load path p) [] (.statements p.tree) :=
  ⟨.statements p.tree, s.frames.next, knows_load hs hsource hp, .whole,
    .ends s.frames.next_lt_add, fun _ => rfl⟩

theorem importWith_keeps (hw : w.Honours A.contract) (hs : A.Accepts s)
    (hlt : s.context.frame < s.frames.size) :
    A.Keeps (Run.importWith w site path) s fun _ _ => True := by
  refine Triple.importWith ?_ ⟨hs, .refl s, ?_⟩ (fun _ e _ _ => ⟨hs, .refl s, ?_⟩) ?_
  · exact fun _ => asks hw (.splice path) hs hlt
  · rintro ⟨_, _, hinternal, heq⟩
    cases heq
    exact hinternal
  · rintro ⟨_, _, _, heq⟩
    cases heq
  · intro source p hnot hsource hp
    have hload := Session.Grows.load hnot hp
    have hbody := asks hw (.interpret p.tree) (hs.load hnot hp) ⟨[], stands_load hs hsource hp⟩
    refine Triple.mono hbody ?_ ?_
    · rintro _ s' ⟨hs', hlater, -⟩
      have hgrows : s.Grows s' := hload.trans hlater.grows
      have hlt' : s.context.frame < s'.frames.size := Nat.lt_of_lt_of_le hlt hgrows.frames.size
      exact (asks hw (.splice path) (hs'.context _) hlt').after ⟨hgrows.within, rfl⟩
    · rintro halt s' ⟨hs', hlater, hhalt⟩
      have hgrows : s.Grows s' := hload.trans hlater.grows
      exact ⟨hs'.context _, ⟨hgrows.within, rfl⟩, hhalt⟩

/-- What is passed on stands where it was declared; only its module tag may be new. -/
theorem adopt_keeps (frame : FrameId) (hs : A.Accepts s) (hv : A.Holds s v)
    (hstray : A.strict → ∀ id closure, v = .function id closure → closure.home ≠ none) :
    A.Keeps (Run.adopt frame v) s fun v' s' => A.Holds s' v' := by
  cases v with
  | function identity closure =>
    simp only [Run.adopt]
    split
    · exact .pure hs hv
    · next hhome =>
      obtain ⟨unit, top, σ, hknows, hinside, hchain, hinit, -⟩ := hv
      refine functionValue_keeps hs
        ⟨unit, top, σ, hknows, hinside, hchain, hinit, fun hstrict => ?_⟩
      exact absurd hhome (hstray hstrict identity closure rfl)
  | _ => exact .pure hs hv

theorem adoptAll_keeps {entries : List (String × Value)} (hs : A.Accepts s)
    (hentries : ∀ entry ∈ entries, A.Holds s entry.2)
    (hstray : A.strict → ∀ entry ∈ entries, ∀ id closure,
      entry.2 = .function id closure → closure.home ≠ none) :
    A.Keeps (Run.adoptAll frame entries) s fun _ _ => True := by
  induction entries generalizing s with
  | nil => exact .pure hs trivial
  | cons entry rest ih =>
    have hfirst := adopt_keeps frame hs (hentries entry List.mem_cons_self)
      fun hstrict => hstray hstrict entry List.mem_cons_self
    refine hfirst.bind fun v s₁ hs₁ hlater₁ hv => ?_
    have hdefine := defineHere_keeps entry.1 hs₁ (hv.mono (Change.bind ..).later.grows)
    refine hdefine.bind fun _ s₂ hs₂ hlater₂ _ => ?_
    refine ih hs₂ (fun other hother => ?_) fun hstrict other hother => ?_
    · exact (hentries other (List.mem_cons_of_mem _ hother)).mono (hlater₁.trans hlater₂).grows
    · exact hstray hstrict other (List.mem_cons_of_mem _ hother)

theorem splice_keeps (hs : A.Accepts s) (hstray : A.strict → ¬ s.Stray path) :
    A.Keeps (Run.splice path) s fun _ _ => True := by
  refine Keeps.get ?_
  split
  · next m hm =>
    refine adoptAll_keeps hs (hs.bindings m.frame)
      fun hstrict entry hentry id closure heq hhome => ?_
    exact hstray hstrict ⟨m, hm, entry, hentry, id, closure, heq, hhome⟩
  · exact .pure hs trivial

-- ---------------------------------------------------------------------------
-- Whole runs
-- ---------------------------------------------------------------------------

theorem step_keeps (hw : w.Honours A.contract) (t : Task) (hs : A.Accepts s) (ht : A.Ready t s)
    (hstray : A.strict → ∀ path, t = .splice path → ¬ s.Stray path) :
    A.Keeps (w.step t) s (A.Answers t) := by
  cases t with
  | evaluate e =>
    obtain ⟨σ, h⟩ := ht
    exact evaluateWith_keeps hw hs h
  | callValue callee site arguments => exact callValueWith_keeps hw hs ht.1 ht.2
  | construct c site arguments => exact constructWith_keeps hw hs ht.1 ht.2.1 ht.2.2
  | invoke closure site arguments => exact invokeWith_keeps hw hs ht.1 ht.2.1 ht.2.2
  | execute st =>
    obtain ⟨σ, h⟩ := ht
    exact executeWith_keeps hw hs h
  | loop condition body =>
    obtain ⟨σ, hcondition, hbody⟩ := ht
    exact loopWith_keeps hw hs hcondition hbody
  | interpret body =>
    obtain ⟨σ, h⟩ := ht
    exact every_keeps hw hs h
  | importModule site path => exact importWith_keeps hw hs ht
  | splice path => exact splice_keeps hs fun hstrict => hstray hstrict path rfl

end Account

end Treewalk
