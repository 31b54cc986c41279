import Treewalk.Proofs.Holdings

/-!
# Resolved names are bound

Wherever code runs, the frames around it follow the stack of scopes that it stands in. This is what
every task may rely on and what it has to see to for the tasks within it; with it, the frame at the
noted distance of a node is the one that was made for the scope of its name, and binds the name if
the node reads it.
-/

namespace Treewalk

/-- The halt of a node whose noted distance leads nowhere, or of an initializer without
receiver. -/
def Halt.Unbound (h : Halt) : Prop :=
  ∃ site fault, fault.Internal ∧ h = .error (.runtime site fault)

namespace Account

variable {A : Account} {s s' : Session}

-- ---------------------------------------------------------------------------
-- Running code
-- ---------------------------------------------------------------------------

/-- The piece stands inside `σ`, and the frames of the context follow `σ` up to the top level of
its unit. -/
def Stands (A : Account) (s : Session) (σ : Stack) (p : Piece) : Prop :=
  ∃ unit top, A.Knows s unit top ∧ Inside unit σ p ∧
    Chain s.frames top s.context.frame σ ∧ (A.strict → s.context.globals = top)

namespace Stands

theorem later (h : A.Stands s σ p) (hlater : s.Later s') : A.Stands s' σ p := by
  obtain ⟨unit, top, hknows, hinside, hchain, hglobals⟩ := h
  refine ⟨unit, top, hknows.mono hlater.grows, hinside, ?_, ?_⟩
  · rw [hlater.context]
    exact hchain.mono hlater.grows.frames
  · rw [hlater.context]
    exact hglobals

/-- A part stands inside its own stack, when the frames follow that. -/
theorem part (h : A.Stands s σ p) (hq : (σ', q) ∈ p.parts σ)
    (hchain : ∀ top, Chain s.frames top s.context.frame σ →
      Chain s.frames top s.context.frame σ') : A.Stands s σ' q := by
  obtain ⟨unit, top, hknows, hinside, hchain', hglobals⟩ := h
  exact ⟨unit, top, hknows, hinside.part hq, hchain top hchain', hglobals⟩

theorem same (h : A.Stands s σ p) (hq : (σ, q) ∈ p.parts σ) : A.Stands s σ q :=
  h.part hq fun _ hchain => hchain

theorem operand (h : A.Stands s σ (.expression e)) (hsub : e' ∈ e.parts) :
    A.Stands s σ (.expression e') :=
  h.same (List.mem_map_of_mem hsub)

theorem lt (h : A.Stands s σ p) : s.context.frame < s.frames.size := by
  obtain ⟨unit, top, -, -, hchain, -⟩ := h
  exact hchain.lt

/-- The noted distance of a node leads to the frame of the scope of its name. -/
theorem found {node : NodeId} (h : A.Stands s σ (.expression e))
    (hr : e.refers? = some (node, name)) (hd : s.distances[node]? = some d) :
    Scope.distance? σ.names name.lexeme = some d ∧
      ∃ scope frame, σ[d]? = some scope ∧ s.frames.ancestor? s.context.frame d = some frame ∧
        s.frames.opener? frame = some scope.opener ∧
        (e.reads? = some name → (s.frames.getLocal? frame name.lexeme).isSome) := by
  obtain ⟨unit, top, hknows, hinside, hchain, -⟩ := h
  obtain ⟨notes, hunit, hnoted⟩ := hknows.noted
  have hown : node ∈ e.ids := by
    refine (Piece.ids_perm σ (.expression e)).mem_iff.2 (List.mem_append_right _ ?_)
    simp [Piece.ownIds, hr]
  have hanalysed := hinside.analysed hunit
  have hdistance : Scope.distance? σ.names name.lexeme = some d :=
    (hanalysed.noted hr d).1 (((hnoted node (hinside.ids_subset hown)).2 d).1 hd)
  obtain ⟨hlt, -⟩ := List.findIdx?_eq_some_iff_getElem.1 hdistance
  rw [Stack.names, List.length_map] at hlt
  have hscope : σ[d]? = some σ[d] := List.getElem?_eq_getElem hlt
  obtain ⟨frame, hframe, hopener, hbound⟩ := hchain.ancestor hscope
  refine ⟨hdistance, σ[d], frame, hscope, hframe, hopener, fun hreads => ?_⟩
  obtain ⟨scope, hscope', hready⟩ := hanalysed.ready hreads hdistance
  rw [hscope] at hscope'
  cases hscope'
  exact hbound _ hready

end Stands

-- ---------------------------------------------------------------------------
-- Computations that keep the account
-- ---------------------------------------------------------------------------

/-- The computation keeps the account, gives what `Q` says, and does not stop at a name that is not
bound. -/
def Keeps (A : Account) (m : Run α) (s : Session) (Q : α → Session → Prop) : Prop :=
  Triple m s (fun a s' => A.Accepts s' ∧ s.Later s' ∧ Q a s')
    (fun h s' => A.Accepts s' ∧ s.Later s' ∧ ¬ h.Unbound)

namespace Keeps

variable {m : Run α} {f : α → Run β}

theorem pure (hs : A.Accepts s) (h : Q a s) : A.Keeps (Pure.pure a : Run α) s Q :=
  Triple.pure ⟨hs, .refl s, h⟩

theorem fail (hs : A.Accepts s) (h : ¬ fault.Internal) :
    A.Keeps (Run.fail site fault : Run α) s Q := by
  refine Triple.fail ⟨hs, .refl s, ?_⟩
  rintro ⟨_, _, hinternal, heq⟩
  cases heq
  exact h hinternal

theorem after (h : A.Keeps m s' Q) (hlater : s.Later s') :
    Triple m s' (fun a s'' => A.Accepts s'' ∧ s.Later s'' ∧ Q a s'')
      (fun h s'' => A.Accepts s'' ∧ s.Later s'' ∧ ¬ h.Unbound) :=
  Triple.mono h (fun _ _ h => ⟨h.1, hlater.trans h.2.1, h.2.2⟩)
    fun _ _ h => ⟨h.1, hlater.trans h.2.1, h.2.2⟩

theorem bind (hm : A.Keeps m s R)
    (hf : ∀ a s', A.Accepts s' → s.Later s' → R a s' → A.Keeps (f a) s' Q) :
    A.Keeps (m >>= f) s Q :=
  Triple.bind hm fun a s' h => (hf a s' h.1 h.2.1 h.2.2).after h.2.1

theorem first (hm : m.on s = (.ok a, s')) (hlater : s.Later s') (hf : A.Keeps (f a) s' Q) :
    A.Keeps (m >>= f) s Q :=
  Triple.step hm (hf.after hlater)

theorem get {f : Session → Run β} (hf : A.Keeps (f s) s Q) : A.Keeps (MonadState.get >>= f) s Q :=
  Triple.step (Run.on_get s) hf

theorem of_ok (hm : m.on s = (.ok a, s')) (hs : A.Accepts s') (hlater : s.Later s') (h : Q a s') :
    A.Keeps m s Q :=
  Triple.of_ok hm ⟨hs, hlater, h⟩

theorem weaken (hm : A.Keeps m s Q) (h : ∀ a s', s.Later s' → Q a s' → Q' a s') :
    A.Keeps m s Q' :=
  Triple.mono hm (fun a s' hq => ⟨hq.1, hq.2.1, h a s' hq.2.1 hq.2.2⟩) fun _ _ h => h

theorem raise (hs : A.Accepts s) (h : e.Ordinary) : A.Keeps (Run.raise e : Run α) s Q := by
  obtain ⟨site, fault, rfl, hfault⟩ := h
  exact .fail hs hfault

theorem ofExcept {r : Except Error α} (hs : A.Accepts s) (herror : ∀ e, r = .error e → e.Ordinary)
    (hok : ∀ a, r = .ok a → Q a s) : A.Keeps (Run.ofExcept r) s Q := by
  cases r with
  | ok a => exact .pure hs (hok a rfl)
  | error e => exact .raise hs (herror e rfl)

theorem ofResult {r : Except Halt α} (hs : A.Accepts s)
    (herror : ∀ halt, r = .error halt → halt.Ordinary as) (hok : ∀ a, r = .ok a → Q a s) :
    A.Keeps (Run.ofResult r) s Q := by
  cases r with
  | ok a => exact .pure hs (hok a rfl)
  | error halt =>
    refine Triple.of_error rfl ⟨hs, .refl s, ?_⟩
    rintro ⟨site, fault, hinternal, rfl⟩
    obtain ⟨_, _, heq, hfault⟩ := herror _ rfl
    cases heq
    exact hfault hinternal

theorem textOf (hs : A.Accepts s) (v : Value) : A.Keeps (Run.textOf v) s fun _ s' => s' = s :=
  get (ofResult hs (fun _ h => Arrays.text_error h) fun _ _ => rfl)

theorem within (hm : A.Keeps m { s with context := r.enter s.context } R)
    (h : ∀ a s', R a s' → Q a { s' with context := s.context }) :
    A.Keeps (Run.within r m) s Q := by
  refine Triple.within_kept (Triple.mono hm ?_ ?_)
  · rintro a s' ⟨hs', hlater, ha⟩
    exact ⟨hlater.context, hs'.context _, ⟨hlater.grows.within, rfl⟩, h a s' ha⟩
  · rintro halt s' ⟨hs', hlater, hhalt⟩
    exact ⟨hlater.context, hs'.context _, ⟨hlater.grows.within, rfl⟩, hhalt⟩

end Keeps

-- ---------------------------------------------------------------------------
-- Variables
-- ---------------------------------------------------------------------------

theorem Accepts.getLocal? (hs : A.Accepts s) (h : s.frames.getLocal? holder name = some v) :
    A.Holds s v :=
  (hs.bindings holder).get? h

theorem Accepts.read (hs : A.Accepts s) (h : s.frames.read globals name = .ok v) : A.Holds s v := by
  unfold Frames.read Frames.get? at h
  split at h
  · next heq =>
    cases h
    split at heq
    · exact hs.getLocal? heq
    · cases heq
  · cases h

theorem lookUp_keeps {node : NodeId} (hs : A.Accepts s) (hstands : A.Stands s σ (.expression e))
    (hr : e.refers? = some (node, name)) (hreads : e.reads? = some name) :
    A.Keeps (Run.lookUp node name) s fun v s' => A.Holds s' v := by
  refine Keeps.get ?_
  cases hd : s.distances[node]? with
  | some d =>
    obtain ⟨-, scope, frame, -, hframe, -, hbound⟩ := hstands.found hr hd
    obtain ⟨v, hv⟩ := Option.isSome_iff_exists.1 (hbound hreads)
    simp only [Frames.getAt?, hframe, hv]
    exact .pure hs (hs.getLocal? hv)
  | none => exact .ofExcept hs (fun e he => Frames.read_error he) fun v hv => hs.read hv

theorem assignee_keeps {node : NodeId} (hs : A.Accepts s)
    (hstands : A.Stands s σ (.expression e)) (hr : e.refers? = some (node, name)) :
    A.Keeps (Run.assignee node name) s fun _ s' => s' = s := by
  refine Keeps.get ?_
  cases hd : s.distances[node]? with
  | some d =>
    obtain ⟨-, scope, frame, -, hframe, -⟩ := hstands.found hr hd
    simp only [hframe]
    exact .pure hs rfl
  | none =>
    dsimp only
    split
    · exact .pure hs rfl
    · exact .raise hs (Frames.undefined_ordinary name)

theorem define_keeps (hs : A.Accepts s) (hv : A.Holds s v) (frame : FrameId) (name : String) :
    A.Keeps (Run.define frame name v) s fun _ s' =>
      s' = { s with frames := s.frames.define frame name v } := by
  have hlater := (Change.bind frame name v).later (s := s)
  exact .of_ok rfl (hs.bind (hv.mono hlater.grows)) hlater rfl

theorem assign_keeps {node : NodeId} (hs : A.Accepts s) (hstands : A.Stands s σ (.expression e))
    (hr : e.refers? = some (node, name)) (hv : A.Holds s v) :
    A.Keeps (Run.assign node name v) s fun _ _ => True := by
  refine (assignee_keeps hs hstands hr).bind ?_
  rintro frame s' hs' - rfl
  exact (define_keeps hs' hv frame _).weaken fun _ _ _ _ => trivial

theorem defineHere_on (name : String) (v : Value) (s : Session) :
    (Run.defineHere name v).on s =
      (.ok (), { s with frames := s.frames.define s.context.frame name v }) := rfl

theorem bound_define {fs : Frames} {frame : FrameId} (h : frame < fs.size) (name : String)
    (v : Value) : ((fs.define frame name v).getLocal? frame name).isSome := by
  simp [Frames.getLocal?_define, h]

-- ---------------------------------------------------------------------------
-- Functions and members
-- ---------------------------------------------------------------------------

theorem functionValue_keeps (hs : A.Accepts s) (hc : A.Function s c) :
    A.Keeps (Run.functionValue c) s fun v s' => A.Holds s' v := by
  have hlater : s.Later { s with nextIdentity := s.nextIdentity + 1 } := Change.identity.later
  refine .first rfl hlater (.pure hs.identity ?_)
  exact Declared.mono hc hlater.grows

/-- A method that is bound to a receiver can be called: the new frame is that of the receiver's
scope, and binds `this`. -/
theorem bindReceiver_keeps (hs : A.Accepts s) (hc : A.Method s c) (hv : A.Holds s receiver) :
    A.Keeps (Run.bindReceiver c receiver) s fun bound s' =>
      A.Function s' bound ∧ bound.routine = c.routine := by
  obtain ⟨unit, top, σ, hknows, hinside, hchain, -, hhome⟩ := hc
  have hframe := (Change.frame c.frame (.receiver c.routine)).later (s := s)
  refine .first rfl hframe ?_
  refine (define_keeps (hs.frame ..) (hv.mono hframe.grows) _ _).bind ?_
  rintro _ s' hs' hlater rfl
  refine .pure hs' ⟨⟨unit, top, σ.receiver c.routine, ?_, hinside, ?_, fun _ => ⟨σ, rfl⟩, hhome⟩,
    rfl⟩
  · exact hknows.mono (hframe.trans hlater).grows
  · refine hchain.push (Frames.Grows.define ..) fun name hname => ?_
    simp only [List.lookup_cons, List.lookup_nil] at hname
    split at hname
    · next heq =>
      rw [eq_of_beq heq]
      exact bound_define s.frames.next_lt_add _ _
    · cases hname

theorem memberOf_keeps (hs : A.Accepts s) (hmethods : methods.All (A.Method s))
    (hv : A.Holds s receiver) (object : ObjectId) (name : Token) :
    A.Keeps (Run.memberOf object methods receiver name) s fun v s' => A.Holds s' v := by
  refine .first (a := s.fields[object]?.bind (·.get? name.lexeme)) rfl (.refl s) ?_
  cases hfield : s.fields[object]?.bind (·.get? name.lexeme) with
  | some value =>
    obtain ⟨table, htable, hget⟩ := Option.bind_eq_some_iff.1 hfield
    exact .pure hs ((hs.fields object table htable).get? hget)
  | none =>
    cases hmethod : methods.get? name.lexeme with
    | none =>
      simp only
      exact .fail hs (by simp)
    | some method =>
      simp only
      refine (bindReceiver_keeps hs (hmethods.get? hmethod) hv).bind ?_
      intro bound s' hs' _ hbound
      exact functionValue_keeps hs' hbound.1

theorem member_keeps (hs : A.Accepts s) (hv : A.Holds s object) (name : Token) :
    A.Keeps (Run.member object name) s fun v s' => A.Holds s' v := by
  unfold Run.member
  split
  · next c => exact memberOf_keeps hs (show A.Classed s c from hv).methods.1 hv _ name
  · next c => exact memberOf_keeps hs (show A.Classed s c from hv).methods.2 hv _ name
  · exact .fail hs (by simp)

end Account

end Treewalk
