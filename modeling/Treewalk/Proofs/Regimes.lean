import Treewalk.Proofs.Running
import Treewalk.Proofs.Splicing

/-!
# Regimes

A regime says what is to hold of a session, together with the context of the code that runs in it,
of the functions that the session holds, be they values or called, and of its objects. It is lawful
if the few kinds of change that a task consists of keep it. Which frame is bound, and from where, is
the point of most laws, so each kind of binding is a condition of its own; the code that asks for it
may be taken to stand at a moment that is not to be avoided.
-/

namespace Treewalk

-- ---------------------------------------------------------------------------
-- Sessions that keep their objects
-- ---------------------------------------------------------------------------

/-- The session has grown, and no object is lost. -/
structure Session.Extends (s s' : Session) : Prop extends s.Grows s' where
  objects : s.fields.size ≤ s'.fields.size

namespace Session.Extends

variable {s s' s'' : Session}

theorem refl (s : Session) : s.Extends s :=
  ⟨.refl s, Nat.le_refl _⟩

theorem trans (h : s.Extends s') (h' : s'.Extends s'') : s.Extends s'' :=
  ⟨h.toGrows.trans h'.toGrows, Nat.le_trans h.objects h'.objects⟩

theorem within (h : { s with context := c }.Extends s') : s.Extends { s' with context := c' } :=
  ⟨h.toGrows.within, h.objects⟩

theorem commit {p : Prepared Line} (h : Checked s.nextId p) : s.Extends (s.commit p) :=
  ⟨.commit h, Nat.le_refl _⟩

theorem load (hnot : s.modules.contains path = false)
    (h : Prepared.program source s.nextId = .ok p) : s.Extends (s.load path p) :=
  ⟨.load hnot h, Nat.le_refl _⟩

end Session.Extends

/-- What a task leaves of the session that it began in, its objects among it. -/
structure Session.Precedes (s s' : Session) : Prop where
  grows : s.Extends s'
  context : s'.context = s.context

namespace Session.Precedes

variable {s s' s'' : Session}

theorem refl (s : Session) : s.Precedes s :=
  ⟨.refl s, rfl⟩

theorem trans (h : s.Precedes s') (h' : s'.Precedes s'') : s.Precedes s'' :=
  ⟨h.grows.trans h'.grows, h'.context.trans h.context⟩

theorem later (h : s.Precedes s') : s.Later s' :=
  ⟨h.grows.toGrows, h.context⟩

end Session.Precedes

theorem Change.precedes (h : Change s s') : s.Precedes s' := by
  refine ⟨⟨h.later.grows, ?_⟩, h.later.context⟩
  cases h with
  | object => simp
  | field id name value => simp
  | _ => exact Nat.le_refl _

-- ---------------------------------------------------------------------------
-- What a regime says
-- ---------------------------------------------------------------------------

structure Regime where
  session : Session → Prop
  /-- Of functions that are values. -/
  function : Session → Closure → Prop
  /-- Of classes and instances, by their identity and their class. The methods of a class are no
  values until they are bound. -/
  object : Session → ObjectId → Class → Prop
  /-- Of the closures that are called. -/
  call : Session → Closure → Prop

namespace Regime

/-- The regime that says nothing about functions. -/
def ofSession (session : Session → Prop) : Regime :=
  ⟨session, fun _ _ => True, fun _ _ _ => True, fun _ _ => True⟩

def Holds (R : Regime) (s : Session) (v : Value) : Prop :=
  v.All (R.function s) (R.object s) fun _ => True

structure Accepts (R : Regime) (s : Session) : Prop where
  session : R.session s
  here : s.context.frame < s.frames.size
  bindings : ∀ frame, (s.frames.bindings frame).All (R.Holds s)
  fields : ∀ (id : ObjectId) (table : Table Value), s.fields[id]? = some table →
    table.All (R.Holds s)
  elements : ∀ id, ∀ v ∈ s.arrays.elements id, R.Holds s v

/-- What each kind of change has to keep. -/
structure Lawful (R : Regime) (avoid : Task → Session → Prop) : Prop where
  function_mono : s.Extends s' → R.function s c → R.function s' c
  object_mono : s.Extends s' → R.object s o c → R.object s' o c
  call_mono : s.Extends s' → R.call s c → R.call s' c
  called : R.function s c → R.call s c
  /-- A method that is not called as soon as it is bound is a value from then on. -/
  returned : R.call s c → c.routine.isGetter = false → R.function s c
  closed : R.Accepts s → ¬ avoid (.execute (.function routine)) s →
    R.function s ⟨routine, s.context.frame, false, homeOf s.context.globals⟩
  classed : R.Accepts s → ¬ avoid (.execute (.classDecl name methods classMethods)) s →
    R.object { s with fields := s.fields.push .empty } s.fields.size
      (.made s.fields.size name methods classMethods s.context.frame (homeOf s.context.globals))
  constructed : R.object s c.id c →
    R.object { s with fields := s.fields.push .empty } s.fields.size c
  bound : R.object s o c → c.Has method → (s.frames.getLocal? frame "this").isSome →
    R.call s { method with frame := frame }
  adopted : R.session s → s.modules.get? path = some m → R.function s c →
    R.function s { c with home := some m.frame }
  /-- Nothing that the regime says of a session is about anything else. -/
  aside : s.Later s' → s'.frames = s.frames → s'.modules = s.modules → R.session s → R.session s'
  scope : R.session s → s.context.frame < s.frames.size →
    R.session { s with frames := s.frames.addScope parent opener }
  /-- The bindings that come with a frame: the receiver, once, and the parameters. -/
  inner : R.session s → s.frames.opener? frame = some opener →
    (∀ method, opener = .receiver method → s.frames.getLocal? frame name = none) →
    R.session { s with frames := s.frames.define frame name value }
  declared : R.session s → s.context.frame < s.frames.size →
    R.session { s with frames := s.frames.define s.context.frame name value }
  assigned : ¬ avoid (.evaluate (.assign node target e)) s → s.Later s' → R.session s' →
    (Run.assignee node target).on s' = (.ok frame, s') →
    R.session { s' with frames := s'.frames.define frame target.lexeme value }
  exported : ¬ avoid (.execute (.exportDecl keyword declaration)) s → s.Later s' → R.session s' →
    declaration.declared? = some target →
    (s'.frames.getLocal? s'.context.frame target.lexeme).isSome →
    s'.context.loading.head? = some path → s'.modules.get? path = some m →
    R.session { s' with
      modules := s'.modules.insert path { m with exports := m.exports.insert target.lexeme value } }
  entered : R.session s → s.frames.opener? frame = some opener →
    (∀ method, opener ≠ .receiver method) →
    (globals = s.context.globals ∨ ∃ c, R.call s c ∧ globals = c.home.getD rootFrame) →
    R.session { s with context := { s.context with frame := frame, globals := globals } }
  loaded : ¬ avoid (.importModule site path) s → R.session s →
    s.modules.contains path = false → s.sources path = some source →
    Prepared.program source s.nextId = .ok p → R.session (s.load path p)
  back : R.session s → s.context.frame < s.frames.size → s.Grows s' → R.session s' →
    R.session { s' with context := s.context }

variable {R : Regime} {avoid : Task → Session → Prop} {s s' : Session}

theorem holds_plain (h : v.Plain) : R.Holds s v :=
  h.all

theorem Holds.ofSession {I : Session → Prop} (h : R.Holds s v) : (Regime.ofSession I).Holds s v :=
  Value.All.mono (fun _ _ => trivial) (fun _ _ _ => trivial) (fun _ h => h) h

/-- Any regime will do to say of a session what says nothing of its values. -/
theorem Accepts.ofSession (h : R.Accepts s) (hI : I s) : (Regime.ofSession I).Accepts s where
  session := hI
  here := h.here
  bindings frame := (h.bindings frame).mono fun _ hv => hv.ofSession
  fields id table ht := (h.fields id table ht).mono fun _ hv => hv.ofSession
  elements id v hv := (h.elements id v hv).ofSession

namespace Lawful

variable (hR : R.Lawful avoid)
include hR

theorem holds_mono (hgrows : s.Extends s') (h : R.Holds s v) : R.Holds s' v :=
  Value.All.mono (fun _ => hR.function_mono hgrows) (fun _ _ => hR.object_mono hgrows)
    (fun _ h => h) h

theorem bindings_mono (hs : R.Accepts s) (hgrows : s.Extends s') (frame : FrameId) :
    (s.frames.bindings frame).All (R.Holds s') :=
  (hs.bindings frame).mono fun _ => hR.holds_mono hgrows

theorem fields_mono (hs : R.Accepts s) (hgrows : s.Extends s') (id : ObjectId)
    (ht : s.fields[id]? = some table) : table.All (R.Holds s') :=
  (hs.fields id table ht).mono fun _ => hR.holds_mono hgrows

theorem elements_mono (hs : R.Accepts s) (hgrows : s.Extends s') (id : ArrayId)
    (hv : v ∈ s.arrays.elements id) : R.Holds s' v :=
  hR.holds_mono hgrows (hs.elements id v hv)

/-- What stores no value leaves the stored ones as they should be. -/
theorem unstored (hs : R.Accepts s) (hgrows : s.Extends s')
    (hbindings : ∀ frame, s'.frames.bindings frame = s.frames.bindings frame)
    (hfields : s'.fields = s.fields) (harrays : s'.arrays = s.arrays) (hsession : R.session s')
    (hhere : s'.context.frame < s'.frames.size) : R.Accepts s' where
  session := hsession
  here := hhere
  bindings frame := by
    rw [hbindings]
    exact hR.bindings_mono hs hgrows frame
  fields id table ht := by
    rw [hfields] at ht
    exact hR.fields_mono hs hgrows id ht
  elements id v hv := hR.elements_mono hs hgrows id (harrays ▸ hv)

theorem accepts_aside (hs : R.Accepts s) (hlater : s.Precedes s') (hframes : s'.frames = s.frames)
    (hmodules : s'.modules = s.modules) (hfields : s'.fields = s.fields)
    (harrays : s'.arrays = s.arrays) : R.Accepts s' := by
  refine hR.unstored hs hlater.grows (fun _ => by rw [hframes]) hfields harrays
    (hR.aside hlater.later hframes hmodules hs.session) ?_
  rw [hlater.context, hframes]
  exact hs.here

theorem accepts_scope (hs : R.Accepts s) (parent : FrameId) (opener : Opener) :
    R.Accepts { s with frames := s.frames.addScope parent opener } := by
  have hlater := (Change.frame parent opener).precedes (s := s)
  exact hR.unstored hs hlater.grows (fun _ => Frames.bindings_add ..) rfl rfl
    (hR.scope hs.session hs.here) (Nat.lt_of_lt_of_le hs.here hlater.grows.frames.size)

theorem accepts_define (hs : R.Accepts s) (hv : R.Holds s v)
    (hsession : R.session { s with frames := s.frames.define frame name v }) :
    R.Accepts { s with frames := s.frames.define frame name v } := by
  have hgrows : s.Extends { s with frames := s.frames.define frame name v } :=
    (Change.bind frame name v).precedes.grows
  refine ⟨hsession, Nat.lt_of_lt_of_le hs.here hgrows.frames.size, fun other => ?_,
    fun _ _ => hR.fields_mono hs hgrows _, fun _ _ => hR.elements_mono hs hgrows _⟩
  rw [Frames.bindings_define]
  split
  · exact (hR.bindings_mono hs hgrows frame).insert (hR.holds_mono hgrows hv)
  · exact hR.bindings_mono hs hgrows other

theorem accepts_object (hs : R.Accepts s) :
    R.Accepts { s with fields := s.fields.push .empty } := by
  have hlater : s.Precedes { s with fields := s.fields.push .empty } := Change.object.precedes
  refine ⟨hR.aside hlater.later rfl rfl hs.session, hs.here,
    hR.bindings_mono (s := s) hs hlater.grows, fun id table ht => ?_,
    fun _ _ => hR.elements_mono (s := s) hs hlater.grows _⟩
  simp only [Array.getElem?_push] at ht
  split at ht
  · cases ht
    exact .empty
  · exact hR.fields_mono hs hlater.grows id ht

theorem accepts_field (hs : R.Accepts s) (hv : R.Holds s v) (object : ObjectId) (name : String) :
    R.Accepts { s with fields := s.fields.modify object (·.insert name v) } := by
  have hlater : s.Precedes { s with fields := s.fields.modify object (·.insert name v) } :=
    (Change.field object name v).precedes
  refine ⟨hR.aside hlater.later rfl rfl hs.session, hs.here,
    hR.bindings_mono (s := s) hs hlater.grows, fun id table ht => ?_,
    fun _ _ => hR.elements_mono (s := s) hs hlater.grows _⟩
  simp only [Array.getElem?_modify] at ht
  split at ht
  · obtain ⟨old, hold, rfl⟩ := Option.map_eq_some_iff.1 ht
    exact (hR.fields_mono hs hlater.grows _ hold).insert (hR.holds_mono hlater.grows hv)
  · exact hR.fields_mono hs hlater.grows id ht

theorem accepts_array {elements : List Value} (hs : R.Accepts s)
    (helements : ∀ v ∈ elements, R.Holds s v) :
    R.Accepts { s with arrays := s.arrays.add elements } := by
  have hlater : s.Precedes { s with arrays := s.arrays.add elements } :=
    (Change.array elements).precedes
  refine ⟨hR.aside hlater.later rfl rfl hs.session, hs.here,
    hR.bindings_mono (s := s) hs hlater.grows, fun _ _ => hR.fields_mono (s := s) hs hlater.grows _,
    fun id v hv => ?_⟩
  rw [Arrays.elements_add] at hv
  split at hv
  · exact hR.holds_mono hlater.grows (helements v hv)
  · exact hR.elements_mono hs hlater.grows id hv

theorem accepts_back (hs : R.Accepts s) (hgrows : s.Grows s') (hs' : R.Accepts s') :
    R.Accepts { s' with context := s.context } :=
  hR.unstored hs' (Session.Extends.within (.refl s')) (fun _ => rfl) rfl rfl
    (hR.back hs.session hs.here hgrows hs'.session) (Nat.lt_of_lt_of_le hs.here hgrows.frames.size)

theorem accepts_entered (hs : R.Accepts s) (hopener : s.frames.opener? frame = some opener)
    (hcode : ∀ method, opener ≠ .receiver method)
    (hglobals : globals = s.context.globals ∨ ∃ c, R.call s c ∧ globals = c.home.getD rootFrame) :
    R.Accepts { s with context := { s.context with frame := frame, globals := globals } } :=
  hR.unstored hs (Session.Extends.within (.refl s)) (fun _ => rfl) rfl rfl
    (hR.entered hs.session hopener hcode hglobals) (Frames.lt_of_opener? hopener)

theorem accepts_load (hs : R.Accepts s) (hclear : ¬ avoid (.importModule site path) s)
    (hnot : s.modules.contains path = false) (hsource : s.sources path = some source)
    (hp : Prepared.program source s.nextId = .ok p) : R.Accepts (s.load path p) :=
  hR.unstored hs (.load hnot hp) (fun _ => Frames.bindings_add ..) rfl rfl
    (hR.loaded hclear hs.session hnot hsource hp) s.frames.next_lt_add

end Lawful

-- ---------------------------------------------------------------------------
-- Computations under a regime
-- ---------------------------------------------------------------------------

/-- The computation keeps the regime, gives what `Q` says, and stops as runs may stop. -/
def Keeps (R : Regime) (m : Run α) (s : Session) (Q : α → Session → Prop) : Prop :=
  Triple m s (fun a s' => R.Accepts s' ∧ s.Precedes s' ∧ Q a s')
    (fun h s' => h.Usual s'.sources ∧ R.Accepts s' ∧ s.Precedes s')

namespace Keeps

variable {m : Run α} {f : α → Run β}

theorem pure (hs : R.Accepts s) (h : Q a s) : R.Keeps (Pure.pure a : Run α) s Q :=
  Triple.pure ⟨hs, .refl s, h⟩

theorem fail (hs : R.Accepts s) : R.Keeps (Run.fail site fault : Run α) s Q :=
  Triple.fail ⟨trivial, hs, .refl s⟩

theorem after (h : R.Keeps m s' Q) (hlater : s.Precedes s') :
    Triple m s' (fun a s'' => R.Accepts s'' ∧ s.Precedes s'' ∧ Q a s'')
      (fun h s'' => h.Usual s''.sources ∧ R.Accepts s'' ∧ s.Precedes s'') :=
  Triple.mono h (fun _ _ h => ⟨h.1, hlater.trans h.2.1, h.2.2⟩)
    fun _ _ h => ⟨h.1, h.2.1, hlater.trans h.2.2⟩

theorem bind (hm : R.Keeps m s P)
    (hf : ∀ a s', R.Accepts s' → s.Precedes s' → P a s' → R.Keeps (f a) s' Q) :
    R.Keeps (m >>= f) s Q :=
  Triple.bind hm fun a s' h => (hf a s' h.1 h.2.1 h.2.2).after h.2.1

theorem first (hm : m.on s = (.ok a, s')) (hlater : s.Precedes s') (hf : R.Keeps (f a) s' Q) :
    R.Keeps (m >>= f) s Q :=
  Triple.step hm (hf.after hlater)

theorem get {f : Session → Run β} (hf : R.Keeps (f s) s Q) : R.Keeps (MonadState.get >>= f) s Q :=
  Triple.step (Run.on_get s) hf

theorem of_ok (hm : m.on s = (.ok a, s')) (hs : R.Accepts s') (hlater : s.Precedes s')
    (h : Q a s') :
    R.Keeps m s Q :=
  Triple.of_ok hm ⟨hs, hlater, h⟩

theorem weaken (hm : R.Keeps m s Q) (h : ∀ a s', s.Precedes s' → Q a s' → Q' a s') :
    R.Keeps m s Q' :=
  Triple.mono hm (fun a s' hq => ⟨hq.1, hq.2.1, h a s' hq.2.1 hq.2.2⟩) fun _ _ h => h

theorem ofResult {r : Except Halt α} (hs : R.Accepts s)
    (herror : ∀ halt, r = .error halt → halt.Ordinary as) (hok : ∀ a, r = .ok a → Q a s) :
    R.Keeps (Run.ofResult r) s Q := by
  cases r with
  | ok a => exact .pure hs (hok a rfl)
  | error halt => exact Triple.of_error rfl ⟨(herror halt rfl).usual, hs, .refl s⟩

theorem ofExcept {r : Except Error α} (hs : R.Accepts s) (herror : ∀ e, r = .error e → e.Ordinary)
    (hok : ∀ a, r = .ok a → Q a s) : R.Keeps (Run.ofExcept r) s Q := by
  cases r with
  | ok a => exact .pure hs (hok a rfl)
  | error e =>
    obtain ⟨site, fault, rfl, -⟩ := herror e rfl
    exact .fail hs

theorem within (hR : R.Lawful avoid) (hs : R.Accepts s)
    (hm : R.Keeps m { s with context := r.enter s.context } P)
    (h : ∀ a s', P a s' → Q a { s' with context := s.context }) :
    R.Keeps (Run.within r m) s Q := by
  refine Triple.within_kept (Triple.mono hm ?_ ?_)
  · rintro a s' ⟨hs', hlater, ha⟩
    exact ⟨hlater.context, hR.accepts_back hs hlater.grows.toGrows.within hs',
      ⟨hlater.grows.within, rfl⟩, h a s' ha⟩
  · rintro halt s' ⟨husual, hs', hlater⟩
    exact ⟨hlater.context, husual, hR.accepts_back hs hlater.grows.toGrows.within hs',
      hlater.grows.within, rfl⟩

end Keeps

-- ---------------------------------------------------------------------------
-- Variables and members
-- ---------------------------------------------------------------------------

theorem Accepts.getLocal? (hs : R.Accepts s) (h : s.frames.getLocal? holder name = some v) :
    R.Holds s v :=
  (hs.bindings holder).get? h

theorem Accepts.read (hs : R.Accepts s) (h : s.frames.read globals name = .ok v) : R.Holds s v := by
  unfold Frames.read Frames.get? at h
  split at h
  · next heq =>
    cases h
    split at heq
    · exact hs.getLocal? heq
    · cases heq
  · cases h

theorem lookUp_keeps {node : NodeId} {name : Token} (hs : R.Accepts s) :
    R.Keeps (Run.lookUp node name) s fun v s' => R.Holds s' v := by
  refine Keeps.get ?_
  split
  · split
    · next v hv =>
      unfold Frames.getAt? at hv
      split at hv
      · exact .pure hs (hs.getLocal? hv)
      · cases hv
    · exact .fail hs
  · exact .ofExcept hs (fun e he => Frames.read_error he) fun v hv => hs.read hv

/-- A frame is found, or else nothing happens. -/
theorem assignee_on (node : NodeId) (name : Token) (s : Session) :
    (∃ frame, (Run.assignee node name).on s = (.ok frame, s)) ∨
      ∃ site fault, (Run.assignee node name).on s = (.error (.error (.runtime site fault)), s) := by
  simp only [Run.assignee, Run.on_bind, Run.on_get]
  split <;> split
  · exact .inl ⟨_, rfl⟩
  · exact .inr ⟨_, _, rfl⟩
  · exact .inl ⟨_, rfl⟩
  · exact .inr ⟨_, _, rfl⟩

theorem receiver_keeps {closure : Closure} (hs : R.Accepts s) :
    R.Keeps (Run.receiver closure site) s fun v s' => R.Holds s' v := by
  refine Keeps.get ?_
  split
  · next v hv => exact .pure hs (hs.getLocal? hv)
  · exact .fail hs

namespace Lawful

variable (hR : R.Lawful avoid)
include hR

theorem assign_keeps {s₀ : Session} {node : NodeId} (hs : R.Accepts s)
    (hclear : ¬ avoid (.evaluate (.assign node name e)) s₀) (hlater : s₀.Later s)
    (hv : R.Holds s v) : R.Keeps (Run.assign node name v) s fun _ _ => True := by
  obtain ⟨frame, hframe⟩ | ⟨site, fault, hfault⟩ := assignee_on node name s
  · refine .first hframe (.refl s)
      (.of_ok rfl ?_ (Change.bind frame name.lexeme v).precedes trivial)
    exact hR.accepts_define hs hv (hR.assigned hclear hlater hs.session hframe)
  · have hassign : (Run.assign node name v).on s = (.error (.error (.runtime site fault)), s) := by
      rw [Run.assign, Run.on_bind, hfault]
    exact Triple.of_error hassign ⟨trivial, hs, .refl s⟩

theorem defineHere_keeps (hs : R.Accepts s) (hv : R.Holds s v) (name : String) :
    R.Keeps (Run.defineHere name v) s fun _ s' =>
      s' = { s with frames := s.frames.define s.context.frame name v } :=
  .of_ok (Account.defineHere_on name v s)
    (hR.accepts_define hs hv (hR.declared hs.session hs.here)) (Change.bind _ name v).precedes rfl

theorem newIdentity_keeps (hs : R.Accepts s) :
    R.Keeps Run.newIdentity s fun _ _ => True :=
  .of_ok rfl (hR.accepts_aside hs Change.identity.precedes rfl rfl rfl rfl)
    Change.identity.precedes trivial

theorem newArray_keeps {elements : List Value} (hs : R.Accepts s)
    (helements : ∀ v ∈ elements, R.Holds s v) :
    R.Keeps (Run.newArray elements) s fun _ _ => True :=
  .of_ok rfl (hR.accepts_array hs helements) (Change.array elements).precedes trivial

theorem time_keeps (hs : R.Accepts s) : R.Keeps Run.time s fun _ _ => True :=
  .of_ok rfl (hR.accepts_aside hs Change.tick.precedes rfl rfl rfl rfl) Change.tick.precedes trivial

omit hR in
theorem textOf_keeps (hs : R.Accepts s) (v : Value) : R.Keeps (Run.textOf v) s fun _ _ => True :=
  Keeps.get (.ofResult hs (fun _ => Arrays.text_error) fun _ _ => trivial)

/-- The receiver is bound in a frame of its own. -/
theorem bindReceiver_keeps (hs : R.Accepts s) (hc : R.object s o c) (hm : c.Has method)
    (hv : R.Holds s receiver) :
    R.Keeps (Run.bindReceiver method receiver) s fun bound s' => R.call s' bound := by
  have hframe := (Change.frame method.frame (.receiver method.routine)).precedes (s := s)
  refine .first rfl hframe ?_
  have hs₁ := hR.accepts_scope hs method.frame (.receiver method.routine)
  have hdefine := (Change.bind s.frames.next "this" receiver).precedes
    (s := { s with frames := s.frames.addScope method.frame (.receiver method.routine) })
  have hopener : (s.frames.addScope method.frame (.receiver method.routine)).opener? s.frames.next =
      some (.receiver method.routine) := Frames.opener?_add_next ..
  refine .first rfl hdefine (.pure ?_ (hR.bound (o := o) ?_ hm ?_))
  · exact hR.accepts_define hs₁ (hR.holds_mono hframe.grows hv)
      (hR.inner hs₁.session hopener fun _ _ => Frames.getLocal?_add_next ..)
  · exact hR.object_mono (hframe.trans hdefine).grows hc
  · exact Account.bound_define s.frames.next_lt_add _ _

/-- What is read of an object is a value, or a method that is called at once. -/
theorem memberOf_keeps (hs : R.Accepts s) (hc : R.object s o c)
    (hmethods : ∀ name method, methods.get? name = some method → c.Has method)
    (hv : R.Holds s receiver) (object : ObjectId) (name : Token) :
    R.Keeps (Run.memberOf object methods receiver name) s fun v s' =>
      R.Holds s' v ∨ ∃ identity c, v = .function identity c ∧ R.call s' c := by
  refine .first (a := s.fields[object]?.bind (·.get? name.lexeme)) rfl (.refl s) ?_
  cases hfield : s.fields[object]?.bind (·.get? name.lexeme) with
  | some value =>
    obtain ⟨table, htable, hget⟩ := Option.bind_eq_some_iff.1 hfield
    exact .pure hs (.inl ((hs.fields object table htable).get? hget))
  | none =>
    cases hmethod : methods.get? name.lexeme with
    | none => exact .fail hs
    | some method =>
      refine (hR.bindReceiver_keeps hs hc (hmethods _ _ hmethod) hv).bind
        fun bound s₁ hs₁ _ hb => ?_
      refine (hR.newIdentity_keeps hs₁).bind fun identity s₂ hs₂ hlater _ => ?_
      exact .pure hs₂ (.inr ⟨identity, bound, rfl, hR.call_mono hlater.grows hb⟩)

theorem member_keeps (hs : R.Accepts s) (hv : R.Holds s v) (name : Token) :
    R.Keeps (Run.member v name) s fun v s' =>
      R.Holds s' v ∨ ∃ identity c, v = .function identity c ∧ R.call s' c := by
  unfold Run.member
  split
  · next id c => exact hR.memberOf_keeps (o := id) hs hv (fun name _ hm => ⟨name, .inl hm⟩) hv _ _
  · next c => exact hR.memberOf_keeps (o := c.id) hs hv (fun name _ hm => ⟨name, .inr hm⟩) hv _ _
  · exact .fail hs

theorem bindParameters_keeps {frame : FrameId} {params : List Token} {values : List Value}
    (hs : R.Accepts s) (hopener : s.frames.opener? frame = some opener)
    (hcode : ∀ method, opener ≠ .receiver method) (hvalues : ∀ v ∈ values, R.Holds s v) :
    R.Keeps (Run.bindParameters frame params values) s fun _ _ => True := by
  induction params generalizing s values with
  | nil => exact .pure hs trivial
  | cons p params ih =>
    cases values with
    | nil => exact .pure hs trivial
    | cons v values =>
      have hlater := (Change.bind frame p.lexeme v).precedes (s := s)
      refine .first rfl hlater (ih ?_ (by rwa [Frames.opener?_define]) fun u hu => ?_)
      · exact hR.accepts_define hs (hvalues v List.mem_cons_self)
          (hR.inner hs.session hopener fun method h => absurd h (hcode method))
      · exact hR.holds_mono hlater.grows (hvalues u (List.mem_cons_of_mem _ hu))

theorem printLine_keeps (hs : R.Accepts s) (text : String) :
    R.Keeps (Run.printLine text) s fun _ _ => True := by
  obtain ⟨reason, hrun⟩ | hrun := Run.on_printLine text s
  · exact Triple.of_error hrun ⟨trivial, hs, .refl s⟩
  · have hlater := (Change.printed text).precedes (s := s)
    exact .of_ok hrun (hR.accepts_aside hs hlater rfl rfl rfl rfl) hlater trivial

theorem recordExport_keeps {s₀ : Session} (hs : R.Accepts s)
    (hclear : ¬ avoid (.execute (.exportDecl keyword declaration)) s₀) (hlater : s₀.Later s)
    (hname : declaration.declared? = some name)
    (hbound : (s.frames.getLocal? s.context.frame name.lexeme).isSome) (v : Value) :
    R.Keeps (Run.recordExport name.lexeme v) s fun _ _ => True := by
  obtain hrun | ⟨path, m, hpath, hm, hrun⟩ := Run.on_recordExport name.lexeme v s
  · exact .of_ok hrun hs (.refl s) trivial
  · have hchange := (Change.exported name.lexeme v hm).precedes
    refine .of_ok hrun (hR.unstored hs hchange.grows (fun _ => rfl) rfl rfl ?_ hs.here) hchange
      trivial
    exact hR.exported hclear hlater hs.session hname hbound hpath hm

theorem declareClass_keeps (hs : R.Accepts s)
    (hclear : ¬ avoid (.execute (.classDecl name methods classMethods)) s) :
    R.Keeps (Run.declareClass name methods classMethods) s fun _ s' =>
      (s'.frames.getLocal? s'.context.frame name.lexeme).isSome := by
  refine (hR.defineHere_keeps hs (v := .nil) trivial _).bind ?_
  rintro _ s₁ hs₁ hlater₁ rfl
  refine .first (Account.closeAll_on ..) (.refl _) (.first (Account.closeAll_on ..) (.refl _) ?_)
  have hobject := Change.object.precedes
    (s := { s with frames := s.frames.define s.context.frame name.lexeme .nil })
  refine .first rfl hobject ?_
  have hclass : R.Holds _ (.classObject (.made s.fields.size name methods classMethods
      s.context.frame (homeOf s.context.globals))) :=
    hR.object_mono (Change.bind s.context.frame name.lexeme .nil).precedes.grows
      (hR.classed hs hclear)
  refine (hR.defineHere_keeps (hR.accepts_object hs₁) hclass _).weaken ?_
  rintro _ _ - rfl
  exact Account.bound_define (by simpa using hs.here) _ _

-- ---------------------------------------------------------------------------
-- Splicing
-- ---------------------------------------------------------------------------

theorem adopt_keeps (hs : R.Accepts s) (hm : s.modules.get? path = some m) (hv : R.Holds s v) :
    R.Keeps (Run.adopt m.frame v) s fun v' s' =>
      R.Holds s' v' ∧ s'.modules = s.modules := by
  cases v with
  | function identity closure =>
    simp only [Run.adopt]
    split
    · exact .pure hs ⟨hv, rfl⟩
    · have hidentity := Change.identity.precedes (s := s)
      refine .first rfl hidentity (.pure (hR.accepts_aside hs hidentity rfl rfl rfl rfl) ⟨?_, rfl⟩)
      exact hR.function_mono hidentity.grows (hR.adopted hs.session hm hv)
  | _ => exact .pure hs ⟨hv, rfl⟩

theorem adoptAll_keeps {entries : List (String × Value)} (hs : R.Accepts s)
    (hm : s.modules.get? path = some m) (hentries : ∀ entry ∈ entries, R.Holds s entry.2) :
    R.Keeps (Run.adoptAll m.frame entries) s fun _ _ => True := by
  induction entries generalizing s with
  | nil => exact .pure hs trivial
  | cons entry rest ih =>
    refine (hR.adopt_keeps hs hm (hentries entry List.mem_cons_self)).bind ?_
    rintro v s₁ hs₁ hlater₁ ⟨hv, hmodules⟩
    refine (hR.defineHere_keeps hs₁ hv entry.1).bind ?_
    rintro _ s₂ hs₂ hlater₂ rfl
    refine ih hs₂ (by rwa [← hmodules] at hm) fun other hother => ?_
    exact hR.holds_mono (hlater₁.trans hlater₂).grows
      (hentries other (List.mem_cons_of_mem _ hother))

theorem splice_keeps (hs : R.Accepts s) : R.Keeps (Run.splice path) s fun _ _ => True := by
  refine Keeps.get ?_
  split
  · next m hm => exact hR.adoptAll_keeps hs hm (hs.bindings m.frame)
  · exact .pure hs trivial

end Lawful

end Regime

end Treewalk
