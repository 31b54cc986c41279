import Treewalk.Proofs.Changes

/-!
# Steps as scripts

A step of the evaluator asks its worker for one task after the other, each in a session that it
has changed a little since the last, and ends when a task stops or there is nothing left to ask.
Written down with the worker left open this is a script. That every step follows a script is shown
once, construct by construct; which tasks a step may ask for, and that the session only grows from
one to the next, can then be read off the script.
-/

namespace Treewalk

-- ---------------------------------------------------------------------------
-- Scripts
-- ---------------------------------------------------------------------------

/-- What a computation asks of its worker. If a task that it asks for stops, so does the
computation, and leaves what `back` makes of the session. -/
inductive Script (α : Type) where
  | ends (result : Except Halt α) (s : Session)
  | asks (t : Task) (s : Session) (back : Session → Session) (next : t.Answer → Session → Script α)

namespace Script

/-- What comes of the script with the given worker. -/
def play (w : Worker) : Script α → Except Halt α × Session
  | ends result s => (result, s)
  | asks t s back next =>
    match (w t).on s with
    | (.ok a, s') => (next a s').play w
    | (.error halt, s') => (.error halt, back s')

/-- The tasks that the worker is asked for, in order, each with the session at that moment. -/
def asked (w : Worker) : Script α → List (Task × Session)
  | ends _ _ => []
  | asks t s _ next =>
    (t, s) ::
      match (w t).on s with
      | (.ok a, s') => (next a s').asked w
      | (.error _, _) => []

def bind : Script α → (α → Session → Script β) → Script β
  | ends (.ok a) s, f => f a s
  | ends (.error halt) s, _ => ends (.error halt) s
  | asks t s back next, f => asks t s back fun a s' => (next a s').bind f

/-- The script, with what a region had of its own put back at its end. -/
def leave (r : Region) (outer : Context) : Script α → Script α
  | ends result s => ends result { s with context := r.leave outer s.context }
  | asks t s back next =>
    asks t s (fun s' => { back s' with context := r.leave outer (back s').context })
      fun a s' => (next a s').leave r outer

theorem play_bind (w : Worker) (σ : Script α) (f : α → Session → Script β) :
    (σ.bind f).play w =
      match σ.play w with
      | (.ok a, s') => (f a s').play w
      | (.error halt, s') => (.error halt, s') := by
  induction σ with
  | ends result s => cases result <;> rfl
  | asks t s back next ih =>
    simp only [bind, play]
    rcases (w t).on s with ⟨_ | a, s'⟩
    · rfl
    · exact ih a s'

theorem play_leave (w : Worker) (r : Region) (outer : Context) (σ : Script α) :
    (σ.leave r outer).play w =
      let (result, after) := σ.play w
      (result, { after with context := r.leave outer after.context }) := by
  induction σ with
  | ends result s => rfl
  | asks t s back next ih =>
    simp only [leave, play]
    rcases (w t).on s with ⟨_ | a, s'⟩
    · rfl
    · exact ih a s'

/-- From `s` on, the script asks only for tasks in `P`, and what it does to the session between
them is in `R`. -/
def Through (P : Task → Prop) (R : Session → Session → Prop) (s : Session) : Script α → Prop
  | ends _ s' => R s s'
  | asks t v back next => P t ∧ R s v ∧ ∀ v', v.Later v' →
    R v' (back v') ∧ ∀ a, (next a v').Through P R v'

namespace Through

variable {P : Task → Prop} {R : Session → Session → Prop}

theorem mono {σ : Script α} (h : σ.Through P R s) (hR : ∀ u v, R u v → R' u v) :
    σ.Through P R' s := by
  induction σ generalizing s with
  | ends result s' => exact hR _ _ h
  | asks t v back next ih =>
    obtain ⟨ht, hv, hrest⟩ := h
    refine ⟨ht, hR _ _ hv, fun v' hlater => ⟨hR _ _ (hrest v' hlater).1, fun a => ?_⟩⟩
    exact ih a v' ((hrest v' hlater).2 a)

theorem start (htrans : ∀ u v x, R u v → R v x → R u x) {σ : Script α} (hs : R s s₁)
    (h : σ.Through P R s₁) : σ.Through P R s := by
  cases σ with
  | ends result s' => exact htrans _ _ _ hs h
  | asks t v back next => exact ⟨h.1, htrans _ _ _ hs h.2.1, h.2.2⟩

theorem bind (htrans : ∀ u v x, R u v → R v x → R u x) {σ : Script α}
    {f : α → Session → Script β} (h : σ.Through P R s) (hf : ∀ a s', (f a s').Through P R s') :
    (σ.bind f).Through P R s := by
  induction σ generalizing s with
  | ends result s' =>
    cases result with
    | ok a => exact (hf a s').start htrans h
    | error halt => exact h
  | asks t v back next ih =>
    obtain ⟨ht, hv, hrest⟩ := h
    refine ⟨ht, hv, fun v' hlater => ⟨(hrest v' hlater).1, fun a => ?_⟩⟩
    exact ih a v' ((hrest v' hlater).2 a)

end Through

end Script

-- ---------------------------------------------------------------------------
-- Following a script
-- ---------------------------------------------------------------------------

/-- A session that grew, but in which no module was started. -/
structure Session.Quiet (s s' : Session) : Prop where
  grows : s.Grows s'
  started : s'.started = s.started
  loading : s'.context.loading = s.context.loading

namespace Session.Quiet

theorem refl (s : Session) : s.Quiet s :=
  ⟨.refl s, rfl, rfl⟩

theorem trans {s s' s'' : Session} (h : s.Quiet s') (h' : s'.Quiet s'') : s.Quiet s'' :=
  ⟨h.grows.trans h'.grows, h'.started.trans h.started, h'.loading.trans h.loading⟩

theorem enter {s : Session} (h : c.loading = s.context.loading) :
    s.Quiet { s with context := c } :=
  ⟨(Session.Grows.refl s).within, rfl, h⟩

theorem lasting (s : Session) : Lasting s.Quiet where
  change h hs := by
    refine hs.trans ⟨h.later.grows, by cases h <;> rfl, ?_⟩
    rw [h.later.context]

end Session.Quiet

/-- A region that loads no module starts none at its end. -/
theorem Script.Through.leave {σ : Script α} (h : σ.Through P Session.Quiet s)
    (hr : ∀ inner, (r.leave outer inner).loading = inner.loading) :
    (σ.leave r outer).Through P Session.Quiet s := by
  induction σ generalizing s with
  | ends result s' => exact h.trans (.enter (hr _))
  | asks t v back next ih =>
    obtain ⟨ht, hv, hrest⟩ := h
    exact ⟨ht, hv, fun v' hlater => ⟨(hrest v' hlater).1.trans (.enter (hr _)),
      fun a => ih a v' ((hrest v' hlater).2 a)⟩⟩

/-- From `s` on, the computation follows a script, whoever its worker is. -/
def Follows (P : Task → Prop) (R : Session → Session → Prop) (m : Worker → Run α) (s : Session) :
    Prop :=
  ∃ σ : Script α, (∀ w, (m w).on s = σ.play w) ∧ σ.Through P R s

/-- The computation follows a script in which no module is started. -/
abbrev Quietly (P : Task → Prop) (m : Worker → Run α) (s : Session) : Prop :=
  Follows P Session.Quiet m s

theorem Follows.mono {m : Worker → Run α} (h : Follows P R m s) (hR : ∀ u v, R u v → R' u v) :
    Follows P R' m s := by
  obtain ⟨σ, hplay, hthrough⟩ := h
  exact ⟨σ, hplay, hthrough.mono hR⟩

namespace Quietly

variable {P : Task → Prop}

/-- A computation that leaves its worker alone. -/
theorem const {m : Run α} (h : Steady s.Quiet m) : Quietly P (fun _ => m) s := by
  refine ⟨.ends (m.on s).1 (m.on s).2, fun _ => rfl, ?_⟩
  have hm := h s (.refl s)
  rcases hr : m.on s with ⟨_ | _, s'⟩
  · exact (hm.halt hr).2.1
  · exact (hm.result hr).1

theorem pure (a : α) : Quietly P (fun _ => Pure.pure a) s :=
  const (.pure a)

theorem fail : Quietly P (fun _ => (Run.fail site fault : Run α)) s :=
  const (.fail site fault)

/-- A task for the worker. -/
theorem ask (h : P t) : Quietly P (fun w => w t) s := by
  refine ⟨.asks t s id fun a s' => .ends (.ok a) s', fun w => ?_, h, .refl s, fun v' _ => ?_⟩
  · simp only [Script.play]
    rcases (w t).on s with ⟨_ | _, _⟩ <;> rfl
  · exact ⟨.refl v', fun a => .refl v'⟩

theorem bind {m : Worker → Run α} {f : α → Worker → Run β} (hm : Quietly P m s)
    (hf : ∀ a s', Quietly P (f a) s') : Quietly P (fun w => m w >>= fun a => f a w) s := by
  obtain ⟨σ, hplay, hthrough⟩ := hm
  choose next hnext hquiet using hf
  refine ⟨σ.bind next, fun w => ?_, hthrough.bind (fun _ _ _ => .trans) hquiet⟩
  rw [Run.on_bind, hplay, Script.play_bind]
  rcases σ.play w with ⟨_ | a, s'⟩
  · rfl
  · exact hnext a s' w

/-- A first part whose result is known. -/
theorem first {m : Run α} {f : α → Worker → Run β} (hm : m.on s = (.ok a, s₁)) (hs : s.Quiet s₁)
    (hf : Quietly P (f a) s₁) : Quietly P (fun w => m >>= fun a => f a w) s := by
  obtain ⟨σ, hplay, hthrough⟩ := hf
  refine ⟨σ, fun w => ?_, hthrough.start (fun _ _ _ => .trans) hs⟩
  rw [Run.on_bind, hm]
  exact hplay w

theorem get {f : Session → Worker → Run β} (hf : Quietly P (f s) s) :
    Quietly P (fun w => MonadState.get >>= fun s => f s w) s :=
  first (Run.on_get s) (.refl s) hf

theorem ite {c : Prop} [Decidable c] {m m' : Worker → Run α} (hm : Quietly P m s)
    (hm' : Quietly P m' s) : Quietly P (fun w => if c then m w else m' w) s := by
  split
  · exact hm
  · exact hm'

theorem within {m : Worker → Run α} (henter : (r.enter s.context).loading = s.context.loading)
    (hleave : ∀ inner, (r.leave s.context inner).loading = inner.loading)
    (hm : Quietly P m { s with context := r.enter s.context }) :
    Quietly P (fun w => Run.within r (m w)) s := by
  obtain ⟨σ, hplay, hthrough⟩ := hm
  refine ⟨σ.leave r s.context, fun w => ?_, ?_⟩
  · rw [Run.on_within, hplay, Script.play_leave]
  · exact (hthrough.leave hleave).start (fun _ _ _ => .trans) (.enter henter)

theorem each {items : List Expr} (h : ∀ e ∈ items, P (.evaluate e)) :
    Quietly P (fun w => Run.each w.evaluate items) s := by
  induction items generalizing s with
  | nil => exact pure _
  | cons item rest ih =>
    refine bind (ask (h item List.mem_cons_self)) fun _ _ => ?_
    exact bind (ih fun e he => h e (List.mem_cons_of_mem _ he)) fun _ _ => pure _

theorem inSequence {body : List Stmt} (h : ∀ st ∈ body, P (.execute st)) :
    Quietly P (fun w => Run.inSequence w.execute body) s := by
  induction body generalizing s with
  | nil => exact pure _
  | cons st rest ih =>
    refine bind (ask (h st List.mem_cons_self)) fun flow _ => ?_
    cases flow with
    | normal => exact ih fun e he => h e (List.mem_cons_of_mem _ he)
    | breaking => exact pure _
    | returning value => exact pure _

theorem every {body : List Stmt} (h : ∀ st ∈ body, P (.execute st)) :
    Quietly P (fun w => Run.every w.execute body) s := by
  induction body generalizing s with
  | nil => exact pure _
  | cons st rest ih =>
    refine bind (ask (h st List.mem_cons_self)) fun _ _ => ?_
    exact ih fun e he => h e (List.mem_cons_of_mem _ he)

end Quietly

-- ---------------------------------------------------------------------------
-- Tasks within a task
-- ---------------------------------------------------------------------------

/-- The tasks that carrying out a statement may ask for. -/
def Stmt.MayAsk : Stmt → Task → Prop
  | .block body, u => ∃ st ∈ body, u = .execute st
  | .ifElse condition yes no, u =>
    u = .evaluate condition ∨ u = .execute yes ∨ ∃ other, no = some other ∧ u = .execute other
  | .whileLoop condition body, u => u = .loop condition body
  | .exportDecl _ declaration, u => u = .execute declaration
  | .importModule _ _, u => ∃ site path, u = .importModule site path
  | _, u => ∃ e, u = .evaluate e

/-- The tasks that carrying out a task may ask for. -/
def Task.MayAsk : Task → Task → Prop
  | .evaluate _, u => (∃ e, u = .evaluate e) ∨
    (∃ callee site arguments, u = .callValue callee site arguments) ∨
    ∃ closure site, u = .invoke closure site []
  | .callValue callee site arguments, u =>
    (∃ id closure, callee = .function id closure ∧ u = .invoke closure site arguments) ∨
    ∃ c, callee = .classObject c ∧ u = .construct c site arguments
  | .construct _ site arguments, u => ∃ closure, u = .invoke closure site arguments
  | .invoke closure _ _, u => ∃ st ∈ closure.routine.body, u = .execute st
  | .execute st, u => st.MayAsk u
  | .loop condition body, u =>
    u = .evaluate condition ∨ u = .execute body ∨ u = .loop condition body
  | .interpret body, u => ∃ st ∈ body, u = .execute st
  | .importModule _ path, u => u = .splice path ∨
    ∃ source start p, Prepared.program source start = .ok p ∧ u = .interpret p.tree
  | .splice _, _ => False

namespace Quietly

theorem evaluateWith (e : Expr) :
    Quietly (Task.evaluate e).MayAsk (fun w => Run.evaluateWith w e) s := by
  have part (e' : Expr) (s : Session) :
      Quietly (Task.evaluate e).MayAsk (fun w => w (.evaluate e')) s := ask (.inl ⟨e', rfl⟩)
  have parts (es : List Expr) (s : Session) :
      Quietly (Task.evaluate e).MayAsk (fun w => Run.each w.evaluate es) s :=
    each fun e' _ => .inl ⟨e', rfl⟩
  cases e with
  | literal value => exact pure _
  | group inner => exact part _ _
  | unary op right =>
    exact bind (part _ _) fun _ _ => const (.ofResult fun _ he => Operator.unary_error .empty he)
  | binary op left right =>
    exact bind (part _ _) fun _ _ => bind (part _ _) fun _ _ =>
      get (const (.ofResult fun _ he => Operator.binary_error he))
  | logical op left right => exact bind (part _ _) fun _ _ => ite (pure _) (part _ _)
  | conditional condition yes no => exact bind (part _ _) fun _ _ => ite (part _ _) (part _ _)
  | var id name => exact const Lasting.lookUp
  | this id keyword => exact const Lasting.lookUp
  | assign id name value =>
    exact bind (part _ _) fun _ s' => bind (const (Session.Quiet.lasting s').assign) fun _ _ =>
      pure _
  | call callee paren arguments =>
    refine bind (part _ _) fun callee _ => bind (parts _ _) fun arguments _ => ?_
    exact ask (.inr (.inl ⟨callee, paren.site, arguments, rfl⟩))
  | get object name =>
    refine bind (part _ _) fun object s' =>
      bind (const (Session.Quiet.lasting s').member) fun value _ => ?_
    cases value with
    | function identity closure =>
      exact ite (ask (.inr (.inr ⟨closure, name.site, rfl⟩))) (pure _)
    | _ => exact pure _
  | set target name value =>
    refine bind (part _ _) fun object _ => ?_
    have set (id : ObjectId) (s : Session) : Quietly (Task.evaluate (.set target name value)).MayAsk
        (fun w => do
          let value ← w.evaluate value
          Run.setField id name.lexeme value
          return value) s :=
      bind (ask (.inl ⟨value, rfl⟩)) fun _ s' =>
        bind (const (Session.Quiet.lasting s').setField) fun _ _ => pure _
    cases object with
    | object id c => exact set id _
    | classObject c => exact set c.id _
    | _ => exact fail
  | array elements =>
    exact bind (parts _ _) fun _ s' => bind (const (Session.Quiet.lasting s').newArray)
      fun _ _ => pure _
  | index target bracket position =>
    exact bind (part _ _) fun _ _ => bind (part _ _) fun _ _ =>
      get (const (.ofResult fun _ he => Operator.index_error he))

theorem callValueWith (callee : Value) (site : Site) (arguments : List Value) :
    Quietly (Task.callValue callee site arguments).MayAsk
      (fun w => Run.callValueWith w callee site arguments) s := by
  unfold Run.callValueWith
  cases callee.arity? with
  | none => exact fail
  | some arity =>
    refine ite fail ?_
    cases callee with
    | function identity closure => exact ask (.inl ⟨identity, closure, rfl, rfl⟩)
    | classObject c => exact ask (.inr ⟨c, rfl, rfl⟩)
    | native f =>
      exact bind (const (Session.Quiet.lasting s).time) fun _ _ =>
        get (const (.ofResult fun _ he => Native.call_error he))
    | _ => exact fail

theorem constructWith (c : Class) (site : Site) (arguments : List Value) :
    Quietly (Task.construct c site arguments).MayAsk
      (fun w => Run.constructWith w c site arguments) s := by
  refine bind (const (Session.Quiet.lasting s).newObject) fun made s' => ?_
  cases c.methods.get? "init" with
  | none => exact pure _
  | some initializer =>
    refine bind (const (Session.Quiet.lasting s').bindReceiver) fun closure _ => ?_
    exact bind (ask ⟨closure, rfl⟩) fun _ _ => pure _

theorem invokeWith (closure : Closure) (site : Site) (arguments : List Value) :
    Quietly (Task.invoke closure site arguments).MayAsk
      (fun w => Run.invokeWith w closure site arguments) s := by
  refine bind (const (Session.Quiet.lasting s).newFrame) fun frame s₁ =>
    bind (const ((Session.Quiet.lasting s₁).bindParameters _ _)) fun _ s₂ => ?_
  refine bind (within rfl (fun _ => rfl) (inSequence fun st hst => ⟨st, hst, rfl⟩))
    fun flow s₃ => ?_
  refine ite (const Lasting.receiver) ?_
  cases flow with
  | returning value => exact pure _
  | _ => exact pure _

theorem executeWith (st : Stmt) :
    Quietly (Task.execute st).MayAsk (fun w => Run.executeWith w st) s := by
  cases st with
  | expression e => exact bind (ask ⟨e, rfl⟩) fun _ _ => pure _
  | print e =>
    exact bind (ask ⟨e, rfl⟩) fun _ _ => bind (const Lasting.textOf) fun _ s' =>
      bind (const (Session.Quiet.lasting s').printLine) fun _ _ => pure _
  | var name initial =>
    cases initial with
    | none =>
      exact bind (pure _) fun _ s' => bind (const (Session.Quiet.lasting s').defineHere)
        fun _ _ => pure _
    | some e =>
      exact bind (ask ⟨e, rfl⟩) fun _ s' => bind (const (Session.Quiet.lasting s').defineHere)
        fun _ _ => pure _
  | block body =>
    have hframe : s.Quiet { s with frames := s.frames.addScope s.context.frame (.block body) } :=
      (Session.Quiet.lasting s).change (.frame _ _) (.refl s)
    refine get (first rfl hframe ?_)
    exact within rfl (fun _ => rfl) (inSequence fun st hst => ⟨st, hst, rfl⟩)
  | ifElse condition yes no =>
    refine bind (ask (.inl rfl)) fun value _ => ite (ask (.inr (.inl rfl))) ?_
    cases no with
    | none => exact pure _
    | some other => exact ask (.inr (.inr ⟨other, rfl, rfl⟩))
  | whileLoop condition body => exact ask rfl
  | breakLoop keyword => exact pure _
  | function routine =>
    exact bind (const Lasting.close) fun _ s₁ =>
      bind (const (Session.Quiet.lasting s₁).functionValue)
      fun _ s₂ => bind (const (Session.Quiet.lasting s₂).defineHere) fun _ _ => pure _
  | classDecl name methods classMethods =>
    exact bind (const (Session.Quiet.lasting s).declareClass) fun _ _ => pure _
  | returnValue keyword value =>
    cases value with
    | none => exact pure _
    | some e => exact bind (ask ⟨e, rfl⟩) fun _ _ => pure _
  | importModule keyword path =>
    obtain ⟨kind, lexeme, line⟩ := path
    cases kind with
    | text path => exact bind (ask ⟨keyword.site, path, rfl⟩) fun _ _ => pure _
    | _ => exact fail
  | exportDecl keyword declaration =>
    refine bind (ask rfl) fun _ s' => ?_
    cases declaration.declared? with
    | none => exact fail
    | some name =>
      exact get (bind (const (Session.Quiet.lasting s').recordExport) fun _ _ => pure _)

theorem loopWith (condition : Expr) (body : Stmt) :
    Quietly (Task.loop condition body).MayAsk (fun w => Run.loopWith w condition body) s := by
  refine bind (ask (.inl rfl)) fun value _ => ite (bind (ask (.inr (.inl rfl))) fun flow _ => ?_)
    (pure _)
  cases flow with
  | normal => exact ask (.inr (.inr rfl))
  | breaking => exact pure _
  | returning value => exact pure _

end Quietly

-- ---------------------------------------------------------------------------
-- Imports
-- ---------------------------------------------------------------------------

/-- In `s`, an import of `path` finds no module and a source, which it runs as `p`. -/
structure Session.FirstImport (s : Session) (path : String) (p : Prepared (List Stmt)) : Prop where
  unknown : s.modules.contains path = false
  ready : ∃ source, s.sources path = some source ∧ Prepared.program source s.nextId = .ok p

/-- The script of an import that runs the module: its top level, and then what every import ends
with. -/
def Script.firstImport (s : Session) (path : String) (p : Prepared (List Stmt)) : Script Unit :=
  .asks (.interpret p.tree) (s.load path p) (fun s' => { s' with context := s.context }) fun _ s' =>
    .asks (.splice path) { s' with context := s.context } id fun a s'' => .ends (.ok a) s''

namespace Session.FirstImport

variable {s : Session} {path : String} {p : Prepared (List Stmt)}

theorem grows (h : s.FirstImport path p) : s.Grows (s.load path p) := by
  obtain ⟨source, -, hp⟩ := h.ready
  exact .load h.unknown hp

theorem step_on (h : s.FirstImport path p) (w : Worker) :
    (w.step (.importModule site path)).on s = (Script.firstImport s path p).play w := by
  obtain ⟨source, hsource, hp⟩ := h.ready
  rw [Triple.on_eq_iff]
  refine Triple.firstImport h.unknown hsource hp ?_
  simp only [Script.firstImport, Script.play, Triple]
  rcases (w.interpret p.tree).on (s.load path p) with ⟨_ | _, s'⟩
  · rfl
  · dsimp only
    rcases (w.splice path).on { s' with context := s.context } with ⟨_ | _, _⟩ <;> rfl

theorem through (h : s.FirstImport path p) :
    (Script.firstImport s path p).Through (Task.importModule site path).MayAsk Session.Grows s := by
  obtain ⟨source, -, hp⟩ := h.ready
  refine ⟨.inr ⟨source, s.nextId, p, hp, rfl⟩, h.grows, fun v' _ => ?_⟩
  have hback : v'.Grows { v' with context := s.context } := (Session.Grows.refl v').within
  exact ⟨hback, fun _ => ⟨.inl rfl, hback, fun v'' _ => ⟨.refl v'', fun _ => .refl v''⟩⟩⟩

end Session.FirstImport

/-- An import that does not run the module asks for nothing but the passing on of its names. -/
theorem Quietly.importWith {P : Task → Prop} (hsplice : P (.splice path))
    (h : ∀ p, ¬ s.FirstImport path p) :
    Quietly P (fun w => Run.importWith w site path) s := by
  cases hknown : s.modules.contains path with
  | true =>
    refine Quietly.get ?_
    simp only [hknown, if_true]
    exact .ask hsplice
  | false =>
    cases hsource : s.sources path with
    | none =>
      refine Quietly.get ?_
      simp only [hknown, hsource, Bool.false_eq_true, if_false]
      exact .fail
    | some source =>
      cases hp : Prepared.program source s.nextId with
      | error e =>
        refine ⟨.ends (.error (.error (.inModule path e))) s, fun w => ?_, .refl s⟩
        simp only [Run.importWith, Run.on_bind, Run.on_get, hknown, hsource, hp,
          Bool.false_eq_true, if_false]
        rfl
      | ok p => exact absurd ⟨hknown, source, hsource, hp⟩ (h p)

/-- The task is an import that runs the module. -/
def Task.Loads (t : Task) (s : Session) : Prop :=
  ∃ site path p, t = .importModule site path ∧ s.FirstImport path p

/-- A step that does not run a module starts none. -/
theorem step_quietly (t : Task) (s : Session) (h : ¬ t.Loads s) :
    Quietly t.MayAsk (fun w => w.step t) s := by
  cases t with
  | evaluate e => exact .evaluateWith e
  | callValue callee site arguments => exact .callValueWith callee site arguments
  | construct c site arguments => exact .constructWith c site arguments
  | invoke closure site arguments => exact .invokeWith closure site arguments
  | execute st => exact .executeWith st
  | loop condition body => exact .loopWith condition body
  | interpret body => exact .every fun st hst => ⟨st, hst, rfl⟩
  | importModule site path => exact .importWith (.inl rfl) fun p hp => h ⟨site, path, p, rfl, hp⟩
  | splice path => exact .const (Session.Quiet.lasting s).splice

/-- Every step follows a script, in which the session only grows. -/
theorem step_follows (t : Task) (s : Session) :
    Follows t.MayAsk Session.Grows (fun w => w.step t) s := by
  by_cases hloads : t.Loads s
  · obtain ⟨site, path, p, rfl, hfirst⟩ := hloads
    exact ⟨.firstImport s path p, hfirst.step_on, hfirst.through⟩
  · exact (step_quietly t s hloads).mono fun _ _ h => h.grows

end Treewalk
