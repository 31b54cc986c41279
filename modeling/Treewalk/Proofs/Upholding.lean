import Treewalk.Proofs.Passages
import Treewalk.Proofs.Regimes

/-!
# Runs uphold lawful regimes

A task keeps a lawful regime if the tasks within it do. So the regime holds at every moment of a run
before the first that is to be avoided, and the run leaves it in force if it comes to no such
moment.
-/

namespace Treewalk

namespace Regime

variable {R : Regime} {avoid : Task → Session → Prop} {s s' : Session} {w : Worker}

-- ---------------------------------------------------------------------------
-- The contract
-- ---------------------------------------------------------------------------

def Carries (R : Regime) (flow : Flow) (s : Session) : Prop :=
  ∀ v, flow = .returning v → R.Holds s v

/-- What is to hold of the values that a task is given. -/
def Ready (R : Regime) : Task → Session → Prop
  | .callValue callee _ arguments, s => R.Holds s callee ∧ ∀ v ∈ arguments, R.Holds s v
  | .construct c _ arguments, s => R.object s c.id c ∧ ∀ v ∈ arguments, R.Holds s v
  | .invoke closure _ arguments, s => R.call s closure ∧ ∀ v ∈ arguments, R.Holds s v
  | _, _ => True

/-- What a task gives. What a statement declares is bound in the frame that it stands in. -/
def Answers (R : Regime) : (t : Task) → t.Answer → Session → Prop
  | .evaluate _, v, s => R.Holds s v
  | .callValue _ _ _, v, s => R.Holds s v
  | .construct _ _ _, v, s => R.Holds s v
  | .invoke _ _ _, v, s => R.Holds s v
  | .execute st, flow, s => R.Carries flow s ∧
    ∀ name, st.declared? = some name → (s.frames.getLocal? s.context.frame name.lexeme).isSome
  | .loop _ _, flow, s => R.Carries flow s
  | .interpret _, _, _ => True
  | .importModule _ _, _, _ => True
  | .splice _, _, _ => True

def contract (R : Regime) : Contract where
  pre t s := R.Accepts s ∧ R.Ready t s
  post t s a s' := R.Accepts s' ∧ s.Precedes s' ∧ R.Answers t a s'
  fault _ s h s' := h.Usual s'.sources ∧ R.Accepts s' ∧ s.Precedes s'

theorem pre_ofSession (h : R.contract.pre t s) (hI : I s) :
    (Regime.ofSession I).contract.pre t s := by
  refine ⟨h.1.ofSession hI, ?_⟩
  cases t with
  | callValue callee site arguments => exact ⟨h.2.1.ofSession, fun v hv => (h.2.2 v hv).ofSession⟩
  | construct c site arguments | invoke c site arguments =>
    exact ⟨trivial, fun v hv => (h.2.2 v hv).ofSession⟩
  | _ => trivial

theorem carries_normal : R.Carries .normal s :=
  fun _ h => (nomatch h)

theorem carries_breaking : R.Carries .breaking s :=
  fun _ h => (nomatch h)

theorem carries_returning (hv : R.Holds s v) : R.Carries (.returning v) s := by
  rintro _ ⟨⟩
  exact hv

theorem answers_of_declares_none (h : st.declared? = none) (hflow : R.Carries flow s) :
    R.Answers (.execute st) flow s :=
  ⟨hflow, fun name hname => by rw [h] at hname; cases hname⟩

theorem asks (hw : w.Honours R.contract) (t : Task) (hs : R.Accepts s) (ht : R.Ready t s) :
    R.Keeps (w t) s (R.Answers t) :=
  hw t s ⟨hs, ht⟩

theorem evaluates (hw : w.Honours R.contract) (hs : R.Accepts s) (e : Expr) :
    R.Keeps (w.evaluate e) s fun v s' => R.Holds s' v :=
  asks hw (.evaluate e) hs trivial

theorem executes (hw : w.Honours R.contract) (hs : R.Accepts s) (st : Stmt) :
    R.Keeps (w.execute st) s (R.Answers (.execute st)) :=
  asks hw (.execute st) hs trivial

theorem inSequence_keeps (hw : w.Honours R.contract) (hs : R.Accepts s) (body : List Stmt) :
    R.Keeps (Run.inSequence w.execute body) s R.Carries := by
  induction body generalizing s with
  | nil => exact .pure hs carries_normal
  | cons st rest ih =>
    refine (executes hw hs st).bind fun flow s₁ hs₁ _ hanswer => ?_
    cases flow with
    | normal => exact ih hs₁
    | breaking => exact .pure hs₁ hanswer.1
    | returning v => exact .pure hs₁ hanswer.1

theorem every_keeps (hw : w.Honours R.contract) (hs : R.Accepts s) (body : List Stmt) :
    R.Keeps (Run.every w.execute body) s fun _ _ => True := by
  induction body generalizing s with
  | nil => exact .pure hs trivial
  | cons st rest ih => exact (executes hw hs st).bind fun _ _ hs₁ _ _ => ih hs₁

namespace Lawful

variable (hR : R.Lawful avoid)
include hR

theorem carries_mono (hgrows : s.Extends s') (h : R.Carries flow s) : R.Carries flow s' :=
  fun v hv => hR.holds_mono hgrows (h v hv)

theorem each_keeps (hw : w.Honours R.contract) (hs : R.Accepts s) (es : List Expr) :
    R.Keeps (Run.each w.evaluate es) s fun vs s' => ∀ v ∈ vs, R.Holds s' v := by
  induction es generalizing s with
  | nil => exact .pure hs (by simp)
  | cons e es ih =>
    refine (evaluates hw hs e).bind fun v s₁ hs₁ _ hv => ?_
    refine (ih hs₁).bind fun vs s₂ hs₂ hlater₂ hvs => .pure hs₂ fun u hu => ?_
    rcases List.mem_cons.1 hu with rfl | hmem
    · exact hR.holds_mono hlater₂.grows hv
    · exact hvs u hmem

-- ---------------------------------------------------------------------------
-- Expressions
-- ---------------------------------------------------------------------------

/-- A getter is called as soon as it is read; any other member is a value. -/
theorem get_keeps (hw : w.Honours R.contract) (hs : R.Accepts s)
    (hv : R.Holds s v ∨ ∃ identity c, v = .function identity c ∧ R.call s c) (site : Site) :
    R.Keeps (match v with
      | .function _ closure =>
        if closure.routine.isGetter then w.invoke closure site [] else Pure.pure v
      | _ => Pure.pure v) s fun v s' => R.Holds s' v := by
  split
  · next identity closure =>
    have hcall : R.call s closure := by
      obtain hv | ⟨_, _, heq, hcall⟩ := hv
      · exact hR.called hv
      · cases heq
        exact hcall
    split
    · exact asks hw (.invoke closure site []) hs ⟨hcall, by simp⟩
    · next hgetter => exact .pure hs (hR.returned hcall (by simpa using hgetter))
  · next hother =>
    obtain hv | ⟨identity, closure, rfl, -⟩ := hv
    · exact .pure hs hv
    · exact absurd rfl (hother identity closure)

theorem evaluateWith_keeps (hw : w.Honours R.contract) (hs : R.Accepts s)
    (hclear : ¬ avoid (.evaluate e) s) :
    R.Keeps (Run.evaluateWith w e) s fun v s' => R.Holds s' v := by
  cases e with
  | literal value => exact .pure hs (holds_plain (Value.plain_toValue value))
  | group inner => exact evaluates hw hs inner
  | unary op right =>
    refine (evaluates hw hs right).bind fun v s₁ hs₁ _ _ => ?_
    exact .ofResult hs₁ (fun _ => Operator.unary_error s₁.arrays)
      fun v hv => holds_plain (Operator.unary_plain hv)
  | binary op left right =>
    refine (evaluates hw hs left).bind fun l s₁ hs₁ _ _ => ?_
    refine (evaluates hw hs₁ right).bind fun r s₂ hs₂ _ hr => ?_
    refine Keeps.get (.ofResult hs₂ (fun _ => Operator.binary_error) fun v hv => ?_)
    obtain rfl | hplain := Operator.binary_result hv
    · exact hr
    · exact holds_plain hplain
  | logical op left right =>
    refine (evaluates hw hs left).bind fun l s₁ hs₁ _ hl => ?_
    split
    · exact .pure hs₁ hl
    · exact evaluates hw hs₁ right
  | conditional condition yes no =>
    refine (evaluates hw hs condition).bind fun c s₁ hs₁ _ _ => ?_
    split
    · exact evaluates hw hs₁ yes
    · exact evaluates hw hs₁ no
  | var node name => exact lookUp_keeps hs
  | this node keyword => exact lookUp_keeps hs
  | assign node name value =>
    refine (evaluates hw hs value).bind fun v s₁ hs₁ hlater₁ hv => ?_
    refine (hR.assign_keeps hs₁ hclear hlater₁.later hv).bind fun _ s₂ hs₂ hlater₂ _ => ?_
    exact .pure hs₂ (hR.holds_mono hlater₂.grows hv)
  | call callee paren arguments =>
    refine (evaluates hw hs callee).bind fun c s₁ hs₁ _ hc => ?_
    refine (hR.each_keeps hw hs₁ arguments).bind fun vs s₂ hs₂ hlater₂ hvs => ?_
    exact asks hw (.callValue c paren.site vs) hs₂ ⟨hR.holds_mono hlater₂.grows hc, hvs⟩
  | get object name =>
    refine (evaluates hw hs object).bind fun o s₁ hs₁ _ ho => ?_
    exact (hR.member_keeps hs₁ ho name).bind fun v s₂ hs₂ _ hv => hR.get_keeps hw hs₂ hv name.site
  | set object name value =>
    refine (evaluates hw hs object).bind fun o s₁ hs₁ _ _ => ?_
    split
    · next id _ =>
      refine (evaluates hw hs₁ value).bind fun v s₂ hs₂ _ hv => ?_
      have hfield := (Change.field id name.lexeme v).precedes (s := s₂)
      exact .first rfl hfield (.pure (hR.accepts_field hs₂ hv id _) (hR.holds_mono hfield.grows hv))
    · exact .fail hs₁
  | array elements =>
    refine (hR.each_keeps hw hs elements).bind fun vs s₁ hs₁ _ hvs => ?_
    exact (hR.newArray_keeps hs₁ hvs).bind fun _ s₂ hs₂ _ _ => .pure hs₂ trivial
  | index target bracket position =>
    refine (evaluates hw hs target).bind fun t s₁ hs₁ _ ht => ?_
    refine (evaluates hw hs₁ position).bind fun i s₂ hs₂ hlater₂ _ => ?_
    refine Keeps.get (.ofResult hs₂ (fun _ => Operator.index_error) fun v hv => ?_)
    obtain ⟨id, rfl, hmem⟩ | hplain := Operator.index_result hv
    · exact hs₂.elements id v hmem
    · exact holds_plain hplain

-- ---------------------------------------------------------------------------
-- Calls
-- ---------------------------------------------------------------------------

theorem callValueWith_keeps (hw : w.Honours R.contract) (hs : R.Accepts s)
    (hcallee : R.Holds s callee) (hargs : ∀ v ∈ arguments, R.Holds s v) :
    R.Keeps (Run.callValueWith w callee site arguments) s fun v s' => R.Holds s' v := by
  unfold Run.callValueWith
  split
  · exact .fail hs
  · next arity harity =>
    split
    · exact .fail hs
    · split
      · next closure => exact asks hw (.invoke closure site arguments) hs ⟨hR.called hcallee, hargs⟩
      · refine (hR.time_keeps hs).bind fun _ s₁ hs₁ _ _ => Keeps.get ?_
        exact .ofResult hs₁ (fun _ => Native.call_error) fun v hv =>
          holds_plain (Native.call_plain hv)
      · next c => exact asks hw (.construct c site arguments) hs ⟨hcallee, hargs⟩
      · exact .fail hs

theorem constructWith_keeps (hw : w.Honours R.contract) (hs : R.Accepts s)
    (hc : R.object s c.id c) (hargs : ∀ v ∈ arguments, R.Holds s v) :
    R.Keeps (Run.constructWith w c site arguments) s fun v s' => R.Holds s' v := by
  have hobject := Change.object.precedes (s := s)
  have hs₁ := hR.accepts_object hs
  have hmade : R.Holds { s with fields := s.fields.push .empty } (.object s.fields.size c) :=
    hR.constructed hc
  refine .first rfl hobject ?_
  split
  · next initializer hinit =>
    have hbind := hR.bindReceiver_keeps hs₁ (hR.constructed hc) ⟨"init", .inl hinit⟩ hmade
    refine hbind.bind fun bound s₂ hs₂ hlater₂ hb => ?_
    have hargs : ∀ v ∈ arguments, R.Holds s₂ v := fun v hv =>
      hR.holds_mono (hobject.trans hlater₂).grows (hargs v hv)
    have hinvoke := asks hw (.invoke bound site arguments) hs₂ ⟨hb, hargs⟩
    refine hinvoke.bind fun _ s₃ hs₃ hlater₃ _ => ?_
    exact .pure hs₃ (hR.holds_mono (hlater₂.trans hlater₃).grows hmade)
  · exact .pure hs₁ hmade

/-- The body of a closure stands in a new frame, with the globals that its tag names. -/
theorem invokeWith_keeps {closure : Closure} (hw : w.Honours R.contract) (hs : R.Accepts s)
    (hcall : R.call s closure) (hargs : ∀ v ∈ arguments, R.Holds s v) :
    R.Keeps (Run.invokeWith w closure site arguments) s fun v s' => R.Holds s' v := by
  have hframe := (Change.frame closure.frame (.call closure.routine)).precedes (s := s)
  have hs₁ := hR.accepts_scope hs closure.frame (.call closure.routine)
  have hopener : (s.frames.addScope closure.frame (.call closure.routine)).opener? s.frames.next =
      some (.call closure.routine) := Frames.opener?_add_next ..
  refine .first rfl hframe ?_
  have hargs₁ : ∀ v ∈ arguments, R.Holds _ v := fun v hv => hR.holds_mono hframe.grows (hargs v hv)
  refine (hR.bindParameters_keeps hs₁ hopener nofun hargs₁).bind fun _ s₂ hs₂ hlater₂ _ => ?_
  have hopener₂ : s₂.frames.opener? s.frames.next = some (.call closure.routine) :=
    (hlater₂.grows.frames.opener _ s.frames.next_lt_add).trans hopener
  have hcall₂ : R.call s₂ closure := hR.call_mono (hframe.trans hlater₂).grows hcall
  have hs₃ := hR.accepts_entered hs₂ hopener₂ nofun (.inr ⟨closure, hcall₂, rfl⟩)
  have hbody := inSequence_keeps hw hs₃ closure.routine.body
  refine (Keeps.within (r := .body ..) (Q := R.Carries) hR hs₂ hbody fun _ _ h =>
    hR.carries_mono (Session.Extends.within (.refl _)) h).bind fun flow s₄ hs₄ _ hflow => ?_
  split
  · exact receiver_keeps hs₄
  · split
    · exact .pure hs₄ (hflow _ rfl)
    · exact .pure hs₄ trivial

-- ---------------------------------------------------------------------------
-- Statements
-- ---------------------------------------------------------------------------

theorem executeWith_keeps (hw : w.Honours R.contract) (hs : R.Accepts s)
    (hclear : ¬ avoid (.execute st) s) :
    R.Keeps (Run.executeWith w st) s (R.Answers (.execute st)) := by
  cases st with
  | expression e =>
    refine (evaluates hw hs e).bind fun _ s₁ hs₁ _ _ => ?_
    exact .pure hs₁ (answers_of_declares_none rfl carries_normal)
  | print e =>
    refine (evaluates hw hs e).bind fun v s₁ hs₁ _ _ => ?_
    refine (textOf_keeps hs₁ v).bind fun text s₂ hs₂ _ _ => ?_
    refine (hR.printLine_keeps hs₂ text).bind fun _ s₃ hs₃ _ _ => ?_
    exact .pure hs₃ (answers_of_declares_none rfl carries_normal)
  | var name initial =>
    have finish (v : Value) (s₁ : Session) (hs₁ : R.Accepts s₁) (_ : s.Precedes s₁)
        (hv : R.Holds s₁ v) : R.Keeps (do Run.defineHere name.lexeme v; return .normal) s₁
          (R.Answers (.execute (.var name initial))) := by
      refine (hR.defineHere_keeps hs₁ hv _).bind ?_
      rintro _ _ hs₂ - rfl
      refine .pure hs₂ ⟨carries_normal, ?_⟩
      rintro _ ⟨⟩
      exact Account.bound_define hs₁.here _ v
    cases initial with
    | none => exact .first rfl (.refl s) (finish .unset s hs (.refl s) trivial)
    | some e => exact (evaluates hw hs e).bind finish
  | block body =>
    have hframe := (Change.frame s.context.frame (.block body)).precedes (s := s)
    have hs₁ := hR.accepts_scope hs s.context.frame (.block body)
    have hopener : (s.frames.addScope s.context.frame (.block body)).opener? s.frames.next =
        some (.block body) := Frames.opener?_add_next ..
    refine Keeps.get (.first rfl hframe ?_)
    have hbody := inSequence_keeps hw (hR.accepts_entered hs₁ hopener nofun (.inl rfl)) body
    exact Keeps.within (r := .block _) hR hs₁ hbody fun _ _ hflow => answers_of_declares_none rfl
      (hR.carries_mono (Session.Extends.within (.refl _)) hflow)
  | ifElse condition yes no =>
    refine (evaluates hw hs condition).bind fun v s₁ hs₁ _ _ => ?_
    split
    · exact (executes hw hs₁ yes).weaken fun _ _ _ h => answers_of_declares_none rfl h.1
    · split
      · next no =>
        exact (executes hw hs₁ no).weaken fun _ _ _ h => answers_of_declares_none rfl h.1
      · exact .pure hs₁ (answers_of_declares_none rfl carries_normal)
  | whileLoop condition body =>
    exact (asks hw (.loop condition body) hs trivial).weaken fun _ _ _ hflow =>
      answers_of_declares_none rfl hflow
  | breakLoop keyword => exact .pure hs (answers_of_declares_none rfl carries_breaking)
  | function routine =>
    have hc := hR.closed hs hclear
    refine .first rfl (.refl s) ?_
    refine Keeps.bind (P := fun v s' => R.Holds s' v) ?_ fun v s₁ hs₁ _ hv => ?_
    · refine (hR.newIdentity_keeps hs).bind fun _ s₁ hs₁ hlater _ => .pure hs₁ ?_
      exact hR.function_mono hlater.grows hc
    · refine (hR.defineHere_keeps hs₁ hv _).bind ?_
      rintro _ _ hs₂ - rfl
      refine .pure hs₂ ⟨carries_normal, ?_⟩
      rintro _ ⟨⟩
      exact Account.bound_define hs₁.here _ v
  | classDecl name methods classMethods =>
    refine (hR.declareClass_keeps hs hclear).bind fun _ s₁ hs₁ _ hname =>
      .pure hs₁ ⟨carries_normal, ?_⟩
    rintro _ ⟨⟩
    exact hname
  | returnValue keyword value =>
    cases value with
    | none => exact .pure hs (answers_of_declares_none rfl (carries_returning trivial))
    | some e =>
      refine (evaluates hw hs e).bind fun v s₁ hs₁ _ hv => ?_
      exact .pure hs₁ (answers_of_declares_none rfl (carries_returning hv))
  | importModule keyword path =>
    simp only [Run.executeWith]
    split
    · next path _ =>
      refine (asks hw (.importModule keyword.site path) hs trivial).bind fun _ s₁ hs₁ _ _ => ?_
      exact .pure hs₁ (answers_of_declares_none rfl carries_normal)
    · exact Keeps.bind (P := fun _ _ => True) (.fail hs) fun _ s₁ hs₁ _ _ =>
        .pure hs₁ (answers_of_declares_none rfl carries_normal)
  | exportDecl keyword declaration =>
    refine (executes hw hs declaration).bind fun flow s₁ hs₁ hlater₁ hanswer => ?_
    split
    · next name hname =>
      refine Keeps.get ((hR.recordExport_keeps hs₁ hclear hlater₁.later hname
        (hanswer.2 name hname) _).bind fun _ s₂ hs₂ _ _ => ?_)
      exact .pure hs₂ (answers_of_declares_none rfl carries_normal)
    · exact .fail hs₁

omit hR in
theorem loopWith_keeps (hw : w.Honours R.contract) (hs : R.Accepts s) :
    R.Keeps (Run.loopWith w condition body) s R.Carries := by
  refine (evaluates hw hs condition).bind fun v s₁ hs₁ _ _ => ?_
  split
  · refine (executes hw hs₁ body).bind fun flow s₂ hs₂ _ hanswer => ?_
    cases flow with
    | normal => exact asks hw (.loop condition body) hs₂ trivial
    | breaking => exact .pure hs₂ carries_normal
    | returning value => exact .pure hs₂ hanswer.1
  · exact .pure hs₁ carries_normal

theorem importWith_keeps (hw : w.Honours R.contract) (hs : R.Accepts s)
    (hclear : ¬ avoid (.importModule site path) s) :
    R.Keeps (Run.importWith w site path) s fun _ _ => True := by
  refine Triple.importWith ?_ ⟨trivial, hs, .refl s⟩ (fun source e hsource hp =>
    ⟨⟨source, s.nextId, hsource, hp⟩, hs, .refl s⟩) ?_
  · exact fun _ => asks hw (.splice path) hs trivial
  · intro source p hnot hsource hp
    have hload := Session.Extends.load hnot hp
    have hbody := asks hw (.interpret p.tree) (hR.accepts_load hs hclear hnot hsource hp) trivial
    refine Triple.mono hbody ?_ ?_
    · rintro _ s' ⟨hs', hlater, -⟩
      have hgrows : s.Extends s' := hload.trans hlater.grows
      exact (asks hw (.splice path) (hR.accepts_back hs hgrows.toGrows hs') trivial).after
        ⟨hgrows.within, rfl⟩
    · rintro halt s' ⟨husual, hs', hlater⟩
      have hgrows : s.Extends s' := hload.trans hlater.grows
      exact ⟨husual, hR.accepts_back hs hgrows.toGrows hs', hgrows.within, rfl⟩

-- ---------------------------------------------------------------------------
-- Whole runs
-- ---------------------------------------------------------------------------

theorem step_keeps (hw : w.Honours R.contract) (t : Task) (hs : R.Accepts s) (ht : R.Ready t s)
    (hclear : ¬ avoid t s) : R.Keeps (w.step t) s (R.Answers t) := by
  cases t with
  | evaluate e => exact hR.evaluateWith_keeps hw hs hclear
  | callValue callee site arguments =>
    exact hR.callValueWith_keeps hw hs ht.1 ht.2
  | construct c site arguments => exact hR.constructWith_keeps hw hs ht.1 ht.2
  | invoke closure site arguments => exact hR.invokeWith_keeps hw hs ht.1 ht.2
  | execute st => exact hR.executeWith_keeps hw hs hclear
  | loop condition body => exact loopWith_keeps hw hs
  | interpret body => exact every_keeps hw hs body
  | importModule site path => exact hR.importWith_keeps hw hs hclear
  | splice path => exact hR.splice_keeps hs

theorem inductive_contract : R.contract.Inductive avoid :=
  fun _ hw t _ hpre hclear => hR.step_keeps hw t hpre.1 hpre.2 hclear

omit hR in
theorem fault_exhausted (t : Task) (s : Session) (h : R.contract.pre t s) :
    R.contract.fault t s .exhausted s :=
  ⟨trivial, h.1, .refl s⟩

/-- The regime holds at every moment of a run before the first that is to be avoided. -/
theorem comesTo (hpre : R.contract.pre t s) (h : ComesTo avoid fuel t s t' s') :
    R.contract.pre t' s' := by
  refine Contract.comesTo hR.inductive_contract fault_exhausted
    (.error (.lex 0 .unterminated)) ?_ hpre h
  rintro _ _ _ ⟨husual, -⟩
  exact husual

/-- A run that comes to no moment that is to be avoided keeps the regime, however it ends. -/
theorem run (hpre : R.contract.pre t s)
    (hclear : ∀ t' s', ComesTo avoid fuel t s t' s' → ¬ avoid t' s') :
    R.Keeps (worker fuel t) s (R.Answers t) :=
  Contract.undisturbed hR.inductive_contract fault_exhausted hpre hclear

end Lawful

theorem Keeps.leaves {m : Run α} (h : R.Keeps m s Q) :
    R.Accepts (m.on s).2 ∧ s.Precedes (m.on s).2 := by
  rcases hr : m.on s with ⟨_ | _, s'⟩
  · exact (Triple.halt h hr).2
  · obtain ⟨hs', hlater, -⟩ := Triple.result h hr
    exact ⟨hs', hlater⟩

-- ---------------------------------------------------------------------------
-- Between entries
-- ---------------------------------------------------------------------------

theorem accepts_start (h : R.session (.start sources refusal clock)) :
    R.Accepts (.start sources refusal clock) where
  session := h
  here := Frames.root_lt_initial
  bindings frame := Frames.initial_bindings .empty (fun _ _ ht => ht.insert trivial) frame
  fields _ _ ht := by simp [Session.start] at ht
  elements _ _ hv := by simp [Session.start] at hv

namespace Lawful

variable (hR : R.Lawful avoid)
include hR

theorem accepts_told (hs : R.Accepts s) (output : String) (clock : Clock) :
    R.Accepts { s with output := output, clock := clock } :=
  hR.accepts_aside hs ⟨⟨{ Session.Grows.refl s with }, Nat.le_refl _⟩, rfl⟩ rfl rfl rfl rfl

theorem entered_contract {p : Prepared Line} (hs : R.Accepts s) (hp : Checked s.nextId p) :
    R.contract.pre p.tree.task (s.commit p) := by
  refine ⟨hR.accepts_aside hs ⟨.commit hp, rfl⟩ rfl rfl rfl rfl, ?_⟩
  cases p.tree <;> trivial

/-- An entry that comes to no moment that is to be avoided keeps the regime. -/
theorem accepts_run (hs : R.Accepts s) (entry : Entry) (fuel : Nat)
    (hclear : ∀ p, entry.prepared s.nextId = .ok p → ∀ t' s',
      ComesTo avoid fuel p.tree.task (s.commit p) t' s' → ¬ avoid t' s') :
    R.Accepts ((entry.run fuel).on s).2 := by
  cases hp : entry.prepared s.nextId with
  | error e =>
    rw [entry.on_run_error fuel hp]
    exact hs
  | ok p =>
    rw [entry.on_run_ok fuel hp]
    exact (hR.run (hR.entered_contract hs (entry.checked hp)) (hclear p hp)).leaves.1

end Lawful

/-- A regime without moments to be avoided holds between entries, -/
theorem Lawful.reachable (hR : R.Lawful nowhere)
    (hstart : ∀ sources refusal clock, R.session (.start sources refusal clock))
    (h : Reachable units s) : R.Accepts s := by
  induction h with
  | start => exact accepts_start (hstart _ _ _)
  | run entry fuel _ ih => exact hR.accepts_run ih entry fuel fun _ _ _ _ _ h => h
  | told _ ih => exact hR.accepts_told ih _ _

/-- and at every moment of every entry. -/
theorem Lawful.moment (hR : R.Lawful nowhere)
    (hstart : ∀ sources refusal clock, R.session (.start sources refusal clock))
    (h : Reachable units s) (hp : Entry.prepared entry s.nextId = .ok p)
    (hm : ComesTo nowhere fuel p.tree.task (s.commit p) t' s') : R.contract.pre t' s' :=
  hR.comesTo (hR.entered_contract (hR.reachable hstart h) (entry.checked hp)) hm

end Regime

end Treewalk
