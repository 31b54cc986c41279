import Treewalk.Proofs.Abridgment

/-!
# Rounds without scopes

Whether rounds have scopes of their own makes no difference to what code does. The worker that runs
them directly gives the same results as the worker that opens a scope for each, and leaves the same
session but for the frames of rounds. One task at a time, with the tasks within it left to workers
that go the same way; then by induction on the allowance.
-/

namespace Treewalk

variable {chosen : Stmt → Bool} {halt : Halt} {s s' : Session}

-- ---------------------------------------------------------------------------
-- Tasks
-- ---------------------------------------------------------------------------

/-- What an import binds goes to the frame in which code stands. -/
def Task.Open (chosen : Stmt → Bool) : Task → Session → Prop
  | .importModule _ _, s | .splice _, s => s.Level chosen
  | _, _ => True

/-- The task relies on no more than where code stands. -/
def Worker.Mirrors (chosen : Stmt → Bool) (halt : Halt) (units : List Line)
    (w w' : Worker) : Prop :=
  ∀ t s, t.Open chosen s → Treewalk.Mirrors chosen halt (w t) (w' t) s fun a s' =>
    s'.Planted ∧ (Account.mk units False).Answers t a s'

section
variable {units : List Line} {w w' : Worker} (hw : w.Mirrors chosen halt units w')
include hw

namespace Run

theorem evaluates_mirrors (e : Expr) :
    Mirrors chosen halt (w.evaluate e) (w'.evaluate e) s fun v s' =>
      s'.Planted ∧ (Account.mk units False).Holds s' v :=
  hw (.evaluate e) s trivial

theorem executes_mirrors (st : Stmt) :
    Mirrors chosen halt (w.execute st) (w'.execute st) s fun _ _ => True :=
  (hw (.execute st) s trivial).weaken fun _ _ _ _ => trivial

theorem each_mirrors (es : List Expr) :
    Mirrors chosen halt (each w.evaluate es) (each w'.evaluate es) s fun _ _ => True := by
  induction es generalizing s with
  | nil => exact .pure trivial
  | cons e rest ih =>
    refine (evaluates_mirrors hw e).bind fun _ _ _ _ => ?_
    exact ih.bind fun _ _ _ _ => .pure trivial

theorem inSequence_mirrors (body : List Stmt) :
    Mirrors chosen halt (inSequence w.execute body) (inSequence w'.execute body) s
      fun _ _ => True := by
  induction body generalizing s with
  | nil => exact .pure trivial
  | cons st rest ih =>
    refine (executes_mirrors hw st).bind fun flow _ _ _ => ?_
    cases flow with
    | normal => exact ih
    | breaking | returning => exact .pure trivial

theorem every_mirrors (body : List Stmt) :
    Mirrors chosen halt (every w.execute body) (every w'.execute body) s fun _ _ => True := by
  induction body generalizing s with
  | nil => exact .pure trivial
  | cons st rest ih => exact (executes_mirrors hw st).bind fun _ _ _ _ => ih

end Run

-- ---------------------------------------------------------------------------
-- Steps
-- ---------------------------------------------------------------------------

namespace Run

theorem evaluate_mirrors (h : Lodged units (.evaluate e) s) :
    Mirrors chosen halt (evaluateWith w e) (w'.direct chosen (.evaluate e)) s fun _ _ => True := by
  obtain ⟨-, σ, hstands⟩ := h.account
  have hplanted := h.planted.1
  cases e with
  | literal value => exact .pure trivial
  | group inner => exact (evaluates_mirrors hw inner).weaken fun _ _ _ _ => trivial
  | unary op right => exact (evaluates_mirrors hw right).bind fun _ _ _ _ => .ofResult _
  | binary op left right =>
    refine (evaluates_mirrors hw left).bind fun _ _ _ _ => ?_
    exact (evaluates_mirrors hw right).bind fun _ _ _ _ => .get (.ofResult _)
  | logical op left right =>
    refine (evaluates_mirrors hw left).bind fun _ _ _ _ => .ite (fun _ => .pure trivial) fun _ => ?_
    exact (evaluates_mirrors hw right).weaken fun _ _ _ _ => trivial
  | conditional condition yes no =>
    refine (evaluates_mirrors hw condition).bind fun _ _ _ _ => .ite (fun _ => ?_) fun _ => ?_
    · exact (evaluates_mirrors hw yes).weaken fun _ _ _ _ => trivial
    · exact (evaluates_mirrors hw no).weaken fun _ _ _ _ => trivial
  | var id name => exact lookUp_mirrors hstands hplanted h.globals rfl rfl
  | this id keyword => exact lookUp_mirrors hstands hplanted h.globals rfl rfl
  | assign id name value =>
    refine (evaluates_mirrors hw value).bind fun v s₁ hlater hv => ?_
    have hglobals : s₁.IsGlobal s₁.context.globals := by
      rw [hlater.context]
      exact h.globals.mono hlater.grows
    rw [assign, bind_assoc]
    refine (assignee_mirrors (hstands.later hlater) hv.1 hglobals rfl).bind fun frame _ _ _ => ?_
    exact (define_mirrors frame _ v).bind fun _ _ _ _ => .pure trivial
  | call callee paren arguments =>
    refine (evaluates_mirrors hw callee).bind fun f _ _ _ => ?_
    refine (each_mirrors hw arguments).bind fun values _ _ _ => ?_
    exact (hw (.callValue f paren.site values) _ trivial).weaken fun _ _ _ _ => trivial
  | get object name =>
    refine (evaluates_mirrors hw object).bind fun v s₁ hlater hv => ?_
    refine (member_mirrors (hlater.here h.here) hv.1 hv.2 name).bind fun value s₂ _ _ => ?_
    cases value with
    | function identity closure =>
      refine .ite (fun _ => ?_) fun _ => .pure trivial
      exact (hw (.invoke closure name.site []) s₂ trivial).weaken fun _ _ _ _ => trivial
    | _ => exact .pure trivial
  | set object name value =>
    refine (evaluates_mirrors hw object).bind fun target _ _ _ => ?_
    cases hid : target.objectId? with
    | some id =>
      refine (evaluates_mirrors hw value).bind fun v _ _ _ => ?_
      exact (setField_mirrors id _ v).bind fun _ _ _ _ => .pure trivial
    | none => exact .fail _ _
  | array elements =>
    refine (each_mirrors hw elements).bind fun _ _ _ _ => ?_
    exact (newArray_mirrors _).bind fun _ _ _ _ => .pure trivial
  | index target bracket position =>
    refine (evaluates_mirrors hw target).bind fun _ _ _ _ => ?_
    exact (evaluates_mirrors hw position).bind fun _ _ _ _ => .get (.ofResult _)

theorem callValue_mirrors (callee : Value) (site : Site) (arguments : List Value) :
    Mirrors chosen halt (callValueWith w callee site arguments)
      (callValueWith w' callee site arguments) s fun _ _ => True := by
  unfold callValueWith
  cases callee.arity? with
  | none => exact .fail _ _
  | some arity =>
    refine .ite (fun _ => .fail _ _) fun _ => ?_
    cases callee with
    | function identity closure =>
      exact (hw (.invoke closure site arguments) s trivial).weaken fun _ _ _ _ => trivial
    | native f => exact time_mirrors.bind fun _ _ _ _ => .get (.ofResult _)
    | classObject c =>
      exact (hw (.construct c site arguments) s trivial).weaken fun _ _ _ _ => trivial
    | _ => exact .fail _ _

theorem construct_mirrors (h : Lodged units (.construct c site arguments) s) :
    Mirrors chosen halt (constructWith w c site arguments) (constructWith w' c site arguments) s
      fun _ _ => True := by
  obtain ⟨-, hclassed, -⟩ := h.account
  refine newObject_mirrors.bind fun object s₁ hlater hframes => ?_
  cases hinit : c.methods.get? "init" with
  | none => exact .pure trivial
  | some init =>
    have hkept : s₁.frames.skip chosen init.frame = init.frame := by
      rw [hframes]
      exact (hclassed.methods.1.get? hinit).unskipped h.planted.1
    refine (bindReceiver_mirrors (hlater.here h.here) hkept _).bind fun bound s₂ _ _ => ?_
    exact (hw (.invoke bound site arguments) s₂ trivial).bind fun _ _ _ _ => .pure trivial

theorem invoke_mirrors {closure : Closure} (h : Lodged units (.invoke closure site arguments) s) :
    Mirrors chosen halt (invokeWith w closure site arguments) (invokeWith w' closure site arguments)
      s fun _ _ => True := by
  obtain ⟨-, hfunction, -⟩ := h.account
  have hkept : s.frames.skip chosen closure.frame = closure.frame :=
    hfunction.unskipped h.planted.1
  refine (newFrame_mirrors h.here rfl hkept).bind fun frame s₁ h₁ hframe => ?_
  refine (bindParameters_mirrors frame _ _).bind fun _ s₂ h₂ _ => ?_
  have hlt : frame < s₂.frames.size := Nat.lt_of_lt_of_le hframe.2 h₂.grows.frames.size
  have hframe₂ : s₂.frames.skip chosen frame = frame := by
    rw [Frames.skip_of_grows h₂.grows.frames hframe.2]
    exact hframe.1
  refine (Mirrors.within (r := .body ..) ((h₁.trans h₂).here h.here) hlt hframe₂
    (inSequence_mirrors hw _)).bind fun flow _ _ _ =>
      .ite (fun _ => receiver_mirrors _ _) fun _ => ?_
  cases flow with
  | returning value => exact .pure trivial
  | normal | breaking => exact .pure trivial

/-- A block that is no round opens its scope for both. -/
theorem block_mirrors (hlt : s.context.frame < s.frames.size)
    (hround : (Opener.block body).isRound chosen = false) :
    Mirrors chosen halt (executeWith w (.block body)) (executeWith w' (.block body)) s
      fun _ _ => True := by
  refine .get ?_
  refine (newFrame_mirrors hlt hround rfl).bind fun frame s₁ hlater hframe => ?_
  exact .within (hlater.here hlt) hframe.2 hframe.1 (inSequence_mirrors hw body)

/-- A round goes on in the scope around it. -/
theorem round_mirrors (hlt : s.context.frame < s.frames.size)
    (hround : (Opener.block body).isRound chosen = true) :
    Mirrors chosen halt (executeWith w (.block body))
      (passFrame >>= fun _ => inSequence w'.execute body) s fun _ _ => True := by
  have hlater := (Change.frame s.context.frame (.block body)).later (s := s)
  have hgrows := hlater.grows.frames
  have hget : (executeWith w (.block body)).on s =
      (newFrame s.context.frame (.block body) >>= fun frame =>
        within (.block frame) (inSequence w.execute body)).on s := rfl
  have hpass : passFrame.on (s.abridged chosen) = (.ok (),
      { s with frames := s.frames.addScope s.context.frame (.block body) }.abridged chosen) := by
    have hnew : (s.frames.addScope s.context.frame (.block body)).abridged chosen =
        (s.frames.abridged chosen).add none none := Frames.abridged_addScope_round hround
    refine congrArg (Prod.mk _) ?_
    simp only [Session.abridged, hnew, Frames.skip_of_grows hgrows hlt]
  refine .congr hget (.first rfl hpass hlater ?_)
  refine .inside (hlater.here hlt) s.frames.next_lt_add ?_ (inSequence_mirrors hw body)
  have hopener : (s.frames.addScope s.context.frame (.block body)).isRound chosen s.frames.next =
      true := by
    rw [Frames.isRound, Frames.addScope, Frames.opener?_add_next]
    exact hround
  have hskip := Frames.skip_of_round hopener (Frames.parent?_add_next hlt)
  simp only [Session.abridged, Region.enter, hskip, Frames.skip_of_grows hgrows hlt]

theorem execute_mirrors (h : Lodged units (.execute st) s) :
    Mirrors chosen halt (executeWith w st) (w'.direct chosen (.execute st)) s fun _ _ => True := by
  obtain ⟨-, σ, hstands⟩ := h.account
  have level (hst : ¬ (Piece.statement st).Still) : s.Level chosen :=
    ⟨hstands.unskipped h.planted.1 hst, h.here⟩
  cases st with
  | expression e => exact (evaluates_mirrors hw e).bind fun _ _ _ _ => .pure trivial
  | print e =>
    refine (evaluates_mirrors hw e).bind fun _ _ _ _ => ?_
    refine (textOf_mirrors _).bind fun _ _ _ _ => ?_
    exact (printLine_mirrors _).bind fun _ _ _ _ => .pure trivial
  | var name initial =>
    have hlevel := level (Piece.not_still rfl)
    have finish (v : Value) {s₁ : Session} (hlater : s.Later s₁) :
        Mirrors chosen halt (do defineHere name.lexeme v; return Flow.normal)
          (do defineHere name.lexeme v; return Flow.normal) s₁ fun _ _ => True :=
      (defineHere_mirrors (hlevel.later hlater) _ v).bind fun _ _ _ _ => .pure trivial
    cases initial with
    | none => exact .first rfl rfl (.refl s) (finish .unset (.refl s))
    | some e => exact (evaluates_mirrors hw e).bind fun v _ hlater _ => finish v hlater
  | block body =>
    rw [Worker.direct]
    split
    · next b step hround =>
      have hbody : body = [b, .expression step] := by
        unfold Stmt.round? at hround
        split at hround
        · next heq =>
          cases heq
          split at hround
          · cases hround
            rfl
          · cases hround
        · cases hround
      have hopener : (Opener.block body).isRound chosen = true := by
        rw [Opener.isRound, hround]
        rfl
      rw [← hbody]
      exact round_mirrors hw h.here hopener
    · next hround =>
      refine block_mirrors hw h.here ?_
      rw [Opener.isRound, hround]
      rfl
  | ifElse condition yes no =>
    refine (evaluates_mirrors hw condition).bind fun _ _ _ _ => .ite (fun _ => ?_) fun _ => ?_
    · exact executes_mirrors hw yes
    · cases no with
      | some no => exact executes_mirrors hw no
      | none => exact .pure trivial
  | whileLoop condition body =>
    exact (hw (.loop condition body) s trivial).weaken fun _ _ _ _ => trivial
  | breakLoop keyword => exact .pure trivial
  | function routine =>
    have hlevel := level (Piece.not_still rfl)
    refine (close_mirrors hlevel routine false).bind fun c s₁ h₁ _ => ?_
    refine (functionValue_mirrors c).bind fun v s₂ h₂ _ => ?_
    exact (defineHere_mirrors (hlevel.later (h₁.trans h₂)) _ v).bind fun _ _ _ _ => .pure trivial
  | classDecl name methods classMethods =>
    exact (declareClass_mirrors (level (Piece.not_still rfl)) ..).bind fun _ _ _ _ => .pure trivial
  | returnValue keyword value =>
    cases value with
    | some e => exact (evaluates_mirrors hw e).bind fun _ _ _ _ => .pure trivial
    | none => exact .pure trivial
  | importModule keyword path =>
    have hlevel := level (Piece.not_still rfl)
    show Mirrors chosen halt (executeWith w (.importModule keyword path))
      (executeWith w' (.importModule keyword path)) s _
    simp only [executeWith]
    split
    · next path _ =>
      exact (hw (.importModule keyword.site path) s hlevel).bind fun _ _ _ _ => .pure trivial
    · exact Mirrors.bind (R := fun _ _ => True) (.fail _ _) fun _ _ _ _ => .pure trivial
  | exportDecl keyword declaration =>
    have hlevel := level (Piece.not_still rfl)
    refine (executes_mirrors hw declaration).bind fun _ s₁ hlater _ => ?_
    cases declaration.declared? with
    | none => exact .fail _ _
    | some name =>
      refine .get ?_
      have hlocal : (s₁.abridged chosen).frames.getLocal? (s₁.abridged chosen).context.frame
          name.lexeme = s₁.frames.getLocal? s₁.context.frame name.lexeme := by
        rw [show (s₁.abridged chosen).context.frame =
          s₁.context.frame from (hlevel.later hlater).kept]
        exact Frames.getLocal?_abridged
      rw [hlocal]
      exact (recordExport_mirrors _ _).bind fun _ _ _ _ => .pure trivial

theorem loop_mirrors (condition : Expr) (body : Stmt) :
    Mirrors chosen halt (loopWith w condition body) (loopWith w' condition body) s
      fun _ _ => True := by
  refine (evaluates_mirrors hw condition).bind fun _ _ _ _ => .ite (fun _ => ?_) fun _ =>
    .pure trivial
  refine (executes_mirrors hw body).bind fun flow s₁ _ _ => ?_
  cases flow with
  | normal => exact (hw (.loop condition body) s₁ trivial).weaken fun _ _ _ _ => trivial
  | breaking | returning => exact .pure trivial

theorem import_mirrors (h : Lodged units (.importModule site path) s) (hs : s.Level chosen) :
    Mirrors chosen halt (importWith w site path) (importWith w' site path) s fun _ _ => True := by
  have hsplice {s₁ : Session} (hlater : s.Later s₁) :
      Mirrors chosen halt (w.splice path) (w'.splice path) s₁ fun _ _ => True :=
    (hw (.splice path) s₁ (hs.later hlater)).weaken fun _ _ _ _ => trivial
  refine .get (.ite (fun _ => hsplice (.refl s)) fun hnot => ?_)
  dsimp only [Session.abridged]
  cases hsource : s.sources path with
  | none => exact .fail _ _
  | some source =>
    dsimp only
    cases hp : Prepared.program source s.nextId with
    | error e => exact .raise _
    | ok p =>
      have hcommit : s.Later (s.commit p) := ⟨.commit (program_checked hp), rfl⟩
      refine .first (on_commit p s) (on_commit p _) hcommit ?_
      have hroot : s.frames.skip chosen rootFrame = rootFrame := h.planted.1.unskipped (.inl rfl)
      refine (newModuleFrame_mirrors (hcommit.here h.here) hroot).bind fun frame s₁ h₁ hframe => ?_
      obtain ⟨hkept, hlt, hmodules⟩ := hframe
      have hnot₁ : s₁.modules.contains path = false := by
        rw [hmodules]
        exact Bool.not_eq_true _ ▸ hnot
      refine (register_mirrors hnot₁ frame).bind fun _ s₂ h₂ hframes => ?_
      rw [← hframes] at hkept hlt
      have hlater := hcommit.trans (h₁.trans h₂)
      have hbody := (hw (.interpret p.tree) { s₂ with
        context := (Region.topLevel frame path).enter s₂.context } trivial).weaken
          fun _ _ _ _ => trivial
      exact (Mirrors.within (r := .topLevel ..) (hlater.here h.here) hlt hkept hbody).bind
        fun _ s₃ h₃ _ => hsplice (hlater.trans h₃)

end Run

/-- One task goes the same way, where it can occur, if the tasks within it do. -/
theorem step_mirrors (h : Lodged units t s) (hopen : t.Open chosen s) :
    Mirrors chosen halt (w.step t) (w'.direct chosen t) s fun _ _ => True := by
  cases t with
  | evaluate e => exact Run.evaluate_mirrors hw h
  | callValue callee site arguments => exact Run.callValue_mirrors hw callee site arguments
  | construct c site arguments => exact Run.construct_mirrors hw h
  | invoke closure site arguments => exact Run.invoke_mirrors hw h
  | execute st => exact Run.execute_mirrors hw h
  | loop condition body => exact Run.loop_mirrors hw condition body
  | interpret body => exact Run.every_mirrors hw body
  | importModule site path => exact Run.import_mirrors hw h hopen
  | splice path => exact Run.splice_mirrors hopen path

end

-- ---------------------------------------------------------------------------
-- Runs
-- ---------------------------------------------------------------------------

open Classical in
/-- Stops where, with some allowance left, a task cannot occur. -/
noncomputable def stopUnlodged (units : List Line) (halt : Halt) (fuel : Nat) (t : Task)
    (s : Session) : Option Halt :=
  if fuel = 0 ∨ Lodged units t s then none else some halt

/-- A run never comes to be stopped there. -/
theorem step_unless (h : Lodged units t s) (halt : Halt) (fuel : Nat) :
    (((worker fuel).unless (stopUnlodged units halt fuel)).step t).on s =
      ((worker fuel).step t).on s := by
  obtain ⟨σ, hplay, -⟩ := step_follows t s
  simp only [hplay]
  refine σ.play_congr fun t' s' hmem => Worker.unless_on_of_none (if_pos ?_)
  cases fuel with
  | zero => exact .inl rfl
  | succ fuel =>
    have hask : (worker (fuel + 1)).Asks t s t' s' := by
      intro halt'
      simp only [hplay]
      exact (σ.mem_asked_iff _).1 hmem halt'
    have hleads : Leads anyhow (fuel + 2) t s (fuel + 1) t' s' := .inside trivial hask .here
    exact .inr (h.comesTo hleads.comesTo)

/-- Wherever a task can occur, running rounds directly comes to the same, and leaves the same
session but for the frames of rounds. -/
theorem directWorker_agrees (fuel : Nat) (h : Lodged units t s) (hopen : t.Open chosen s) :
    Agrees chosen (worker fuel t) (directWorker chosen fuel t) s := by
  induction fuel generalizing t s with
  | zero => rfl
  | succ fuel ih =>
    obtain ⟨halt, hhalt⟩ := not_forall.1 fun hall : ∀ halt, ((worker (fuel + 1) t).on s).1 =
      .error halt => not_every_halt hall
    have hw : ((worker fuel).unless (stopUnlodged units halt fuel)).Mirrors chosen halt units
        (directWorker chosen fuel) := by
      intro t' s' hopen'
      by_cases hstop : fuel = 0 ∨ Lodged units t' s'
      · have hsame : (((worker fuel).unless (stopUnlodged units halt fuel)) t').on s' =
            (worker fuel t').on s' := Worker.unless_on_of_none (if_pos hstop)
        refine .congr hsame ?_
        rcases hstop with rfl | hlodged
        · exact .inr ⟨rfl, .refl s', nofun⟩
        · refine .inr ⟨ih hlodged hopen', worker_later fuel t' s', fun a ha => ⟨?_, ?_⟩⟩
          · exact (kept_planted.toKept.after fuel t' hlodged.planted.1).1
          · exact (Triple.result (Account.run_keeps fuel hlodged.account id)
              (Prod.ext ha rfl)).2.2
      · refine .inl ?_
        rw [Worker.unless_on_of_some (if_neg hstop)]
    have hstep := step_mirrors hw h hopen
    have hsame := step_unless h halt fuel
    rw [Mirrors, Agrees, hsame] at hstep
    exact (hstep.resolve_left hhalt).1

end Treewalk
