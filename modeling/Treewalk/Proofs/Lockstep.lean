import Treewalk.Proofs.Jointly

/-!
# Runs in lockstep

Two workers are paired if what the one carries out is joint with what the other carries out on a
tree or value that is alike. If they are, so are the workers that leave the tasks within a task to
them; hence two runs with one allowance go in lockstep from the first step to the last, whether they
end, fail or run out.
-/

namespace Treewalk.Likeness

open Renamings (plain inside)

inductive FlowLike (L : Likeness) (W : World) : Flow → Flow → Prop
  | normal : FlowLike L W .normal .normal
  | breaking : FlowLike L W .breaking .breaking
  | returning : Value.Like L W v v' → FlowLike L W (.returning v) (.returning v')

/-- What the first worker carries out is joint with what the second does. -/
structure Paired (L : Likeness) (w w' : Worker) : Prop where
  evaluate : ∀ {W env s s' e e'}, L.Holds W env s s' → Expr.Like W.noted env e e' →
    L.Joint W env s s' (w.evaluate e) (w'.evaluate e') fun W' => Value.Like L W'
  callValue : ∀ {W env s s' v v' vs vs'}, L.Holds W env s s' → Value.Like L W v v' →
    Value.AllLike L W vs vs' → ∀ site, L.Joint W env s s' (w.callValue v site vs)
      (w'.callValue v' site vs') fun W' => Value.Like L W'
  construct : ∀ {W env s s' c c' vs vs'}, L.Holds W env s s' → Class.Like L W c c' →
    Value.AllLike L W vs vs' → ∀ site, L.Joint W env s s' (w.construct c site vs)
      (w'.construct c' site vs') fun W' => Value.Like L W'
  invoke : ∀ {W env s s' c c' vs vs'}, L.Holds W env s s' → Closure.Like L W id c c' →
    Value.AllLike L W vs vs' → ∀ site, L.Joint W env s s' (w.invoke c site vs)
      (w'.invoke c' site vs') fun W' => Value.Like L W'
  execute : ∀ {W env s s' st st'}, L.Holds W env s s' → Stmt.Like L.names W.noted env st st' →
    L.Joint W env s s' (w.execute st) (w'.execute st') fun W' => FlowLike L W'
  loop : ∀ {W env s s' e e' st st'}, L.Holds W env s s' → Expr.Like W.noted env e e' →
    Stmt.Like L.names W.noted env st st' →
    L.Joint W env s s' (w.loop e st) (w'.loop e' st') fun W' => FlowLike L W'
  interpret : ∀ {W env s s' body body'}, L.Holds W env s s' →
    Stmt.AllLike L.names W.noted env body body' →
    L.Joint W env s s' (w.interpret body) (w'.interpret body') fun _ _ _ => True
  importModule : ∀ {W env s s'}, L.Holds W env s s' → env 0 = 1 → ∀ site path,
    L.Joint W env s s' (w.importModule site path) (w'.importModule site path) fun _ _ _ => True
  splice : ∀ {W env s s'}, L.Holds W env s s' → env 0 = 1 → ∀ path,
    L.Joint W env s s' (w.splice path) (w'.splice path) fun _ _ _ => True

namespace Paired

variable {L : Likeness} {w w' : Worker} {W : World} {env : Renamings} {s s' : Session}

-- ---------------------------------------------------------------------------
-- Lists of expressions and statements
-- ---------------------------------------------------------------------------

theorem each (hw : L.Paired w w') (hs : L.Holds W env s s')
    (h : Expr.AllLike W.noted env es es') :
    L.Joint W env s s' (Run.each w.evaluate es) (Run.each w'.evaluate es') fun W' =>
      Value.AllLike L W' := by
  induction es generalizing es' W s s' with
  | nil =>
    cases h
    exact .pure hs .nil
  | cons e es ih =>
    cases h with
    | cons he hes =>
      refine (hw.evaluate hs he).bind fun W₁ t₁ t₁' v v' hW₁ ht₁ hv => ?_
      refine (ih ht₁ (hes.mono hW₁.noted)).bind fun W₂ t₂ t₂' vs vs' hW₂ ht₂ hvs => ?_
      exact .pure ht₂ (.cons (hv.grow hW₂) hvs)

theorem inSequence (hw : L.Paired w w') (hs : L.Holds W env s s')
    (h : Stmt.AllLike L.names W.noted env body body') :
    L.Joint W env s s' (Run.inSequence w.execute body) (Run.inSequence w'.execute body') fun W' =>
      FlowLike L W' := by
  induction body generalizing body' W s s' with
  | nil =>
    cases h
    exact .pure hs .normal
  | cons st rest ih =>
    cases h with
    | cons hst hrest =>
      refine (hw.execute hs hst).bind fun W₁ t₁ t₁' flow flow' hW₁ ht₁ hflow => ?_
      cases hflow with
      | normal => exact ih ht₁ (hrest.mono hW₁.noted)
      | breaking => exact .pure ht₁ .breaking
      | returning hv => exact .pure ht₁ (.returning hv)

theorem every (hw : L.Paired w w') (hs : L.Holds W env s s')
    (h : Stmt.AllLike L.names W.noted env body body') :
    L.Joint W env s s' (Run.every w.execute body) (Run.every w'.execute body')
      fun _ _ _ => True := by
  induction body generalizing body' W s s' with
  | nil =>
    cases h
    exact .pure hs trivial
  | cons st rest ih =>
    cases h with
    | cons hst hrest =>
      refine (hw.execute hs hst).bind fun W₁ t₁ t₁' _ _ hW₁ ht₁ _ => ?_
      exact ih ht₁ (hrest.mono hW₁.noted)

-- ---------------------------------------------------------------------------
-- Expressions
-- ---------------------------------------------------------------------------

theorem evaluateWith (hw : L.Paired w w') (hs : L.Holds W env s s')
    (h : Expr.Like W.noted env e e') :
    L.Joint W env s s' (Run.evaluateWith w e) (Run.evaluateWith w' e') fun W' =>
      Value.Like L W' := by
  cases h with
  | literal value => exact .pure hs (.plain (Value.plain_toValue value))
  | group h => exact hw.evaluate hs h
  | unary op h =>
    refine (hw.evaluate hs h).bind fun W₁ t₁ t₁' v v' _ ht₁ hv => ?_
    exact .ofResult ht₁ (Operator.unary_like op hv)
  | binary op hl hr =>
    refine (hw.evaluate hs hl).bind fun W₁ t₁ t₁' v v' hW₁ ht₁ hv => ?_
    refine (hw.evaluate ht₁ (hr.mono hW₁.noted)).bind fun W₂ t₂ t₂' u u' hW₂ ht₂ hu => ?_
    exact .get_bind (.ofResult ht₂ (Operator.binary_like ht₂.arrays op (hv.grow hW₂) hu))
  | logical op hl hr =>
    refine (hw.evaluate hs hl).bind fun W₁ t₁ t₁' v v' hW₁ ht₁ hv => ?_
    have hdecides : Run.decides op v' = Run.decides op v := by
      simp only [Run.decides, hv.isTruthy]
    rw [hdecides]
    split
    · exact .pure ht₁ hv
    · exact hw.evaluate ht₁ (hr.mono hW₁.noted)
  | conditional hcondition hyes hno =>
    refine (hw.evaluate hs hcondition).bind fun W₁ t₁ t₁' v v' hW₁ ht₁ hv => ?_
    rw [hv.isTruthy]
    split
    · exact hw.evaluate ht₁ (hyes.mono hW₁.noted)
    · exact hw.evaluate ht₁ (hno.mono hW₁.noted)
  | var name hnode => exact .lookUp hs name hnode
  | this keyword hnode => exact .lookUp hs keyword hnode
  | assign name hnode hvalue =>
    refine (hw.evaluate hs hvalue).bind fun W₁ t₁ t₁' v v' hW₁ ht₁ hv => ?_
    refine (Joint.assign ht₁ name (hW₁.noted _ _ _ hnode) hv).bind
      fun W₂ t₂ t₂' _ _ hW₂ ht₂ _ => ?_
    exact .pure ht₂ (hv.grow hW₂)
  | call paren hcallee harguments =>
    refine (hw.evaluate hs hcallee).bind fun W₁ t₁ t₁' v v' hW₁ ht₁ hv => ?_
    refine (hw.each ht₁ (harguments.mono hW₁.noted)).bind fun W₂ t₂ t₂' vs vs' hW₂ ht₂ hvs => ?_
    exact hw.callValue ht₂ (hv.grow hW₂) hvs _
  | get name hobject =>
    refine (hw.evaluate hs hobject).bind fun W₁ t₁ t₁' v v' hW₁ ht₁ hv => ?_
    refine (Joint.member ht₁ hv name).bind fun W₂ t₂ t₂' u u' hW₂ ht₂ hu => ?_
    cases hu with
    | plain hplain => cases u <;> first | exact .pure ht₂ (.plain hplain) | exact hplain.elim
    | array made => exact .pure ht₂ (.array made)
    | classObject h => exact .pure ht₂ (.classObject h)
    | object made h => exact .pure ht₂ (.object made h)
    | function made hc =>
      dsimp only
      rw [hc.routine.isGetter]
      split
      · exact hw.invoke ht₂ hc .nil _
      · exact .pure ht₂ (.function made hc)
  | set name hobject hvalue =>
    refine (hw.evaluate hs hobject).bind fun W₁ t₁ t₁' v v' hW₁ ht₁ hv => ?_
    rw [hv.objectId?]
    cases v.objectId? with
    | none => exact .fail ht₁ _ _
    | some made =>
      dsimp only [Option.map_some]
      refine (hw.evaluate ht₁ (hvalue.mono hW₁.noted)).bind fun W₂ t₂ t₂' u u' _ ht₂ hu => ?_
      refine (Joint.setField ht₂ made name.lexeme hu).bind fun W₃ t₃ t₃' _ _ hW₃ ht₃ _ => ?_
      exact .pure ht₃ (hu.grow hW₃)
  | array helements =>
    refine (hw.each hs helements).bind fun W₁ t₁ t₁' vs vs' _ ht₁ hvs => ?_
    refine (Joint.newArray ht₁ hvs).bind ?_
    rintro W₂ t₂ t₂' made _ hW₂ ht₂ rfl
    exact .pure ht₂ (.array made)
  | index bracket htarget hposition =>
    refine (hw.evaluate hs htarget).bind fun W₁ t₁ t₁' v v' hW₁ ht₁ hv => ?_
    refine (hw.evaluate ht₁ (hposition.mono hW₁.noted)).bind fun W₂ t₂ t₂' u u' hW₂ ht₂ hu => ?_
    exact .get_bind (.ofResult ht₂ (Operator.index_like ht₂.arrays bracket (hv.grow hW₂) hu))

-- ---------------------------------------------------------------------------
-- Calls
-- ---------------------------------------------------------------------------

theorem callValueWith (hw : L.Paired w w') (hs : L.Holds W env s s')
    (h : Value.Like L W v v') (hvs : Value.AllLike L W vs vs') (site : Site) :
    L.Joint W env s s' (Run.callValueWith w v site vs) (Run.callValueWith w' v' site vs') fun W' =>
      Value.Like L W' := by
  unfold Run.callValueWith
  rw [h.arity?, Value.AllLike.length hvs]
  cases v.arity? with
  | none => exact .fail hs _ _
  | some arity =>
    dsimp only
    split
    · exact .fail hs _ _
    · cases h with
      | plain hplain =>
        cases v with
        | native f =>
          refine (Joint.time hs).bind ?_
          rintro W₁ t₁ t₁' _ now hW₁ ht₁ rfl
          exact .get_bind (.ofResult ht₁
            (Native.call_like ht₁.arrays f now site (hvs.grow hW₁)))
        | _ => first | exact .fail hs _ _ | exact hplain.elim
      | array | object => exact .fail hs _ _
      | function made hc => exact hw.invoke hs hc hvs site
      | classObject hc => exact hw.construct hs hc hvs site

theorem constructWith (hw : L.Paired w w') (hs : L.Holds W env s s')
    (h : Class.Like L W c c') (hvs : Value.AllLike L W vs vs') (site : Site) :
    L.Joint W env s s' (Run.constructWith w c site vs) (Run.constructWith w' c' site vs') fun W' =>
      Value.Like L W' := by
  refine (Joint.newObject hs).bind ?_
  rintro W₁ t₁ t₁' made _ hW₁ ht₁ rfl
  have hmade := Value.Like.object made (h.grow hW₁)
  obtain ⟨h₁, h₂⟩ | ⟨init, init', h₁, h₂, hinit⟩ := rel_cases (h.methods.get? "init")
  · rw [h₁, show c'.methods.get? "init" = none from h₂]
    exact .pure ht₁ hmade
  · rw [h₁, show c'.methods.get? "init" = some init' from h₂]
    refine (Joint.bindReceiver ht₁ (hinit.grow hW₁) hmade).bind
      fun W₂ t₂ t₂' bound bound' hW₂ ht₂ hbound => ?_
    refine (hw.invoke ht₂ hbound (hvs.grow (hW₁.trans hW₂)) site).bind
      fun W₃ t₃ t₃' _ _ hW₃ ht₃ _ => ?_
    exact .pure ht₃ (hmade.grow (hW₂.trans hW₃))

/-- A call opens a scope on each side, with the renaming of the parameters. -/
theorem invokeWith (hw : L.Paired w w') (hs : L.Holds W env s s')
    (h : Closure.Like L W id c c') (hvs : Value.AllLike L W vs vs') (site : Site) :
    L.Joint W env s s' (Run.invokeWith w c site vs) (Run.invokeWith w' c' site vs') fun W' =>
      Value.Like L W' := by
  have hroutine := h.routine
  obtain ⟨routine, frame, initializer, home⟩ := c
  obtain ⟨routine', frame', initializer', home'⟩ := c'
  obtain rfl : frame' = L.frame frame := h.frame
  obtain rfl : initializer' = initializer := h.initializer
  have hhome : home'.getD rootFrame = L.frame (home.getD rootFrame) := h.home_getD
  have hlt : frame < W.size := h.lt
  have hglobals : W.Plain (home.getD rootFrame) := h.globals
  cases hroutine with
  | @intro ρ _ body body' name params hρ hbody =>
    refine (Joint.newFrame hs hlt hρ (.call (hs.frames.names _ hlt) h.routine)).bind ?_
    rintro W₁ t₁ t₁' new _ hW₁ ht₁ ⟨rfl, hnew, hrenamings⟩
    have hown : W₁.renamings new 0 = ρ := by rw [hrenamings]; rfl
    have hparams : Routine.parameters ⟨name, params.map (List.map (Token.renamed ρ)), body'⟩ =
        (Routine.parameters ⟨name, params, body⟩).map (Token.renamed ρ) := by
      cases params <;> rfl
    dsimp only
    rw [hparams, hhome]
    refine (Joint.bindParameters ht₁ _ hown hnew (hvs.grow hW₁)).bind
      fun W₂ t₂ t₂' _ _ hW₂ ht₂ _ => ?_
    have hW := hW₁.trans hW₂
    have hstart : L.Holds W₂ (W₂.renamings new) _ _ :=
      ht₂.enter ((Region.body new (home.getD rootFrame)).enter t₂.context)
        (Nat.lt_of_lt_of_le hnew hW₂.size) (hglobals.grow hW)
    refine (Joint.within ht₂ _ (hw.inSequence hstart ?_)).bind
      fun W₃ t₃ t₃' flow flow' hW₃ ht₃ hflow => ?_
    · rw [hW₂.renamings new hnew, hrenamings]
      exact hbody.mono hW.noted
    · split
      · exact .receiver ht₃ (h.grow (hW.trans hW₃)) site
      · cases hflow with
        | normal | breaking => exact .pure ht₃ (.plain trivial)
        | returning hv => exact .pure ht₃ hv

-- ---------------------------------------------------------------------------
-- Statements
-- ---------------------------------------------------------------------------

theorem executeWith (hw : L.Paired w w') (hs : L.Holds W env s s')
    (h : Stmt.Like L.names W.noted env st st') :
    L.Joint W env s s' (Run.executeWith w st) (Run.executeWith w' st') fun W' =>
      FlowLike L W' := by
  cases h with
  | expression h => exact (hw.evaluate hs h).bind fun W₁ t₁ t₁' _ _ _ ht₁ _ => .pure ht₁ .normal
  | print h =>
    refine (hw.evaluate hs h).bind fun W₁ t₁ t₁' v v' _ ht₁ hv => ?_
    refine (Joint.textOf ht₁ hv).bind ?_
    rintro W₂ t₂ t₂' _ shown _ ht₂ rfl
    exact (Joint.printLine ht₂ shown).bind fun W₃ t₃ t₃' _ _ _ ht₃ _ => .pure ht₃ .normal
  | var name h =>
    cases h with
    | some h =>
      refine (hw.evaluate hs h).bind fun W₁ t₁ t₁' v v' _ ht₁ hv => ?_
      exact (Joint.defineHere ht₁ hv rfl).bind fun W₂ t₂ t₂' _ _ _ ht₂ _ => .pure ht₂ .normal
    | none =>
      have hunset : Value.Like L W .unset .unset := .plain trivial
      exact (Joint.defineHere hs hunset rfl).bind fun W₂ t₂ t₂' _ _ _ ht₂ _ => .pure ht₂ .normal
  | block hρ hbody =>
    have hinside := Renamings.inside_names hρ (hs.env ▸ hs.frames.names _ hs.here)
    refine .get_bind ?_
    rw [hs.context]
    refine (Joint.newFrame hs hs.here hρ (.block hinside hbody)).bind ?_
    rintro W₁ t₁ t₁' new _ hW₁ ht₁ ⟨rfl, hnew, hrenamings⟩
    have hstart : L.Holds W₁ (W₁.renamings new) _ _ :=
      ht₁.enter ((Region.block new).enter t₁.context) hnew ht₁.globals
    refine .within ht₁ _ (hw.inSequence hstart ?_)
    rw [hrenamings, hs.env]
    exact hbody.mono hW₁.noted
  | ifOnly hcondition hyes =>
    refine (hw.evaluate hs hcondition).bind fun W₁ t₁ t₁' v v' hW₁ ht₁ hv => ?_
    rw [hv.isTruthy]
    split
    · exact hw.execute ht₁ (hyes.mono hW₁.noted)
    · exact .pure ht₁ .normal
  | ifElse hcondition hyes hno =>
    refine (hw.evaluate hs hcondition).bind fun W₁ t₁ t₁' v v' hW₁ ht₁ hv => ?_
    rw [hv.isTruthy]
    split
    · exact hw.execute ht₁ (hyes.mono hW₁.noted)
    · exact hw.execute ht₁ (hno.mono hW₁.noted)
  | whileLoop hcondition hbody => exact hw.loop hs hcondition hbody
  | breakLoop => exact .pure hs .breaking
  | function hname h =>
    have hinside : Routine.Like L.names W.noted (id env) _ _ := h
    refine (Joint.close hs hinside false).bind fun W₁ t₁ t₁' c c' _ ht₁ hc => ?_
    refine (Joint.functionValue ht₁ hc).bind fun W₂ t₂ t₂' v v' _ ht₂ hv => ?_
    rw [h.name]
    exact (Joint.defineHere ht₂ hv hname.symm).bind fun W₃ t₃ t₃' _ _ _ ht₃ _ => .pure ht₃ .normal
  | classDecl hname hmethods hclass =>
    exact (Joint.declareClass hs hname hmethods hclass).bind
      fun W₁ t₁ t₁' _ _ _ ht₁ _ => .pure ht₁ .normal
  | returnValue _ h =>
    cases h with
    | some h =>
      exact (hw.evaluate hs h).bind fun W₁ t₁ t₁' v v' _ ht₁ hv => .pure ht₁ (.returning hv)
    | none => exact .pure hs (.returning (.plain trivial))
  | importModule keyword path henv =>
    simp only [Run.executeWith]
    split
    · exact (hw.importModule hs henv _ _).bind fun W₁ t₁ t₁' _ _ _ ht₁ _ => .pure ht₁ .normal
    · exact (Joint.fail (Q := fun _ _ _ => True) hs _ _).bind
        fun W₁ t₁ t₁' _ _ _ ht₁ _ => .pure ht₁ .normal
  | exportDecl keyword hname h =>
    refine (hw.execute hs h).bind fun W₁ t₁ t₁' _ _ _ ht₁ _ => ?_
    rw [h.declared? hname]
    cases hdeclared : Stmt.declared? _ with
    | none => exact .fail ht₁ _ _
    | some name =>
      refine .get_bind ?_
      rw [show t₁'.context.frame = L.frame t₁.context.frame by rw [ht₁.context]; rfl]
      have hlocal := ht₁.frames.getLocal? t₁.context.frame name.lexeme
      rw [ht₁.env, hname name hdeclared] at hlocal
      refine (Joint.recordExport ht₁ name.lexeme ?_).bind
        fun W₂ t₂ t₂' _ _ _ ht₂ _ => .pure ht₂ .normal
      obtain ⟨h₁, h₂⟩ | ⟨v, v', h₁, h₂, hv⟩ := rel_cases hlocal <;> rw [h₁, h₂]
      · exact .plain trivial
      · exact hv

theorem loopWith (hw : L.Paired w w') (hs : L.Holds W env s s') (hc : Expr.Like W.noted env e e')
    (hbody : Stmt.Like L.names W.noted env st st') :
    L.Joint W env s s' (Run.loopWith w e st) (Run.loopWith w' e' st') fun W' =>
      FlowLike L W' := by
  refine (hw.evaluate hs hc).bind fun W₁ t₁ t₁' v v' hW₁ ht₁ hv => ?_
  rw [hv.isTruthy]
  split
  · refine (hw.execute ht₁ (hbody.mono hW₁.noted)).bind
      fun W₂ t₂ t₂' flow flow' hW₂ ht₂ hflow => ?_
    cases hflow with
    | normal =>
      have hW := (hW₁.trans hW₂).noted
      exact hw.loop ht₂ (hc.mono hW) (hbody.mono hW)
    | breaking => exact .pure ht₂ .normal
    | returning hv => exact .pure ht₂ (.returning hv)
  · exact .pure ht₁ .normal

-- ---------------------------------------------------------------------------
-- Imports
-- ---------------------------------------------------------------------------

/-- The top level of a module starts in a frame of its own, where no name is changed. -/
theorem firstImport (hw : L.Paired w w') (hs : L.Holds W env s s') (henv : env 0 = 1)
    (hp : L.Ready s.nextId s'.nextId (p.mapTree .statements) (p'.mapTree .statements))
    (path : String) :
    L.Joint W env s s'
      (do
        let body ← Run.commit p
        let frame ← Run.newModuleFrame
        Run.register path frame
        Run.within (.topLevel frame path) (w.interpret body)
        w.splice path)
      (do
        let body ← Run.commit p'
        let frame ← Run.newModuleFrame
        Run.register path frame
        Run.within (.topLevel frame path) (w'.interpret body)
        w'.splice path) fun _ _ _ => True := by
  refine (Joint.commit hs hp).bind fun W₁ t₁ t₁' body body' _ ht₁ hbody => ?_
  refine (Joint.newModuleFrame ht₁).bind ?_
  rintro W₂ t₂ t₂' frame _ hW₂ ht₂ ⟨rfl, hframe⟩
  refine (Joint.register ht₂ path hframe).bind fun W₃ t₃ t₃' _ _ hW₃ ht₃ _ => ?_
  have hthere := hframe.grow hW₃
  have hstart : L.Holds W₃ (W₃.renamings frame) _ _ :=
    ht₃.enter ((Region.topLevel frame path).enter t₃.context) hthere.1 hthere
  rw [show W₃.renamings frame = plain from hthere.2] at hstart
  refine (Joint.within ht₃ _ (hw.interpret hstart (hbody.mono (hW₂.trans hW₃).noted))).bind
    fun W₄ t₄ t₄' _ _ _ ht₄ _ => ?_
  exact hw.splice ht₄ henv path

theorem importWith (hw : L.Paired w w') (hs : L.Holds W env s s') (henv : env 0 = 1) (site : Site)
    (path : String) :
    L.Joint W env s s' (Run.importWith w site path) (Run.importWith w' site path)
      fun _ _ _ => True := by
  refine .get_bind ?_
  rw [show s'.modules.contains path = s.modules.contains path from hs.modules.contains path]
  split
  · exact hw.splice hs henv path
  · obtain ⟨h₁, h₂⟩ | ⟨source, source', h₁, h₂, hsource⟩ := rel_cases (hs.sources path)
    · rw [h₁, h₂]
      exact .fail hs _ _
    · rw [h₁, h₂]
      have hready := (hsource.2 _ _ hs.notes.nextId).of_map
      dsimp only
      generalize Prepared.program source s.nextId = x at hready ⊢
      generalize Prepared.program source' s'.nextId = x' at hready ⊢
      cases hready with
      | ok hp => exact hw.firstImport hs henv hp path
      | error e => exact .raise hs _

/-- One task is joint with itself if the tasks within it are. -/
theorem step (hw : L.Paired w w') : L.Paired w.step w'.step where
  evaluate := hw.evaluateWith
  callValue := hw.callValueWith
  construct := hw.constructWith
  invoke := hw.invokeWith
  execute := hw.executeWith
  loop := hw.loopWith
  interpret := hw.every
  importModule := hw.importWith
  splice hs henv path := .splice hs henv path

end Paired

theorem paired_worker (L : Likeness) : ∀ fuel, L.Paired (worker fuel) (worker fuel)
  | 0 => {
      evaluate := fun hs _ => .throw hs _
      callValue := fun hs _ _ _ => .throw hs _
      construct := fun hs _ _ _ => .throw hs _
      invoke := fun hs _ _ _ => .throw hs _
      execute := fun hs _ => .throw hs _
      loop := fun hs _ _ => .throw hs _
      interpret := fun hs _ => .throw hs _
      importModule := fun hs _ _ _ => .throw hs _
      splice := fun hs _ _ => .throw hs _ }
  | fuel + 1 => (L.paired_worker fuel).step

-- ---------------------------------------------------------------------------
-- Entries
-- ---------------------------------------------------------------------------

/-- Of new sessions no nodes are known, and no name is changed. -/
def blank : World :=
  ⟨fun _ _ _ => False, 1, fun _ => plain⟩

theorem initial_opener? (frame : FrameId) : Frames.initial.opener? frame = none := by
  simp only [Frames.initial, Native.all, List.foldl_cons, List.foldl_nil, Frames.opener?_define,
    Frames.addRoot, Frames.opener?_add_eq_ite]
  split <;> rfl

theorem initial_like {T : Translation} (hT : T.InPlace) :
    Frames.initial.Like T blank Frames.initial where
  size := rfl
  next := by
    rw [hT.frame]
    exact Shift.none_next.2 rfl
  parent frame := by
    rw [hT.frame]
    exact Option.map_id'.symm
  opener frame := by
    rw [initial_opener?, initial_opener?]
    exact .none
  bindings frame := by
    rw [hT.frame]
    exact Frames.initial_bindings (P := fun t => t.Like 1 (Value.Like T blank) t) .empty
      (fun t f ht => ht.insert f.name (.plain trivial)) frame
  names _ _ _ := T.names_one
  outer _ _ _ := Renamings.inside_plain.symm
  root := ⟨Nat.one_pos, rfl⟩

/-- New sessions correspond if their modules are prepared alike. -/
theorem start {L : Likeness} (hL : L.InPlace) (h0 : L.nodes 0 0)
    (hsources : ∀ path, Option.Rel L.Modules (sources path) (sources' path)) :
    L.Holds blank plain (.start sources refusal clock) (.start sources' refusal clock) where
  frames := initial_like hL
  fields _ := .none
  objects := by
    rw [hL.object]
    exact Shift.none_next.2 rfl
  arrays := by
    refine ⟨?_, fun _ => .nil⟩
    rw [hL.array]
    exact Shift.none_next.2 rfl
  nextIdentity := by
    rw [hL.function]
    exact Shift.none_next.2 rfl
  notes := ⟨h0, fun _ _ _ h => h.elim, fun _ _ => rfl, fun _ _ => rfl, fun _ _ _ => rfl⟩
  modules := .empty
  started := rfl
  sources := hsources
  context := by
    rw [context, hL.frame]
    rfl
  output := rfl
  refusal := rfl
  clock := rfl
  here := Nat.one_pos
  env := rfl
  globals := ⟨Nat.one_pos, rfl⟩

theorem Paired.line {L : Likeness} {w w' : Worker} {W : World} {s s' : Session}
    (hw : L.Paired w w') (hs : L.Holds W plain s s') (h : Line.Like L.names W.noted l l') :
    L.Joint W plain s s' (l.shown <$> w l.task) (l'.shown <$> w' l'.task) fun W' =>
      Option.Rel (Value.Like L W') := by
  cases h with
  | statements h => exact (hw.interpret hs h).map fun _ _ _ _ => .none
  | expression h => exact (hw.evaluate hs h).map fun _ _ _ hv => .some hv

/-- Entries that are prepared alike go in lockstep. -/
theorem Prepares.joint {L : Likeness} {W : World} {s s' : Session} {entry entry' : Entry}
    (h : L.Prepares entry.prepared entry'.prepared) (hs : L.Holds W plain s s') (fuel : Nat) :
    L.Joint W plain s s' (entry.run fuel) (entry'.run fuel) fun W' =>
      Option.Rel (Value.Like L W') := by
  have hready := h _ _ hs.notes.nextId
  unfold Joint
  cases hp : entry.prepared s.nextId with
  | error e =>
    rw [hp] at hready
    cases hp' : entry'.prepared s'.nextId with
    | error e' =>
      rw [hp'] at hready
      cases hready
      rw [Entry.on_run_error _ _ hp, Entry.on_run_error _ _ hp']
      exact .halt (.refl W) hs (.same _)
    | ok p' =>
      rw [hp'] at hready
      cases hready
  | ok p =>
    rw [hp] at hready
    cases hp' : entry'.prepared s'.nextId with
    | error e' =>
      rw [hp'] at hready
      cases hready
    | ok p' =>
      rw [hp'] at hready
      cases hready with
      | ok hready =>
        obtain ⟨W', hW, ht, htree⟩ := hs.commit hready
        rw [Entry.on_run_ok _ _ hp, Entry.on_run_ok _ _ hp', ← Run.on_map, ← Run.on_map]
        exact ((L.paired_worker fuel).line ht htree).grow hW

end Treewalk.Likeness
