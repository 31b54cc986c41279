import Treewalk.Proofs.Correspondence

/-!
# Variables, members and modules in correspondence

Reading and writing variables, making functions, classes and instances, and taking over what a
module binds: each is joint with itself, where the second computation uses the names that the scope
has in its session.
-/

namespace Treewalk.Likeness.Joint

open Renamings (plain inside)

variable {L : Likeness} {W : World} {env : Renamings} {s s' : Session}

-- ---------------------------------------------------------------------------
-- Single changes
-- ---------------------------------------------------------------------------

/-- A new frame opens a scope, with a renaming of its own. -/
theorem newFrame {outer : FrameId} (hs : L.Holds W env s s') (hlt : outer < W.size)
    (hρ : L.names ρ) (ho : Opener.Like L.names W.noted opener opener') :
    L.Joint W env s s' (Run.newFrame outer opener) (Run.newFrame (L.frame outer) opener')
      fun W' f f' =>
        f' = L.frame f ∧ f < W'.size ∧ W'.renamings f = inside ρ (W.renamings outer) := by
  have hnext : s.frames.next = W.size := hs.frames.size
  refine .of_ok rfl rfl (W.grows_addFrame _) (hs.frame hlt hρ (.some ho)) ⟨?_, ?_, ?_⟩
  · exact hs.frames.next.apply
  · exact hnext ▸ Nat.lt_succ_self _
  · rw [hnext, World.renamings_addFrame]

theorem newModuleFrame (hs : L.Holds W env s s') :
    L.Joint W env s s' Run.newModuleFrame Run.newModuleFrame fun W' f f' =>
      f' = L.frame f ∧ W'.Plain f := by
  have hnext : s.frames.next = W.size := hs.frames.size
  have hadd := hs.frame hs.root.1 L.names_one .none
  rw [L.frame_root] at hadd
  refine .of_ok rfl rfl (W.grows_addFrame _) hadd ⟨?_, ?_, ?_⟩
  · exact hs.frames.next.apply
  · exact hnext ▸ Nat.lt_succ_self _
  · rw [hnext, World.renamings_addFrame, hs.root.2, Renamings.inside_plain]

theorem define {frame : FrameId} (hs : L.Holds W env s s') (hv : Value.Like L W v v')
    (hname : name' = W.renamings frame 0 name) :
    L.Joint W env s s' (Run.define frame name v) (Run.define (L.frame frame) name' v')
      fun _ _ _ => True :=
  .of_ok rfl rfl (.refl W) { hs with frames := hs.frames.define hv hname } trivial

theorem defineHere (hs : L.Holds W env s s') (hv : Value.Like L W v v')
    (hname : name' = env 0 name) :
    L.Joint W env s s' (Run.defineHere name v) (Run.defineHere name' v') fun _ _ _ => True := by
  refine .get_bind ?_
  rw [hs.context]
  exact define hs hv (by rw [hname, hs.env])

theorem newIdentity (hs : L.Holds W env s s') :
    L.Joint W env s s' Run.newIdentity Run.newIdentity fun _ i j => j = L.function i :=
  .of_ok rfl rfl (.refl W) { hs with nextIdentity := hs.nextIdentity.succ } hs.nextIdentity.apply

theorem newArray (hs : L.Holds W env s s') (hvs : Value.AllLike L W vs vs') :
    L.Joint W env s s' (Run.newArray vs) (Run.newArray vs') fun _ i j => j = L.array i :=
  .of_ok rfl rfl (.refl W) { hs with arrays := hs.arrays.add hvs } hs.arrays.next.apply

theorem time (hs : L.Holds W env s s') :
    L.Joint W env s s' Run.time Run.time fun _ t t' => t' = t :=
  .of_ok rfl rfl (.refl W) { hs with clock := congrArg Clock.tick hs.clock }
    (congrArg (· 0) hs.clock)

theorem textOf (hs : L.Holds W env s s') (hv : Value.Like L W v v') :
    L.Joint W env s s' (Run.textOf v) (Run.textOf v') fun _ shown shown' => shown' = shown := by
  refine .get_bind ?_
  rw [hs.arrays.text hv]
  cases s.arrays.text v with
  | ok shown => exact pure hs rfl
  | error h => exact throw hs h

theorem newObject (hs : L.Holds W env s s') :
    L.Joint W env s s' Run.newObject Run.newObject fun _ i j => j = L.object i := by
  refine .of_ok rfl rfl (.refl W) { hs with fields := fun made => ?_, objects := ?_ }
    hs.objects.apply
  · have hnew : L.object made = s'.fields.size ↔ made = s.fields.size := by
      rw [hs.objects.apply, Shift.apply_eq_iff]
    dsimp only
    rw [Array.getElem?_push, Array.getElem?_push]
    simp only [hnew]
    split
    · exact .some .empty
    · exact hs.fields made
  · dsimp only
    rw [Array.size_push, Array.size_push]
    exact hs.objects.succ

theorem field? (hs : L.Holds W env s s') (made : ObjectId) (name : String) :
    L.Joint W env s s' (Run.field? made name) (Run.field? (L.object made) name) fun W' v v' =>
      Option.Rel (Value.Like L W') v v' := by
  refine .get_bind (.pure hs ?_)
  obtain ⟨h₁, h₂⟩ | ⟨t, t', h₁, h₂, ht⟩ := rel_cases (hs.fields made) <;> rw [h₁, h₂]
  · exact .none
  · exact ht.get? name

theorem setField (hs : L.Holds W env s s') (made : ObjectId) (name : String)
    (hv : Value.Like L W v v') :
    L.Joint W env s s' (Run.setField made name v) (Run.setField (L.object made) name v')
      fun _ _ _ => True := by
  refine .of_ok rfl rfl (.refl W) { hs with fields := fun other => ?_, objects := ?_ } trivial
  · dsimp only
    rw [Array.getElem?_modify, Array.getElem?_modify]
    simp only [Shift.apply_eq_iff]
    split
    · obtain ⟨h₁, h₂⟩ | ⟨t, t', h₁, h₂, ht⟩ := rel_cases (hs.fields other) <;> rw [h₁, h₂]
      · exact .none
      · exact .some (ht.insert name hv)
    · exact hs.fields other
  · dsimp only
    rw [Array.size_modify, Array.size_modify]
    exact hs.objects

theorem printLine (hs : L.Holds W env s s') (text : String) :
    L.Joint W env s s' (Run.printLine text) (Run.printLine text) fun _ _ _ => True := by
  refine .get_bind ?_
  rw [hs.refusal]
  cases s.refusal with
  | some reason => exact raise hs _
  | none =>
    have houtput := congrArg (· ++ text ++ "\n") hs.output
    exact .of_ok rfl rfl (.refl W) { hs with output := houtput } trivial

theorem register {frame : FrameId} (hs : L.Holds W env s s') (path : String)
    (hframe : W.Plain frame) :
    L.Joint W env s s' (Run.register path frame) (Run.register path (L.frame frame))
      fun _ _ _ => True :=
  .of_ok rfl rfl (.refl W) (hs.register path hframe) trivial

theorem module_like (hs : L.Holds W env s s') (path : String) :
    Option.Rel (Module.Like L W) (s.modules.get? path) (s'.modules.get? path) :=
  hs.modules.get? path

theorem recordExport (hs : L.Holds W env s s') (name : String) (hv : Value.Like L W v v') :
    L.Joint W env s s' (Run.recordExport name v) (Run.recordExport name v') fun _ _ _ => True := by
  refine .of_ok (Run.on_modify _ s) (Run.on_modify _ s') (.refl W) ?_ trivial
  rw [show s'.context.loading = s.context.loading by rw [hs.context]; rfl]
  cases s.context.loading.head? with
  | none => exact hs
  | some path =>
    obtain ⟨h₁, h₂⟩ | ⟨m, m', h₁, h₂, hm⟩ := rel_cases (module_like hs path)
    · simp only [h₁, h₂]
      exact hs
    · simp only [h₁, h₂]
      have hmodule : Module.Like L W { m with exports := m.exports.insert name v }
          { m' with exports := m'.exports.insert name v' } :=
        ⟨hm.frame, hm.plain, hm.exports.insert name hv⟩
      exact { hs with modules := hs.modules.insert path hmodule }

theorem commit (hs : L.Holds W env s s') (hp : L.Ready s.nextId s'.nextId (p.mapTree .statements)
      (p'.mapTree .statements)) :
    L.Joint W env s s' (Run.commit p) (Run.commit p') fun W' body body' =>
      Stmt.AllLike L.names W'.noted plain body body' := by
  obtain ⟨W', hW, ht, htree⟩ := hs.commit hp
  refine .of_ok (Run.on_commit p s) (Run.on_commit p' s') hW ht ?_
  cases htree with
  | statements h => exact h

-- ---------------------------------------------------------------------------
-- Variables
-- ---------------------------------------------------------------------------

/-- A node reads the variable that the node that it stands for reads. -/
theorem lookUp (hs : L.Holds W env s s') (name : Token) (hnode : W.noted node node' d) :
    L.Joint W env s s' (Run.lookUp node name) (Run.lookUp node' (name.renamed (env.found d)))
      fun W' => Value.Like L W' := by
  obtain ⟨-, -, -, hd, hd'⟩ := hs.notes.noted _ _ _ hnode
  refine .get_bind ?_
  rw [hd, hd', hs.context]
  cases d with
  | none => exact ofExcept hs (hs.frames.read name hs.globals)
  | some d =>
    have hvalue := hs.frames.getAt? s.context.frame d name.lexeme
    rw [hs.env] at hvalue
    obtain ⟨h₁, h₂⟩ | ⟨v, v', h₁, h₂, hv⟩ := rel_cases hvalue
    · simp only [h₁, Renamings.found, Token.lexeme_renamed, context, h₂]
      exact unbound hs name d
    · simp only [h₁, Renamings.found, Token.lexeme_renamed, context, h₂]
      exact pure hs hv

/-- An assignment binds the same variable, under the name that it has in its session. -/
theorem assignee (hs : L.Holds W env s s') (name : Token) (hnode : W.noted node node' d) :
    L.Joint W env s s' (Run.assignee node name) (Run.assignee node' (name.renamed (env.found d)))
      fun W' f f' => f' = L.frame f ∧ env.found d name.lexeme = W'.renamings f 0 name.lexeme := by
  obtain ⟨-, -, -, hd, hd'⟩ := hs.notes.noted _ _ _ hnode
  refine .get_bind ?_
  rw [hd, hd', hs.context]
  cases d with
  | none =>
    dsimp only
    rw [show (name.renamed (env.found none)).lexeme = name.lexeme from rfl,
      show (L.context s.context).globals = L.frame s.context.globals from rfl,
      hs.frames.holder? _ hs.globals]
    cases hfound : s.frames.holder? s.context.globals name.lexeme with
    | some found =>
      refine pure hs ⟨rfl, ?_⟩
      rw [hs.frames.renaming_holder hs.globals hfound]
      rfl
    | none => exact raise hs _
  | some d =>
    dsimp only
    rw [show (L.context s.context).frame = L.frame s.context.frame from rfl, hs.frames.ancestor?]
    cases hfound : s.frames.ancestor? s.context.frame d with
    | some found =>
      refine pure hs ⟨rfl, ?_⟩
      rw [hs.frames.renaming_ancestor hfound, hs.env]
      rfl
    | none => exact unbound hs name d

theorem assign (hs : L.Holds W env s s') (name : Token) (hnode : W.noted node node' d)
    (hv : Value.Like L W v v') :
    L.Joint W env s s' (Run.assign node name v) (Run.assign node' (name.renamed (env.found d)) v')
      fun _ _ _ => True := by
  refine (assignee hs name hnode).bind ?_
  rintro W' t t' f _ hW ht ⟨rfl, hname⟩
  exact define ht (hv.grow hW) hname

-- ---------------------------------------------------------------------------
-- Functions and members
-- ---------------------------------------------------------------------------

theorem currentHome (hs : L.Holds W env s s') :
    L.Joint W env s s' Run.currentHome Run.currentHome fun W' home home' =>
      home' = home.map L.frame ∧ W'.Plain (home.getD rootFrame) := by
  have hroot : L.frame s.context.globals = rootFrame ↔ s.context.globals = rootFrame := by
    rw [← L.frame.apply_eq_iff (i := s.context.globals), L.frame_root]
  refine .get_bind ?_
  rw [hs.context]
  refine pure hs ⟨?_, ?_⟩
  · simp only [context, hroot]
    split <;> rfl
  · split
    · exact hs.root
    · exact hs.globals

theorem close (hs : L.Holds W env s s') {around : Renamings → Renamings}
    (h : Routine.Like L.names W.noted (around env) r r') (initializer : Bool) :
    L.Joint W env s s' (Run.close r initializer) (Run.close r' initializer) fun W' =>
      Closure.Like L W' around := by
  refine .get_bind ?_
  rw [hs.context]
  refine (currentHome hs).bind ?_
  rintro W' t t' home _ hW ht ⟨rfl, hhome⟩
  refine pure ht ⟨?_, rfl, Nat.lt_of_lt_of_le hs.here hW.size, rfl, rfl, hhome⟩
  dsimp only
  rw [hW.renamings _ hs.here, hs.env]
  exact h.mono hW.noted

theorem functionValue (hs : L.Holds W env s s') (hc : Closure.Like L W id c c') :
    L.Joint W env s s' (Run.functionValue c) (Run.functionValue c') fun W' =>
      Value.Like L W' := by
  refine (newIdentity hs).bind ?_
  rintro W' t t' made _ hW ht rfl
  exact pure ht (.function made (hc.grow hW))

theorem bindReceiver (hs : L.Holds W env s s') (hc : Closure.MethodLike L W c c')
    (hv : Value.Like L W v v') :
    L.Joint W env s s' (Run.bindReceiver c v) (Run.bindReceiver c' v') fun W' =>
      Closure.Like L W' id := by
  have hinside := Renamings.inside_names L.names_one (hs.frames.names _ hc.lt)
  unfold Run.bindReceiver
  rw [hc.frame]
  refine (newFrame hs hc.lt L.names_one (.receiver hinside hc.routine)).bind ?_
  rintro W' t t' f _ hW ht ⟨rfl, hlt, hrenamings⟩
  refine (define ht (hv.grow hW) ?_).bind ?_
  · rw [hrenamings]
    rfl
  · rintro W₁ t₁ t₁' _ _ hW₁ ht₁ -
    refine pure ht₁ ⟨?_, rfl, Nat.lt_of_lt_of_le hlt hW₁.size, hc.initializer, hc.home,
      hc.globals.grow (hW.trans hW₁)⟩
    dsimp only [id]
    rw [hW₁.renamings f hlt, hrenamings]
    exact hc.routine.mono (hW.trans hW₁).noted

theorem memberOf (hs : L.Holds W env s s') (made : ObjectId)
    (hmethods : Table.Like 1 (Closure.MethodLike L W) methods methods')
    (hv : Value.Like L W v v') (name : Token) :
    L.Joint W env s s' (Run.memberOf made methods v name)
      (Run.memberOf (L.object made) methods' v' name) fun W' => Value.Like L W' := by
  refine (field? hs made name.lexeme).bind ?_
  intro W' t t' found found' hW ht hfound
  cases hfound with
  | some h => exact pure ht h
  | none =>
    dsimp only
    obtain ⟨h₁, h₂⟩ | ⟨c, c', h₁, h₂, hc⟩ := rel_cases (hmethods.get? name.lexeme)
    · rw [h₁, show methods'.get? name.lexeme = none from h₂]
      exact fail ht _ _
    · rw [h₁, show methods'.get? name.lexeme = some c' from h₂]
      refine (bindReceiver ht (hc.grow hW) (hv.grow hW)).bind ?_
      intro W₁ t₁ t₁' bound bound' _ ht₁ hbound
      exact functionValue ht₁ hbound

theorem member (hs : L.Holds W env s s') (h : Value.Like L W v v') (name : Token) :
    L.Joint W env s s' (Run.member v name) (Run.member v' name) fun W' =>
      Value.Like L W' := by
  cases h with
  | plain hplain => cases v <;> first | exact fail hs _ _ | exact hplain.elim
  | array | function => exact fail hs _ _
  | @classObject c c' hc =>
    show L.Joint W env s s' _ (Run.memberOf c'.id c'.classMethods (.classObject c') name) _
    rw [hc.id]
    exact memberOf hs c.id hc.classMethods (.classObject hc) name
  | object made hc => exact memberOf hs made hc.methods (.object made hc) name

theorem closeAll (hs : L.Holds W env s s') {isInitializer : Routine → Bool}
    (hinit : ∀ r r' : Routine, r'.name = r.name → isInitializer r' = isInitializer r)
    (h : Routine.AllLike L.names W.noted (inside 1 env) rs rs') :
    L.Joint W env s s' (Run.closeAll isInitializer rs) (Run.closeAll isInitializer rs')
      fun W' => List.Forall₂ fun pair pair' =>
        pair'.1 = pair.1 ∧ Closure.MethodLike L W' pair.2 pair'.2 := by
  induction rs generalizing rs' W s s' with
  | nil =>
    cases h
    exact pure hs .nil
  | cons r rs ih =>
    cases h with
    | cons hr hrs =>
      unfold Run.closeAll
      rw [hr.name, hinit _ _ hr.name]
      refine (close hs hr _).bind fun W' t t' c c' hW ht hc => ?_
      refine (ih ht (hrs.mono hW.noted)).bind fun W₁ t₁ t₁' cs cs' hW₁ ht₁ hcs => ?_
      exact pure ht₁ (.cons ⟨rfl, hc.grow hW₁⟩ hcs)

theorem declareClass (hs : L.Holds W env s s') (hname : env 0 name.lexeme = name.lexeme)
    (hmethods : Routine.AllLike L.names W.noted (inside 1 env) methods methods')
    (hclass : Routine.AllLike L.names W.noted (inside 1 env) classMethods classMethods') :
    L.Joint W env s s' (Run.declareClass name methods classMethods)
      (Run.declareClass name methods' classMethods') fun _ _ _ => True := by
  refine (defineHere hs (.plain (v := .nil) trivial) hname.symm).bind
    fun W₁ t₁ t₁' _ _ hW₁ ht₁ _ => ?_
  refine (closeAll ht₁ (fun _ _ _ => rfl) (hclass.mono hW₁.noted)).bind
    fun W₂ t₂ t₂' ofClass ofClass' hW₂ ht₂ hofClass => ?_
  refine (closeAll ht₂ (fun _ _ h => by rw [h]) (hmethods.mono (hW₁.trans hW₂).noted)).bind
    fun W₃ t₃ t₃' ofInstances ofInstances' hW₃ ht₃ hofInstances => ?_
  refine (newObject ht₃).bind ?_
  rintro W₄ t₄ t₄' made _ hW₄ ht₄ rfl
  refine defineHere ht₄ (.classObject ⟨rfl, rfl, ?_, ?_⟩) hname.symm
  · exact .ofList (hofInstances.imp fun _ _ h => ⟨h.1, h.2.grow hW₄⟩)
  · exact .ofList (hofClass.imp fun _ _ h => ⟨h.1, h.2.grow (hW₃.trans hW₄)⟩)

-- ---------------------------------------------------------------------------
-- Calls
-- ---------------------------------------------------------------------------

theorem bindParameters {frame : FrameId} (hs : L.Holds W env s s') (params : List Token)
    (hρ : W.renamings frame 0 = ρ) (hlt : frame < W.size) (h : Value.AllLike L W vs vs') :
    L.Joint W env s s' (Run.bindParameters frame params vs)
      (Run.bindParameters (L.frame frame) (params.map (Token.renamed ρ)) vs')
      fun _ _ _ => True := by
  induction params generalizing vs vs' W s s' with
  | nil => exact pure hs trivial
  | cons p params ih =>
    cases h with
    | nil => exact pure hs trivial
    | cons hv hvs =>
      refine (define hs hv (by rw [hρ]; rfl)).bind fun W' t t' _ _ hW ht _ => ?_
      exact ih ht (hW.renamings frame hlt ▸ hρ) (Nat.lt_of_lt_of_le hlt hW.size)
        (Value.AllLike.grow hvs hW)

theorem receiver {around : Renamings → Renamings} (hs : L.Holds W env s s')
    (hc : Closure.Like L W around c c') (site : Site) :
    L.Joint W env s s' (Run.receiver c site) (Run.receiver c' site) fun W' =>
      Value.Like L W' := by
  refine .get_bind ?_
  rw [hc.frame]
  have hthis := hs.frames.getAt? c.frame 0 "this"
  rw [L.names_this _ (hs.frames.names c.frame hc.lt 0)] at hthis
  obtain ⟨h₁, h₂⟩ | ⟨v, v', h₁, h₂, hv⟩ := rel_cases hthis
  · rw [h₁, h₂]
    exact fail hs _ _
  · rw [h₁, h₂]
    exact pure hs hv

-- ---------------------------------------------------------------------------
-- Imports
-- ---------------------------------------------------------------------------

theorem adopt {frame : FrameId} (hs : L.Holds W env s s') (hframe : W.Plain frame)
    (h : Value.Like L W v v') :
    L.Joint W env s s' (Run.adopt frame v) (Run.adopt (L.frame frame) v') fun W' =>
      Value.Like L W' := by
  cases h with
  | plain hplain => cases v <;> first | exact pure hs (.plain hplain) | exact hplain.elim
  | array made => exact pure hs (.array made)
  | classObject h => exact pure hs (.classObject h)
  | object made h => exact pure hs (.object made h)
  | @function c c' made h =>
    simp only [Run.adopt, h.home]
    cases hhome : c.home with
    | some home => exact pure hs (.function made h)
    | none => exact functionValue hs ⟨h.routine, h.frame, h.lt, h.initializer, rfl, hframe⟩

/-- What is taken over is bound under the same names, where no name is changed. -/
theorem adoptAll {frame : FrameId} {entries entries' : List (String × Value)}
    (hs : L.Holds W env s s') (henv : env 0 = 1) (hframe : W.Plain frame)
    (h : List.Forall₂ (fun entry entry' => entry'.1 = entry.1 ∧
      Value.Like L W entry.2 entry'.2) entries entries') :
    L.Joint W env s s' (Run.adoptAll frame entries) (Run.adoptAll (L.frame frame) entries')
      fun _ _ _ => True := by
  induction entries generalizing entries' W s s' with
  | nil =>
    cases h
    exact pure hs trivial
  | cons entry entries ih =>
    obtain ⟨name, v⟩ := entry
    cases h with
    | @cons _ entry' _ _ hentry hrest =>
      obtain ⟨_, v'⟩ := entry'
      obtain ⟨rfl, hv⟩ := hentry
      refine (adopt hs hframe hv).bind fun W₁ t₁ t₁' a a' hW₁ ht₁ ha => ?_
      refine (defineHere ht₁ ha (by rw [henv]; rfl)).bind fun W₂ t₂ t₂' _ _ hW₂ ht₂ _ => ?_
      have hW := hW₁.trans hW₂
      exact ih ht₂ (hframe.grow hW) (hrest.imp fun _ _ h => ⟨h.1, h.2.grow hW⟩)

theorem splice (hs : L.Holds W env s s') (henv : env 0 = 1) (path : String) :
    L.Joint W env s s' (Run.splice path) (Run.splice path) fun _ _ _ => True := by
  refine .get_bind ?_
  obtain ⟨h₁, h₂⟩ | ⟨m, m', h₁, h₂, hm⟩ := rel_cases (module_like hs path)
  · rw [h₁, h₂]
    exact pure hs trivial
  · rw [h₁, h₂]
    dsimp only
    rw [hm.frame]
    have hbindings := hs.frames.bindings m.frame
    rw [hm.plain.2] at hbindings
    exact adoptAll hs henv hm.plain hbindings

end Treewalk.Likeness.Joint
