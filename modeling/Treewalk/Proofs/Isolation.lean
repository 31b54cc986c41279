import Treewalk.Proofs.Sharing
import Treewalk.Proofs.Shifts

/-!
# Isolation of modules

The top level of a module runs with globals of its own. What it does depends on the variables of the
main program only where it looks for a name that its globals do not bind, which is then searched at
the root; and it changes a variable of another unit only by an assignment that is searched in the
global frame of that unit. A module that comes to no such moment runs as it would run in any other
main program, and leaves the variables there as they are.
-/

namespace Treewalk

open Renamings (plain)

-- ---------------------------------------------------------------------------
-- Tasks
-- ---------------------------------------------------------------------------

/-- Code that does not run at the top level of the main program. -/
structure Sheltered (t : Task) (s : Session) : Prop extends Located t s where
  inside : s.context.frame ≠ rootFrame

/-- The workers carry out every task alike, unless the first is stopped. -/
def Worker.AlikeBut (names : String → Prop) (w w' : Worker) : Prop :=
  ∀ t s fs, s.frames.SameBut names fs → Oblivious names (w t) (w' t) s fs

section

variable {names : String → Prop} {w w' : Worker} {s : Session} {fs : Frames}
  (hw : w.AlikeBut names w') (h : s.frames.SameBut names fs)
include hw h

theorem evaluateWith_oblivious (hs : Sheltered (.evaluate e) s)
    (hclear : ¬ Uses names (.evaluate e) s) :
    Oblivious names (Run.evaluateWith w e) (Run.evaluateWith w' e) s fs := by
  obtain ⟨A, σ, hstands⟩ := hs.ready
  cases e with
  | literal value => exact .pure h _
  | group inner => exact hw (.evaluate inner) s fs h
  | unary op right => exact (hw (.evaluate right) s fs h).bind fun _ _ _ _ h₁ => .ofResult h₁ _
  | binary op left right =>
    refine (hw (.evaluate left) s fs h).bind fun _ t fs₁ _ h₁ => ?_
    exact (hw (.evaluate right) t fs₁ h₁).bind fun _ _ _ _ h₂ => .get (.ofResult h₂ _)
  | logical op left right =>
    refine (hw (.evaluate left) s fs h).bind fun _ t fs₁ _ h₁ => ?_
    split
    · exact .pure h₁ _
    · exact hw (.evaluate right) t fs₁ h₁
  | conditional condition yes no =>
    refine (hw (.evaluate condition) s fs h).bind fun _ t fs₁ _ h₁ => ?_
    split
    · exact hw (.evaluate yes) t fs₁ h₁
    · exact hw (.evaluate no) t fs₁ h₁
  | var node name =>
    exact .lookUp h hs.planted.toGrounded hstands rfl fun hseeks => hclear ⟨_, rfl, hseeks⟩
  | this node keyword =>
    exact .lookUp h hs.planted.toGrounded hstands rfl fun hseeks => hclear ⟨_, rfl, hseeks⟩
  | assign node name value =>
    refine (hw (.evaluate value) s fs h).bind fun v _ _ hlater h₁ => ?_
    have hassign := Oblivious.assign h₁ hlater hstands rfl (fun hseeks => hclear ⟨_, rfl, hseeks⟩) v
    exact hassign.bind fun _ _ _ _ h₂ => .pure h₂ _
  | call callee paren arguments =>
    refine (hw (.evaluate callee) s fs h).bind fun c _ _ _ h₁ => ?_
    refine (Oblivious.each h₁ (fun e => hw (.evaluate e)) arguments).bind fun vs t fs₂ _ h₂ => ?_
    exact hw (.callValue c paren.site vs) t fs₂ h₂
  | get object name =>
    refine (hw (.evaluate object) s fs h).bind fun o _ _ _ h₁ => ?_
    refine (Oblivious.member h₁ o name).bind fun v t fs₂ _ h₂ => ?_
    split
    · next closure =>
      split
      · exact hw (.invoke closure name.site []) t fs₂ h₂
      · exact .pure h₂ _
    · exact .pure h₂ _
  | set object name value =>
    refine (hw (.evaluate object) s fs h).bind fun o t fs₁ _ h₁ => ?_
    split
    · next id _ =>
      refine (hw (.evaluate value) t fs₁ h₁).bind fun v u fs₂ _ h₂ => ?_
      exact (Oblivious.setField h₂ id name.lexeme v).bind fun _ _ _ _ h₃ => .pure h₃ v
    · exact .fail h₁ _ _
  | array elements =>
    refine (Oblivious.each h (fun e => hw (.evaluate e)) elements).bind fun vs _ _ _ h₁ => ?_
    exact (Oblivious.newArray h₁ vs).bind fun _ _ _ _ h₂ => .pure h₂ _
  | index target bracket position =>
    refine (hw (.evaluate target) s fs h).bind fun _ t fs₁ _ h₁ => ?_
    exact (hw (.evaluate position) t fs₁ h₁).bind fun _ _ _ _ h₂ => .get (.ofResult h₂ _)

theorem callValueWith_oblivious (callee : Value) (site : Site) (arguments : List Value) :
    Oblivious names (Run.callValueWith w callee site arguments)
      (Run.callValueWith w' callee site arguments) s fs := by
  unfold Run.callValueWith
  split
  · exact .fail h _ _
  · split
    · exact .fail h _ _
    · split
      · next closure _ => exact hw (.invoke closure site arguments) s fs h
      · exact (Oblivious.time h).bind fun _ _ _ _ h₁ => .get (.ofResult h₁ _)
      · next c _ => exact hw (.construct c site arguments) s fs h
      · exact .fail h _ _

theorem constructWith_oblivious (c : Class) (site : Site) (arguments : List Value) :
    Oblivious names (Run.constructWith w c site arguments)
      (Run.constructWith w' c site arguments) s fs := by
  refine (Oblivious.newObject h).bind fun made _ _ _ h₁ => ?_
  split
  · refine (Oblivious.bindReceiver h₁ _ _).bind fun bound t fs₂ _ h₂ => ?_
    exact (hw (.invoke bound site arguments) t fs₂ h₂).bind fun _ _ _ _ h₃ => .pure h₃ _
  · exact .pure h₁ _

theorem invokeWith_oblivious (hthis : ¬ names "this") (closure : Closure) (site : Site)
    (arguments : List Value) :
    Oblivious names (Run.invokeWith w closure site arguments)
      (Run.invokeWith w' closure site arguments) s fs := by
  refine (Oblivious.newFrame h closure.frame _).bind fun frame _ _ _ h₁ => ?_
  refine (Oblivious.bindParameters h₁ frame _ arguments).bind fun _ t fs₂ _ h₂ => ?_
  have hbody := Oblivious.inSequence (s := { t with
    context := (Region.body frame (closure.home.getD rootFrame)).enter t.context })
    h₂ (fun st => hw (.execute st)) closure.routine.body
  refine hbody.within.bind fun flow _ _ _ h₃ => ?_
  split
  · exact .receiver h₃ hthis closure site
  · split
    · exact .pure h₃ _
    · exact .pure h₃ _

theorem executeWith_oblivious (hs : Sheltered (.execute st) s) :
    Oblivious names (Run.executeWith w st) (Run.executeWith w' st) s fs := by
  cases st with
  | expression e => exact (hw (.evaluate e) s fs h).bind fun _ _ _ _ h₁ => .pure h₁ _
  | print e =>
    refine (hw (.evaluate e) s fs h).bind fun v _ _ _ h₁ => ?_
    refine (Oblivious.textOf h₁ v).bind fun text _ _ _ h₂ => ?_
    exact (Oblivious.printLine h₂ text).bind fun _ _ _ _ h₃ => .pure h₃ _
  | var name initial =>
    have finish (v : Value) (t : Session) (fs₁ : Frames) (h₁ : t.frames.SameBut names fs₁) :
        Oblivious names (do Run.defineHere name.lexeme v; return Flow.normal)
          (do Run.defineHere name.lexeme v; return Flow.normal) t fs₁ :=
      (Oblivious.defineHere h₁ name.lexeme v).bind fun _ _ _ _ h₂ => .pure h₂ _
    cases initial with
    | none => exact finish .unset s fs h
    | some e => exact (hw (.evaluate e) s fs h).bind fun v t fs₁ _ h₁ => finish v t fs₁ h₁
  | block body =>
    refine .get ((Oblivious.newFrame h s.context.frame _).bind fun frame t fs₁ hlater h₁ => ?_)
    have hbody := Oblivious.inSequence
      (s := { t with context := (Region.block frame).enter t.context }) h₁
      (fun st => hw (.execute st)) body
    exact hbody.within
  | ifElse condition yes no =>
    refine (hw (.evaluate condition) s fs h).bind fun _ t fs₁ _ h₁ => ?_
    split
    · exact hw (.execute yes) t fs₁ h₁
    · split
      · next no => exact hw (.execute no) t fs₁ h₁
      · exact .pure h₁ _
  | whileLoop condition body => exact hw (.loop condition body) s fs h
  | breakLoop keyword => exact .pure h _
  | function routine =>
    refine .first (a := ⟨routine, s.context.frame, false, homeOf s.context.globals⟩) rfl rfl
      (.refl s) ?_
    refine (Oblivious.functionValue h _).bind fun v _ _ _ h₁ => ?_
    exact (Oblivious.defineHere h₁ _ v).bind fun _ _ _ _ h₂ => .pure h₂ _
  | classDecl name methods classMethods =>
    exact (Oblivious.declareClass h name methods classMethods).bind fun _ _ _ _ h₁ => .pure h₁ _
  | returnValue keyword value =>
    cases value with
    | none => exact .pure h _
    | some e => exact (hw (.evaluate e) s fs h).bind fun _ _ _ _ h₁ => .pure h₁ _
  | importModule keyword path =>
    simp only [Run.executeWith]
    split
    · next path _ =>
      exact (hw (.importModule keyword.site path) s fs h).bind fun _ _ _ _ h₁ => .pure h₁ _
    · exact (Oblivious.fail h _ _).bind fun _ _ _ _ h₁ => .pure h₁ _
  | exportDecl keyword declaration =>
    refine (hw (.execute declaration) s fs h).bind fun _ t fs₁ hlater h₁ => ?_
    split
    · next name _ =>
      -- What is exported is read in the innermost frame, which is not the root.
      have hvalue : fs₁.getLocal? t.context.frame name.lexeme =
          t.frames.getLocal? t.context.frame name.lexeme := by
        refine h₁.getLocal? (.inl ?_)
        rw [hlater.context]
        exact hs.inside
      refine .get ?_
      dsimp only
      rw [hvalue]
      exact (Oblivious.recordExport h₁ _ _).bind fun _ _ _ _ h₂ => .pure h₂ _
    · exact .fail h₁ _ _

theorem loopWith_oblivious (condition : Expr) (body : Stmt) :
    Oblivious names (Run.loopWith w condition body) (Run.loopWith w' condition body) s fs := by
  refine (hw (.evaluate condition) s fs h).bind fun _ t fs₁ _ h₁ => ?_
  split
  · refine (hw (.execute body) t fs₁ h₁).bind fun flow t fs₂ _ h₂ => ?_
    cases flow with
    | normal => exact hw (.loop condition body) t fs₂ h₂
    | breaking => exact .pure h₂ _
    | returning v => exact .pure h₂ _
  · exact .pure h₁ _

omit hw h in
theorem Run.on_importWith {w : Worker} (hnot : s.modules.contains path = false)
    (hsource : s.sources path = some source) (hp : Prepared.program source s.nextId = .ok p) :
    (Run.importWith w site path).on s =
      (Run.within (.topLevel s.frames.next path) (w.interpret p.tree) >>=
        fun _ => w.splice path).on { s.load path p with context := s.context } := by
  simp only [Run.importWith, Run.on_bind, Run.on_get, hnot, hsource, hp, Bool.false_eq_true,
    if_false]
  rfl

theorem importWith_oblivious (site : Site) (path : String) :
    Oblivious names (Run.importWith w site path) (Run.importWith w' site path) s fs := by
  cases hmodule : s.modules.contains path with
  | true =>
    refine .get ?_
    simp only [hmodule, if_true]
    exact hw (.splice path) s fs h
  | false =>
    cases hsource : s.sources path with
    | none =>
      refine .get ?_
      simp only [hmodule, hsource, Bool.false_eq_true, if_false]
      exact .fail h _ _
    | some source =>
      cases hp : Prepared.program source s.nextId with
      | error e =>
        refine .get ?_
        simp only [hmodule, hsource, hp, Bool.false_eq_true, if_false]
        exact .raise h _
      | ok p =>
        have hload := Session.Grows.load hmodule hp
        have hsame : (s.frames.addChild rootFrame).SameBut names (fs.addChild rootFrame) := h.add ..
        have hbody := hw (.interpret p.tree) (s.load path p) (fs.addChild rootFrame) hsame
        refine Oblivious.later (t := { s.load path p with context := s.context })
          (Run.on_importWith hmodule hsource hp) ?_ ⟨hload.within, rfl⟩
          (hbody.within.bind fun _ t fs₁ _ h₁ => hw (.splice path) t fs₁ h₁)
        refine (Run.on_importWith (s := { s with frames := fs }) hmodule hsource hp).trans ?_
        simp only [Session.load, h.next]
        rfl

omit hw in
theorem splice_oblivious (hs : s.Grounded) (path : String) :
    Oblivious names (Run.splice path) (Run.splice path) s fs := by
  refine .get ?_
  dsimp only
  split
  · next m hm =>
    rw [h.bindings m.frame (hs.modules path m hm).1]
    exact .adoptAll h m.frame _
  · exact .pure h _

theorem step_oblivious (hthis : ¬ names "this") (t : Task) (hs : Sheltered t s)
    (hclear : ¬ Uses names t s) : Oblivious names (w.step t) (w'.step t) s fs := by
  cases t with
  | evaluate e => exact evaluateWith_oblivious hw h hs hclear
  | callValue callee site arguments => exact callValueWith_oblivious hw h callee site arguments
  | construct c site arguments => exact constructWith_oblivious hw h c site arguments
  | invoke closure site arguments => exact invokeWith_oblivious hw h hthis closure site arguments
  | execute st => exact executeWith_oblivious hw h hs
  | loop condition body => exact loopWith_oblivious hw h condition body
  | interpret body => exact .every h (fun st => hw (.execute st)) body
  | importModule site path => exact importWith_oblivious hw h site path
  | splice path => exact splice_oblivious h hs.planted.toGrounded path

end

-- ---------------------------------------------------------------------------
-- Whole runs
-- ---------------------------------------------------------------------------

/-- The moments at which the sessions may part: a variable is searched at the root under one of the
names, or code does not stand as it does in a module. -/
def Parting (names : String → Prop) (t : Task) (s : Session) : Prop :=
  Uses names t s ∨ ¬ Sheltered t s

open Classical in
theorem stopped_oblivious (hthis : ¬ names "this") (fuel : Nat) :
    (stoppedWorker (fun t s => if Parting names t s then some parted else none) fuel).AlikeBut names
      (worker fuel) := by
  induction fuel with
  | zero => exact fun t s fs h => .of_on rfl rfl (.refl s) h
  | succ fuel ih =>
    intro t s fs h
    by_cases hparting : Parting names t s
    · refine .inl ?_
      rw [stoppedWorker, Worker.unless_on_of_some (if_pos hparting)]
    · obtain ⟨hclear, hs⟩ := not_or.1 hparting
      refine Oblivious.later ?_ rfl (.refl s)
        (step_oblivious ih h hthis t (Classical.not_not.1 hs) hclear)
      rw [stoppedWorker, Worker.unless_on_of_none (if_neg hparting)]

/-- A run that comes to no moment at which the sessions may part goes the same way in both. -/
theorem worker_oblivious (hthis : ¬ names "this") (h : s.frames.SameBut names fs)
    (hclear : ∀ t' s', ComesTo (Parting names) fuel t s t' s' → ¬ Parting names t' s')
    (hends : ((worker fuel t).on s).1 ≠ .error parted) :
    ∃ fs', (worker fuel t).on { s with frames := fs } = (((worker fuel t).on s).1,
        { ((worker fuel t).on s).2 with frames := fs' }) ∧
      ((worker fuel t).on s).2.frames.SameBut names fs' := by
  classical
  -- The worker that stops where the sessions may part is never stopped, so it runs as the other.
  have hsame := (stoppedWorker_on (Parting names) fuel t s).resolve_right
    fun ⟨t', s', havoid, hm⟩ => hclear t' s' hm havoid
  have hstopped := hsame (fun t s => if Parting names t s then some parted else none)
    fun t s halt hstop => by
      split at hstop
      · assumption
      · cases hstop
  obtain hparted | ⟨-, hrun⟩ := stopped_oblivious hthis fuel t s fs h
  · rw [hstopped] at hparted
    exact absurd hparted hends
  · rwa [hstopped] at hrun

-- ---------------------------------------------------------------------------
-- The top level of a module
-- ---------------------------------------------------------------------------

/-- In a frame of no scope, in which code does not stand, the names are bound to the values. -/
structure Session.Guards (frame : FrameId) (kept : String → Value → Prop) (s : Session) : Prop where
  here : frame < s.frames.size
  top : s.frames.opener? frame = none
  outside : s.context.frame ≠ frame
  bound : ∀ name v, kept name v → s.frames.getLocal? frame name = some v

namespace Session.Guards

variable {s s' : Session} {kept : String → Value → Prop}

theorem grown (h : s.Guards frame kept) (hframes : s.frames.Grows s'.frames)
    (houtside : s'.context.frame ≠ frame)
    (hbound : ∀ name v, kept name v → s.frames.getLocal? frame name = some v →
      s'.frames.getLocal? frame name = some v) : s'.Guards frame kept where
  here := Nat.lt_of_lt_of_le h.here hframes.size
  top := (hframes.opener _ h.here).trans h.top
  outside := houtside
  bound name v hv := hbound name v hv (h.bound name v hv)

theorem add (h : s.Guards frame kept) (parent : Option FrameId) (opener : Option Opener) :
    Session.Guards frame kept { s with frames := s.frames.add parent opener } :=
  h.grown (.add ..) h.outside fun _ _ _ hv => by rwa [Frames.getLocal?_add]

theorem define (h : s.Guards frame kept)
    (hother : other = frame → ∀ v, ¬ kept name v) :
    Session.Guards frame kept { s with frames := s.frames.define other name value } := by
  refine h.grown (.define ..) h.outside fun name' v hv hbound => ?_
  rw [Frames.getLocal?_define, if_neg]
  · exact hbound
  · rintro ⟨rfl, -, rfl⟩
    exact hother rfl v hv

theorem ne_of_opener (h : s.Guards frame kept) (hopener : s.frames.opener? other = some opener) :
    other ≠ frame := by
  rintro rfl
  rw [h.top] at hopener
  cases hopener

end Session.Guards

/-- An assignment binds in the global frame of a unit only what is searched there. -/
theorem Located.assigns {s s' : Session} (hs : Located (.evaluate (.assign node name e)) s)
    (hlater : s.Later s') (hframe : (Run.assignee node name).on s' = (.ok frame, s'))
    (hopener : s'.frames.opener? frame = none) :
    Assigns frame name.lexeme (.evaluate (.assign node name e)) s := by
  obtain ⟨A, σ, hstands⟩ := hs.ready
  obtain ⟨hd, hholder⟩ := (hstands.later hlater).assignee_global hframe hopener
  rw [hlater.context] at hholder
  refine ⟨(node, name), rfl, rfl, by rwa [← hstands.noted_later rfl hlater], ?_⟩
  obtain rfl | ⟨rfl, hnone⟩ := hs.planted.holder hs.globals hlater.grows.frames hholder
  · exact .inl rfl
  · refine .inr ⟨rfl, ?_⟩
    rw [← Option.not_isSome_iff_eq_none] at hnone ⊢
    exact fun hbound => hnone (hlater.grows.frames.bound _ _ hbound)

theorem guards_lawful (havoid : ∀ t s name v, kept name v → ¬ avoid t s →
      Located t s ∧ ¬ Assigns frame name t s) :
    (Regime.ofSession (Session.Guards frame kept)).Lawful avoid where
  function_mono _ _ := trivial
  object_mono _ _ := trivial
  call_mono _ _ := trivial
  called _ := trivial
  returned _ _ := trivial
  closed _ _ := trivial
  classed _ _ := trivial
  constructed _ := trivial
  bound _ _ _ := trivial
  adopted _ _ _ := trivial
  aside hlater hframes _ hs := by
    refine hs.grown hlater.grows.frames ?_ fun _ _ _ hv => by rwa [hframes]
    rw [hlater.context]
    exact hs.outside
  scope hs _ := hs.add _ _
  inner hs hopener _ := hs.define fun heq => absurd heq (hs.ne_of_opener hopener)
  declared hs _ := hs.define fun heq => absurd heq hs.outside
  assigned hclear hlater hs hframe := by
    refine hs.define ?_
    rintro rfl v hv
    obtain ⟨hlocated, hnot⟩ := havoid _ _ _ v hv hclear
    exact hnot (hlocated.assigns hlater hframe hs.top)
  exported _ _ hs _ _ _ _ := hs.grown (.refl _) hs.outside fun _ _ _ hv => hv
  entered hs hopener _ _ := hs.grown (.refl _) (hs.ne_of_opener hopener) fun _ _ _ hv => hv
  loaded _ hs _ _ _ := hs.grown (.add ..) (Nat.ne_of_gt hs.here) fun _ _ _ hv =>
    (Frames.getLocal?_add ..).trans hv
  back hs _ _ hs' := hs'.grown (.refl _) hs.outside fun _ _ _ hv => hv

/-- An entry of a session comes to an import of the module. -/
def Importing (path : String) (s : Session) : Prop :=
  ∃ units s₀ entry p n site, Reachable units s₀ ∧ Entry.prepared entry s₀.nextId = .ok p ∧
    ComesTo nowhere n p.tree.task (s₀.commit p) (.importModule site path) s

section

variable {s s₀ : Session} {body : Prepared (List Stmt)} (hs : Reachable units s₀)
  (hp : Entry.prepared entry s₀.nextId = .ok p)
  (hm : ComesTo nowhere n p.tree.task (s₀.commit p) (.importModule site path) s)
  (hnot : s.modules.contains path = false) (hsource : s.sources path = some source)
  (hbody : Prepared.program source s.nextId = .ok body)
include hs hp hm hnot hsource hbody

/-- The top level of a module that is imported starts as every code does. -/
theorem Reachable.body_ready : ∃ A : Account, ¬ A.strict ∧
    A.contract.pre (.interpret body.tree) (s.load path body) ∧
    homing.Accepts (s.load path body) ∧
    (Kept.contract Session.Planted).pre (.interpret body.tree) (s.load path body) := by
  obtain ⟨haccepts, hmain⟩ := hs.accepted
  have hready := Account.comesTo (fun (h : False) _ _ _ => h.elim)
    (haccepts.entered hmain (entry.checked hp)) hm
  have hhoming := (homing_lawful nowhere).moment homing_start hs hp hm
  have hplanted := (kept_planted.comesTo hs hp hm).1
  have hclear : ¬ nowhere (.importModule site path) s := id
  refine ⟨_, id, ⟨hready.1.load hnot hbody, [], Account.stands_load hready.1 hsource hbody⟩, ?_, ?_⟩
  · exact (homing_lawful nowhere).accepts_load hhoming.1 hclear hnot hsource hbody
  · refine ⟨hplanted.load path body, .inr ?_⟩
    exact ⟨s, path, source, body, hplanted, hnot, hsource, hbody, rfl, rfl⟩

theorem Reachable.located_body
    (h : ComesTo nowhere fuel (.interpret body.tree) (s.load path body) t u) : Located t u := by
  obtain ⟨A, hstrict, hready, hhoming, hplanted⟩ := hs.body_ready hp hm hnot hsource hbody
  have hready' := Account.comesTo (fun h => absurd h hstrict) hready h
  have hhoming' := (homing_lawful nowhere).comesTo (t := .interpret body.tree) ⟨hhoming, trivial⟩ h
  exact ⟨(kept_planted.toKept.comesTo hplanted h).1, hhoming'.1.session.1, hhoming'.1.here,
    hhoming'.1.session.2, A, hready'.2⟩

theorem Reachable.guards_load (hG : s.IsGlobal frame)
    (hkept : ∀ name v, kept name v → s.frames.getLocal? frame name = some v) :
    (Regime.ofSession (Session.Guards frame kept)).contract.pre (.interpret body.tree)
      (s.load path body) := by
  obtain ⟨A, -, -, hhoming, -⟩ := hs.body_ready hp hm hnot hsource hbody
  obtain ⟨hlt, hopener⟩ := (kept_planted.comesTo hs hp hm).1.opener hG
  refine ⟨hhoming.ofSession ⟨?_, ?_, Nat.ne_of_gt hlt, fun name v hv => ?_⟩, trivial⟩
  · exact Nat.lt_of_lt_of_le hlt (Frames.Grows.add ..).size
  · exact (Frames.opener?_add_of_lt hlt).trans hopener
  · exact (Frames.getLocal?_add ..).trans (hkept name v hv)

theorem Reachable.sheltered_body
    (h : ComesTo nowhere fuel (.interpret body.tree) (s.load path body) t u) : Sheltered t u := by
  have hlawful : (Regime.ofSession (Session.Guards rootFrame fun _ _ => False)).Lawful nowhere :=
    guards_lawful fun _ _ _ _ h => h.elim
  have hstart : (Regime.ofSession (Session.Guards rootFrame fun _ _ => False)).contract.pre
      (.interpret body.tree) (s.load path body) :=
    hs.guards_load hp hm hnot hsource hbody (.inl rfl) fun _ _ h => h.elim
  exact ⟨hs.located_body hp hm hnot hsource hbody h, (hlawful.comesTo hstart h).1.session.outside⟩

/-- As long as no variable is searched at the root under one of the names, the top level runs in
the same way where the root binds these otherwise. -/
theorem Reachable.body_oblivious (hthis : ¬ names "this") (hsame : s.frames.SameBut names fs)
    (hclear : ∀ t u, ComesTo (Uses names) fuel (.interpret body.tree) (s.load path body) t u →
      ¬ Uses names t u)
    (hrun : (worker fuel (.interpret body.tree)).on (s.load path body) = (result, ended)) :
    ∃ fs', (worker fuel (.interpret body.tree)).on ({ s with frames := fs }.load path body) =
        (result, { ended with frames := fs' }) ∧ ended.frames.SameBut names fs' := by
  have hload : (s.load path body).frames.SameBut names (fs.addChild rootFrame) := hsame.add ..
  have hparting (t : Task) (u : Session) (htu : ComesTo (Parting names) fuel
      (.interpret body.tree) (s.load path body) t u) : ¬ Parting names t u := by
    rintro (huses | hlost)
    · exact hclear t u (htu.mono fun _ _ => .inl) huses
    · exact hlost (hs.sheltered_body hp hm hnot hsource hbody (htu.mono fun _ _ h => h.elim))
  -- Resolved variables are bound, so the run does not end by itself as a stopped one does.
  obtain ⟨A, hstrict, hready, -⟩ := hs.body_ready hp hm hnot hsource hbody
  have hends : ((worker fuel (.interpret body.tree)).on (s.load path body)).1 ≠ .error parted :=
    fun hparted => (Triple.halt (Account.run_keeps fuel hready hstrict)
      (Prod.ext hparted rfl)).2.2 ⟨_, .unbound "" 0, trivial, rfl⟩
  obtain ⟨fs', hother, hafter⟩ := worker_oblivious hthis hload hparting hends
  rw [hrun] at hother hafter
  refine ⟨fs', ?_, hafter⟩
  simp only [Session.load, hsame.next]
  exact hother

/-- As long as no assignment to the name is searched in the global frame, what is bound there is
kept by the top level. -/
theorem Reachable.body_keeps (hframe : s.IsGlobal frame)
    (hv : s.frames.getLocal? frame name = some v)
    (hclear : ∀ t u, ComesTo (Assigns frame name) fuel (.interpret body.tree) (s.load path body)
      t u → ¬ Assigns frame name t u)
    (hrun : (worker fuel (.interpret body.tree)).on (s.load path body) = (result, ended)) :
    ended.frames.getLocal? frame name = some v := by
  let kept : String → Value → Prop := fun name' v' => name' = name ∧ v' = v
  have hlawful : (Regime.ofSession (Session.Guards frame kept)).Lawful
      fun t u => Assigns frame name t u ∨ ¬ Located t u := by
    refine guards_lawful ?_
    rintro t u _ _ ⟨rfl, rfl⟩ havoid
    obtain ⟨hnot, hlocated⟩ := not_or.1 havoid
    exact ⟨Classical.not_not.1 hlocated, hnot⟩
  have hstart : (Regime.ofSession (Session.Guards frame kept)).contract.pre
      (.interpret body.tree) (s.load path body) := by
    refine hs.guards_load hp hm hnot hsource hbody hframe ?_
    rintro _ _ ⟨rfl, rfl⟩
    exact hv
  have hnever (t : Task) (u : Session) (htu : ComesTo (fun t u => Assigns frame name t u ∨
      ¬ Located t u) fuel (.interpret body.tree) (s.load path body) t u) :
      ¬ (Assigns frame name t u ∨ ¬ Located t u) := by
    rintro (hassigns | hlost)
    · exact hclear t u (htu.mono fun _ _ => .inl) hassigns
    · exact hlost (hs.located_body hp hm hnot hsource hbody (htu.mono fun _ _ h => h.elim))
  have hended := (hlawful.run hstart hnever).leaves.1.session.bound name v ⟨rfl, rfl⟩
  rwa [hrun] at hended

theorem Reachable.apart_after
    (hrun : (worker fuel (.interpret body.tree)).on (s.load path body) = (result, ended))
    (path' : String) (m : Module) (hm' : ended.modules.get? path' = some m) :
    m.frame ≠ rootFrame := by
  obtain ⟨-, -, -, -, hplanted⟩ := hs.body_ready hp hm hnot hsource hbody
  have hended := (kept_planted.toKept.after fuel (.interpret body.tree) hplanted.1).1
  rw [hrun] at hended
  exact (hended.modules path' m hm').1

/-- What runs in a session runs in one that it contains, as long as no variable is searched at the
root under one of the names. -/
theorem Reachable.body_contained (hthis : ¬ names "this") (hcontains : s.Contains names common)
    (hclear : ∀ t u, ComesTo (Uses names) fuel (.interpret body.tree) (s.load path body) t u →
      ¬ Uses names t u)
    (hrun : (worker fuel (.interpret body.tree)).on (s.load path body) = (result, ended)) :
    ∃ shared ended₀, Prepared.program source common.nextId = .ok shared ∧
      (worker fuel (.interpret shared.tree)).on (common.load path shared) = (result, ended₀) ∧
      ended.Contains names ended₀ := by
  obtain ⟨T, hT, W, env, fs, hfs, hcommon⟩ := hcontains
  obtain ⟨fs', hother, hafter⟩ :=
    hs.body_oblivious hp hm hnot hsource hbody hthis hfs hclear hrun
  obtain ⟨shared, hshared⟩ := Prepared.program_accepted_anywhere hbody common.nextId
  rcases hrun₀ : (worker fuel (.interpret shared.tree)).on (common.load path shared) with
    ⟨result₀, ended₀⟩
  have hloads := hcommon.loads hT path source
  have hprepared : Prepared.program source { s with frames := fs }.nextId = .ok body := hbody
  rw [hshared, hprepared] at hloads
  cases hloads with
  | ok hloads =>
    obtain ⟨W', hresult, hheld⟩ := hloads fuel
    rw [hother, hrun₀] at hresult hheld
    obtain rfl : result = result₀ := hresult
    exact ⟨shared, ended₀, hshared, hrun₀, T, hT, W', plain, fs', hafter, hheld⟩

/-- Two sessions that have something in common do the same when a module is imported, as long as in
neither a variable is searched at the root under one of the names. -/
theorem Reachable.body_akin {s' : Session} {body' : Prepared (List Stmt)}
    (hthis : ¬ names "this") (hakin : s.Akin names s') (himports : Importing path s')
    (hbody' : Prepared.program source s'.nextId = .ok body')
    (hclear : ∀ t u, ComesTo (Uses names) fuel (.interpret body.tree) (s.load path body) t u →
      ¬ Uses names t u)
    (hclear' : ∀ t u, ComesTo (Uses names) fuel (.interpret body'.tree) (s'.load path body') t u →
      ¬ Uses names t u)
    (hrun : (worker fuel (.interpret body.tree)).on (s.load path body) = (result, ended)) :
    ∃ ended', (worker fuel (.interpret body'.tree)).on (s'.load path body') = (result, ended') ∧
      ended'.output = ended.output ∧ ended.SameModules ended' ∧ ended.Akin names ended' := by
  have hnot' := (hakin.loaded path).trans hnot
  have hsource' := (hakin.sources path).trans hsource
  obtain ⟨common, hcontains, hcontains'⟩ := hakin
  obtain ⟨units', s₀', entry', p', n', site', hs', hp', hm'⟩ := himports
  rcases hrun' : (worker fuel (.interpret body'.tree)).on (s'.load path body') with
    ⟨result', ended'⟩
  obtain ⟨shared, ended₀, hshared, hcommon, hended⟩ :=
    hs.body_contained hp hm hnot hsource hbody hthis hcontains hclear hrun
  obtain ⟨shared', ended₀', hshared', hcommon', hended'⟩ :=
    hs'.body_contained hp' hm' hnot' hsource' hbody' hthis hcontains' hclear' hrun'
  -- The source is read once for what the sessions have in common, and run once.
  obtain rfl : shared = shared' := Except.ok.inj (hshared.symm.trans hshared')
  obtain ⟨rfl, rfl⟩ : result = result' ∧ ended₀ = ended₀' :=
    Prod.ext_iff.1 (hcommon.symm.trans hcommon')
  have hakin : ended.Akin names ended' := ⟨ended₀, hended, hended'⟩
  refine ⟨ended', rfl, hakin.output, hakin.sameModules ?_ ?_, hakin⟩
  · exact hs.apart_after hp hm hnot hsource hbody hrun
  · exact hs'.apart_after hp' hm' hnot' hsource' hbody' hrun'

/-- Whenever an import runs the top level of a module, it ends as it does, with the same output,
modules, exports and bindings, in every session that differs only in what the root binds the given
names to, as long as no variable is searched at the root under one of them. In sessions that count
differently, as other main programs leave them, it does the same under other identities. And what
the global frame of a unit, such as that of the importing one, has bound before is bound there
afterwards, as long as no assignment to the name is searched in that frame. -/
theorem modules_run_in_isolation
    (hrun : (worker fuel (.interpret body.tree)).on (s.load path body) = (result, ended)) :
    (∀ names fs, ¬ names "this" → s.frames.SameBut names fs →
      (∀ t u, ComesTo (Uses names) fuel (.interpret body.tree) (s.load path body) t u →
        ¬ Uses names t u) →
      ∃ fs', (worker fuel (.interpret body.tree)).on ({ s with frames := fs }.load path body) =
          (result, { ended with frames := fs' }) ∧ ended.frames.SameBut names fs') ∧
    (∀ names s', ¬ names "this" → s.Akin names s' → Importing path s' →
      s'.modules.contains path = false ∧ s'.sources path = some source ∧
      ∃ body', Prepared.program source s'.nextId = .ok body' ∧
        ((∀ t u, ComesTo (Uses names) fuel (.interpret body.tree) (s.load path body) t u →
          ¬ Uses names t u) →
        (∀ t u, ComesTo (Uses names) fuel (.interpret body'.tree) (s'.load path body') t u →
          ¬ Uses names t u) →
        ∃ ended', (worker fuel (.interpret body'.tree)).on (s'.load path body') =
            (result, ended') ∧
          ended'.output = ended.output ∧ ended.SameModules ended' ∧ ended.Akin names ended')) ∧
    s.IsGlobal s.context.globals ∧
    ∀ frame name v, s.IsGlobal frame → s.frames.getLocal? frame name = some v →
      (∀ t u, ComesTo (Assigns frame name) fuel (.interpret body.tree) (s.load path body) t u →
        ¬ Assigns frame name t u) →
      ended.frames.getLocal? frame name = some v := by
  refine ⟨fun names fs hthis hsame hclear => ?_, fun names s' hthis hakin himports => ?_,
    (hs.located hp hm).globals, fun frame name v hframe hv hclear => ?_⟩
  · exact hs.body_oblivious hp hm hnot hsource hbody hthis hsame hclear hrun
  · obtain ⟨body', hbody'⟩ := Prepared.program_accepted_anywhere hbody s'.nextId
    refine ⟨(hakin.loaded path).trans hnot, (hakin.sources path).trans hsource, body', hbody',
      fun hclear hclear' => ?_⟩
    exact hs.body_akin hp hm hnot hsource hbody hthis hakin himports hbody' hclear hclear' hrun
  · exact hs.body_keeps hp hm hnot hsource hbody hframe hv hclear hrun

end

theorem Frames.SameBut.of_define (fs : Frames) (name : String) (v : Value) :
    (fs.define rootFrame name v).SameBut (· = name) fs where
  size := (size_define ..).symm
  parent _ := (parent?_define ..).symm
  opener _ := (opener?_define ..).symm
  bindings id hid := by rw [bindings_define, if_neg fun h => hid h.1]
  root other hother := by rw [getLocal?_define, if_neg fun h => hother h.2.2]

/-- The main program has a variable, and the module `m` has the source. -/
def declared (source : String) : Session :=
  { Session.start (fun path => if path = "m" then some source else none) none (.still 0) with
    frames := Frames.initial.define rootFrame "x" (.bool true) }

def declaration : Prepared Line :=
  ⟨.statements [.var ⟨.identifier, "x", 1⟩ (some (.literal (.bool true)))], [], 0⟩

theorem declared_reachable (source : String) : Reachable [declaration.tree] (declared source) := by
  have hp : (Entry.unit "var x=true;").prepared 0 = .ok declaration := by decide +kernel
  exact Reachable.entered .start hp 3

/-- A module that prints a variable of its own. -/
def ownPrinter : Prepared (List Stmt) :=
  ⟨[.var ⟨.identifier, "a", 1⟩ (some (.literal (.bool true))),
    .print (.var 0 ⟨.identifier, "a", 1⟩)], [], 1⟩

def printed : Session :=
  let s := (declared "var a=true;print a;").load "m" ownPrinter
  { s with frames := s.frames.define 1 "a" (.bool true), output := "true\n" }

/-- The main program has an array in its variable, and has opened a scope. -/
def busy (source : String) : Session :=
  { Session.start (fun path => if path = "m" then some source else none) none (.still 0) with
    frames := (Frames.initial.define rootFrame "x" (.array 0)).addScope rootFrame (.block [])
    arrays := Arrays.empty.add [.bool true] }

def business : Prepared Line :=
  ⟨.statements [.var ⟨.identifier, "x", 1⟩ (some (.array [.literal (.bool true)])), .block []],
    [], 0⟩

theorem busy_reachable (source : String) : Reachable [business.tree] (busy source) := by
  have hp : (Entry.unit "var x=[true];\x7b\x7d").prepared 0 = .ok business := by decide +kernel
  exact Reachable.entered .start hp 4

/-- Apart from the variable, both have what a new session has. -/
theorem declared_akin_busy (source : String) : (declared source).Akin (· = "x") (busy source) := by
  have hother {name : String} {v : Value} (hname : ¬ name = "x") :
      (Frames.initial.define rootFrame "x" v).getLocal? rootFrame name =
        Frames.initial.getLocal? rootFrame name :=
    ((Frames.SameBut.of_define ..).root name hname).symm
  have hdeclared := (declared_reachable source).located importer_prepared (importer_imports _)
  have hbusy := (busy_reachable source).located importer_prepared (importer_imports _)
  have hnotes {node d : Nat} (h : (∅ : Std.TreeMap NodeId Nat)[node]? = some d) : node < 0 := by
    rw [Std.TreeMap.getElem?_emptyc] at h
    cases h
  refine ⟨_, hdeclared.planted.contains_new (fun _ _ => hnotes) rfl rfl rfl rfl fun name hname =>
      hother hname,
    hbusy.planted.contains_new (fun _ _ => hnotes) rfl rfl rfl rfl fun name hname => ?_⟩
  exact (Frames.getLocal?_add ..).trans (hother hname)

/-- The module prints the same when the main program has no variable, and when it has made an array
and opened a scope, and leaves the variable if there is one. -/
theorem printing_module_is_isolated :
    (∃ fs, (worker 4 (.interpret ownPrinter.tree)).on
        ({ declared "var a=true;print a;" with frames := .initial }.load "m" ownPrinter) =
          (.ok (), { printed with frames := fs }) ∧ printed.frames.SameBut (· = "x") fs) ∧
      (∃ ended, (worker 4 (.interpret ownPrinter.tree)).on
          ((busy "var a=true;print a;").load "m" ownPrinter) = (.ok (), ended) ∧
        ended.output = printed.output ∧ printed.SameModules ended) ∧
      printed.frames.getLocal? rootFrame "x" = some (.bool true) := by
  have hm : Prepared.program "var a=true;print a;" 0 = .ok ownPrinter := by decide +kernel
  have hrun : (worker 4 (.interpret ownPrinter.tree)).on
      ((declared "var a=true;print a;").load "m" ownPrinter) = (.ok (), printed) := rfl
  obtain ⟨hsame, hakin, -, hkept⟩ :=
    modules_run_in_isolation (declared_reachable "var a=true;print a;")
      importer_prepared (importer_imports _) rfl rfl hm hrun
  have huses : (stoppedWorker (fun t s => if Uses (· = "x") t s then some .exhausted else none) 4
      (.interpret ownPrinter.tree)).on ((declared "var a=true;print a;").load "m" ownPrinter) =
        (.ok (), printed) := rfl
  have hbusy : ∃ ended, (stoppedWorker
      (fun t s => if Uses (· = "x") t s then some .exhausted else none) 4
      (.interpret ownPrinter.tree)).on ((busy "var a=true;print a;").load "m" ownPrinter) =
        (.ok (), ended) := ⟨_, rfl⟩
  have hassigns : (stoppedWorker (fun t s => if Assigns rootFrame "x" t s then some .exhausted
      else none) 4 (.interpret ownPrinter.tree)).on
        ((declared "var a=true;print a;").load "m" ownPrinter) = (.ok (), printed) := rfl
  obtain ⟨ended₀, hclear⟩ := hbusy
  obtain ⟨-, -, body, hbody, halike⟩ := hakin (· = "x") (busy "var a=true;print a;") (by decide)
    (declared_akin_busy _)
    ⟨_, _, _, _, _, _, busy_reachable _, importer_prepared, importer_imports _⟩
  obtain rfl : body = ownPrinter := Except.ok.inj (hbody.symm.trans hm)
  obtain ⟨ended, hended, houtput, hmodules, -⟩ :=
    halike (not_comesTo_of_on_ok huses) (not_comesTo_of_on_ok hclear)
  exact ⟨hsame (· = "x") .initial (by decide) (.of_define ..) (not_comesTo_of_on_ok huses),
    ⟨ended, hended, houtput, hmodules⟩,
    hkept rootFrame "x" (.bool true) (.inl rfl) rfl (not_comesTo_of_on_ok hassigns)⟩

/-- A module that assigns a variable that it does not declare. -/
def assigning : Prepared (List Stmt) :=
  ⟨[.expression (.assign 1 ⟨.identifier, "x", 1⟩ (.literal .nil))], [], 2⟩

/-- The module changes the variable of the main program, and fails where the main program has
none. -/
theorem module_assigns_the_importing_program :
    Reachable [declaration.tree] (declared "x=nil;") ∧
    ComesTo nowhere 3 importer.tree.task ((declared "x=nil;").commit importer)
      (.importModule ⟨1, "import"⟩ "m") (declared "x=nil;") ∧
    Prepared.program "x=nil;" (declared "x=nil;").nextId = .ok assigning ∧
    (declared "x=nil;").frames.SameBut (· = "x") .initial ∧
    (declared "x=nil;").frames.getLocal? rootFrame "x" = some (.bool true) ∧
    (∃ s, (worker 4 (.interpret assigning.tree)).on ((declared "x=nil;").load "m" assigning) =
      (.ok (), s) ∧ s.frames.getLocal? rootFrame "x" = some .nil) ∧
    ((worker 4 (.interpret assigning.tree)).on
      ({ declared "x=nil;" with frames := .initial }.load "m" assigning)).1 =
        .error (.error (.runtime ⟨1, "x"⟩ (.undefinedVariable "x"))) := by
  have hm : Prepared.program "x=nil;" 0 = .ok assigning := by decide +kernel
  exact ⟨declared_reachable _, importer_imports _, hm, .of_define .., rfl, ⟨_, rfl, rfl⟩, rfl⟩

end Treewalk
