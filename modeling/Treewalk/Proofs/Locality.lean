import Treewalk.Proofs.Contexts
import Treewalk.Proofs.Reaching

/-!
# Calls are local

A call works on what it can reach: from the value that is called, from its arguments, from the root
frame and from the modules. Whatever else was there when the call began is afterwards exactly as it
was, however the call ends; so are the variables of the caller that no function within reach has
captured. What can be reached changes while the call runs, so the argument is turned around: the
cells that were out of reach stand apart, and no task leads to them.
-/

namespace Treewalk

-- ---------------------------------------------------------------------------
-- Sparing what stands apart
-- ---------------------------------------------------------------------------

/-- In the context `c`, the computation leaves the cells of `off` apart, however it ends; what it
gives is as `Q` says. -/
def Spares (off : Cell → Prop) (base : Session) (c : Context) (m : Run α) (Q : α → Prop) : Prop :=
  ∀ s, Apart off base c s →
    Triple m s (fun a s' => Apart off base c s' ∧ Q a) (fun _ s' => Apart off base c s')

/-- The frame and the globals of the context are not among the cells of `off`. -/
structure Context.Within (off : Cell → Prop) (c : Context) : Prop where
  frame : ¬ off (.frame c.frame)
  globals : ¬ off (.frame c.globals)

namespace Spares

variable {off : Cell → Prop} {base : Session} {c : Context} {α β : Type} {Q : α → Prop}
  {R : β → Prop}

theorem pure (h : Q a) : Spares off base c (Pure.pure a) Q :=
  fun _ hs => Triple.pure ⟨hs, h⟩

theorem fail : Spares off base c (Run.fail site fault : Run α) Q :=
  fun _ hs => Triple.fail hs

theorem bind {m : Run α} {f : α → Run β} (hm : Spares off base c m Q)
    (hf : ∀ a, Q a → Spares off base c (f a) R) : Spares off base c (m >>= f) R :=
  fun s hs => Triple.bind (hm s hs) fun a s' h => hf a h.2 s' h.1

theorem get {f : Session → Run β} (hf : ∀ s, Apart off base c s → Spares off base c (f s) R) :
    Spares off base c (MonadState.get >>= f) R :=
  fun s hs => Triple.step (Run.on_get s) (hf s hs s hs)

theorem change {m : Run α}
    (h : ∀ s, Apart off base c s → ∃ a s', m.on s = (.ok a, s') ∧ Apart off base c s' ∧ Q a) :
    Spares off base c m Q := by
  intro s hs
  obtain ⟨a, s', hrun, hafter⟩ := h s hs
  exact Triple.of_ok hrun hafter

theorem ofResult {r : Except Halt α} (h : ∀ a, r = .ok a → Q a) :
    Spares off base c (Run.ofResult r) Q := by
  cases r with
  | ok a => exact .pure (h a rfl)
  | error halt => exact fun s hs => Triple.of_error (Run.on_throw halt s) hs

theorem ofExcept {r : Except Error α} (h : ∀ a, r = .ok a → Q a) :
    Spares off base c (Run.ofExcept r) Q := by
  cases r with
  | ok a => exact .pure (h a rfl)
  | error e => exact fun s hs => Triple.of_error (Run.on_raise e s) hs

theorem each {action : α → Run β} (h : ∀ a, Spares off base c (action a) R) (items : List α) :
    Spares off base c (Run.each action items) fun results => ∀ b ∈ results, R b := by
  induction items with
  | nil => exact .pure (by simp)
  | cons item rest ih =>
    exact (h item).bind fun _ hb => ih.bind fun _ hbs => .pure (List.forall_mem_cons.2 ⟨hb, hbs⟩)

theorem within {m : Run α} (hm : Spares off base (r.enter c) m Q) :
    Spares off base c (Run.within r m) Q := by
  intro s hs
  have hcontext : r.enter s.context = r.enter c := by rw [hs.context]
  have hinner : Apart off base (r.enter c) { s with context := r.enter s.context } :=
    hs.unlinked rfl rfl rfl rfl hcontext
  refine Triple.within_kept ((hm _ hinner).mono ?_ ?_)
  · exact fun _ s' h => ⟨h.1.context.trans hcontext.symm,
      h.1.unlinked rfl rfl rfl rfl hs.context, h.2⟩
  · exact fun _ s' h => ⟨h.context.trans hcontext.symm, h.unlinked rfl rfl rfl rfl hs.context⟩

-- ---------------------------------------------------------------------------
-- Variables and members
-- ---------------------------------------------------------------------------

theorem newFrame (hparent : ¬ off (.frame parent)) :
    Spares off base c (Run.newFrame parent opener) fun frame => ¬ off (.frame frame) := by
  refine .change fun s hs => ⟨_, _, rfl, hs.added ?_, hs.frame_next⟩
  rintro _ ⟨⟩
  exact hparent

theorem define (hframe : ¬ off (.frame frame)) (hv : Clear off v.cells) :
    Spares off base c (Run.define frame name v) fun _ => True :=
  .change fun _ hs => ⟨_, _, rfl, hs.bound hframe hv, trivial⟩

theorem defineHere (hc : c.Within off) (hv : Clear off v.cells) :
    Spares off base c (Run.defineHere name v) fun _ => True := by
  refine .get fun s hs => define ?_ hv
  rw [hs.context]
  exact hc.frame

theorem newIdentity : Spares off base c Run.newIdentity fun _ => True :=
  .change fun _ hs => ⟨_, _, rfl, hs.unlinked rfl rfl rfl rfl hs.context, trivial⟩

theorem newObject : Spares off base c Run.newObject fun id => ¬ off (.fields id) :=
  .change fun _ hs => ⟨_, _, rfl, hs.object, hs.fields_size⟩

theorem newArray {elements : List Value} (h : ∀ v ∈ elements, Clear off v.cells) :
    Spares off base c (Run.newArray elements) fun id => ¬ off (.elements id) :=
  .change fun _ hs => ⟨_, _, rfl, hs.array h, hs.arrays_next⟩

theorem time : Spares off base c Run.time fun _ => True :=
  .change fun _ hs => ⟨_, _, rfl, hs.unlinked rfl rfl rfl rfl hs.context, trivial⟩

theorem textOf : Spares off base c (Run.textOf v) fun _ => True :=
  .get fun _ _ => .ofResult fun _ _ => trivial

theorem setField (hid : ¬ off (.fields object)) (hv : Clear off v.cells) :
    Spares off base c (Run.setField object name v) fun _ => True :=
  .change fun _ hs => ⟨_, _, rfl, hs.field hid hv, trivial⟩

theorem printLine : Spares off base c (Run.printLine text) fun _ => True := by
  intro s hs
  obtain ⟨reason, hrun⟩ | hrun := Run.on_printLine text s
  · exact Triple.of_error hrun hs
  · exact Triple.of_ok hrun ⟨hs.unlinked rfl rfl rfl rfl hs.context, trivial⟩

theorem recordExport (hv : Clear off v.cells) :
    Spares off base c (Run.recordExport name v) fun _ => True := by
  intro s hs
  obtain hrun | ⟨path, m, -, hm, hrun⟩ := Run.on_recordExport name v s
  · exact Triple.of_ok hrun ⟨hs, trivial⟩
  · obtain ⟨hframe, hexports⟩ := hs.modules.get? hm
    exact Triple.of_ok hrun ⟨hs.module path hframe (hexports.insert hv), trivial⟩

theorem lookUp (hc : c.Within off) :
    Spares off base c (Run.lookUp node name) fun v => Clear off v.cells := by
  refine .get fun s hs => ?_
  rw [hs.context]
  split
  · split
    · next hv => exact .pure (hs.getAt? hc.frame hv)
    · exact .fail
  · exact .ofExcept fun v hv => hs.read hc.globals hv

theorem assignee (hc : c.Within off) :
    Spares off base c (Run.assignee node name) fun frame => ¬ off (.frame frame) := by
  refine .get fun s hs => ?_
  rw [hs.context]
  split
  · split
    · next hfound => exact .pure (hs.ancestor hc.frame hfound)
    · exact .fail
  · split
    · next hfound => exact .pure (hs.holderWithin hc.globals hfound)
    · exact .fail

theorem assign (hc : c.Within off) (hv : Clear off v.cells) :
    Spares off base c (Run.assign node name v) fun _ => True :=
  (assignee hc).bind fun _ hframe => define hframe hv

/-- Functions that are made now belong to the context. -/
theorem close (hc : c.Within off) :
    Spares off base c (Run.close routine initializer) fun f => Clear off f.cells := by
  refine .change fun s hs => ⟨⟨routine, s.context.frame, initializer, homeOf s.context.globals⟩, s,
    rfl, hs, clear_closure.2 ?_⟩
  rw [hs.context]
  refine ⟨hc.frame, fun home hhome => ?_⟩
  unfold homeOf at hhome
  split at hhome <;> cases hhome
  exact hc.globals

theorem functionValue {closure : Closure} (h : Clear off closure.cells) :
    Spares off base c (Run.functionValue closure) fun v => Clear off v.cells :=
  newIdentity.bind fun _ _ => .pure h

theorem bindReceiver {closure : Closure} (h : Clear off closure.cells)
    (hv : Clear off v.cells) :
    Spares off base c (Run.bindReceiver closure v) fun f => Clear off f.cells := by
  obtain ⟨hframe, hhome⟩ := clear_closure.1 h
  refine (newFrame hframe).bind fun frame hnew => (define hnew hv).bind fun _ _ => .pure ?_
  exact clear_closure.2 ⟨hnew, hhome⟩

theorem memberOf (hid : ¬ off (.fields object))
    (hmethods : methods.All fun f : Closure => Clear off f.cells) (hv : Clear off v.cells) :
    Spares off base c (Run.memberOf object methods v name) fun v => Clear off v.cells := by
  have hfield : Spares off base c (Run.field? object name.lexeme)
      fun found => ∀ v, found = some v → Clear off v.cells := by
    refine .get fun s hs => .pure fun v hfound => ?_
    obtain ⟨table, htable, hget⟩ := Option.bind_eq_some_iff.1 hfound
    exact (hs.fields hid htable).get? hget
  refine hfield.bind fun found hfound => ?_
  split
  · exact .pure (hfound _ rfl)
  · split
    · next hmethod =>
      exact (bindReceiver (hmethods.get? hmethod) hv).bind fun _ h => functionValue h
    · exact .fail

theorem member (hv : Clear off v.cells) :
    Spares off base c (Run.member v name) fun v => Clear off v.cells := by
  cases v with
  | object id cls =>
    obtain ⟨hid, hmethods⟩ := clear_cons.1 hv
    exact memberOf hid (clear_table.1 hmethods) hv
  | classObject cls =>
    obtain ⟨hid, hmethods⟩ := clear_cons.1 hv
    exact memberOf hid (clear_table.1 (clear_append.1 hmethods).2) hv
  | _ => exact .fail

theorem closeAll (hc : c.Within off) (routines : List Routine) :
    Spares off base c (Run.closeAll isInitializer routines)
      fun pairs => ∀ pair ∈ pairs, Clear off pair.2.cells := by
  induction routines with
  | nil => exact .pure (by simp)
  | cons r rest ih =>
    refine (close hc).bind fun _ hclosure => ih.bind fun _ hrest => .pure ?_
    exact List.forall_mem_cons.2 ⟨hclosure, hrest⟩

theorem declareClass (hc : c.Within off) :
    Spares off base c (Run.declareClass name methods classMethods) fun _ => True := by
  refine (defineHere hc clear_nil).bind fun _ _ => ?_
  refine (closeAll hc classMethods).bind fun _ hown => ?_
  refine (closeAll hc methods).bind fun _ hinstances => newObject.bind fun _ hid => ?_
  refine defineHere hc (clear_cons.2 ⟨hid, clear_append.2 ⟨?_, ?_⟩⟩)
  · exact clear_table.2 (.ofList hinstances)
  · exact clear_table.2 (.ofList hown)

-- ---------------------------------------------------------------------------
-- Modules
-- ---------------------------------------------------------------------------

theorem adopt (hframe : ¬ off (.frame frame)) (hv : Clear off v.cells) :
    Spares off base c (Run.adopt frame v) fun v => Clear off v.cells := by
  cases v with
  | function id closure =>
    simp only [Run.adopt]
    split
    · exact .pure hv
    · refine functionValue (clear_closure.2 ⟨(clear_closure.1 hv).1, ?_⟩)
      rintro _ ⟨⟩
      exact hframe
  | _ => exact .pure hv

theorem adoptAll {entries : List (String × Value)} (hc : c.Within off)
    (hframe : ¬ off (.frame frame)) (hentries : ∀ entry ∈ entries, Clear off entry.2.cells) :
    Spares off base c (Run.adoptAll frame entries) fun _ => True := by
  induction entries with
  | nil => exact .pure trivial
  | cons entry rest ih =>
    obtain ⟨hfirst, hrest⟩ := List.forall_mem_cons.1 hentries
    exact (adopt hframe hfirst).bind fun _ hv => (defineHere hc hv).bind fun _ _ => ih hrest

theorem splice (hc : c.Within off) : Spares off base c (Run.splice path) fun _ => True := by
  refine .get fun s hs => ?_
  split
  · next m hm =>
    have hframe := (hs.modules.get? hm).1
    exact adoptAll hc hframe (hs.bindings hframe)
  · exact .pure trivial

end Spares

-- ---------------------------------------------------------------------------
-- Tasks
-- ---------------------------------------------------------------------------

namespace Locality

/-- What a task needs to keep clear of the cells of `off`. A call does not look at the context that
it is made in. -/
def Ready (off : Cell → Prop) (c : Context) : Task → Prop
  | .callValue callee _ arguments => Clear off callee.cells ∧ ∀ v ∈ arguments, Clear off v.cells
  | .construct cls _ arguments =>
    Clear off (Value.classObject cls).cells ∧ ∀ v ∈ arguments, Clear off v.cells
  | .invoke closure _ arguments => Clear off closure.cells ∧ ∀ v ∈ arguments, Clear off v.cells
  | _ => c.Within off

def Carries (off : Cell → Prop) (flow : Flow) : Prop :=
  ∀ v, flow = .returning v → Clear off v.cells

def Answers (off : Cell → Prop) : (t : Task) → t.Answer → Prop
  | .evaluate _, v => Clear off v.cells
  | .callValue _ _ _, v => Clear off v.cells
  | .construct _ _ _, v => Clear off v.cells
  | .invoke _ _ _, v => Clear off v.cells
  | .execute _, flow => Carries off flow
  | .loop _ _, flow => Carries off flow
  | .interpret _, _ => True
  | .importModule _ _, _ => True
  | .splice _, _ => True

def contract (off : Cell → Prop) (base : Session) : Contract where
  pre t s := Apart off base s.context s ∧ Ready off s.context t
  post t s a s' := Apart off base s.context s' ∧ Answers off t a
  fault _ s _ s' := Apart off base s.context s'

variable {off : Cell → Prop} {base : Session} {c : Context} {w : Worker}

theorem asks (hw : w.Honours (contract off base)) (t : Task) (ht : Ready off c t) :
    Spares off base c (w t) (Answers off t) := by
  intro s hs
  obtain rfl := hs.context
  exact hw t s ⟨hs, ht⟩

theorem carries_normal : Carries off .normal :=
  fun _ h => (nomatch h)

theorem carries_breaking : Carries off .breaking :=
  fun _ h => (nomatch h)

theorem carries_returning (hv : Clear off v.cells) : Carries off (.returning v) := by
  rintro _ ⟨⟩
  exact hv

theorem inSequence_spares (hw : w.Honours (contract off base)) (hc : c.Within off)
    (body : List Stmt) : Spares off base c (Run.inSequence w.execute body) (Carries off) := by
  induction body with
  | nil => exact .pure carries_normal
  | cons st rest ih =>
    refine (asks hw (.execute st) hc).bind fun flow hflow => ?_
    cases flow with
    | normal => exact ih
    | breaking => exact .pure hflow
    | returning v => exact .pure hflow

theorem every_spares (hw : w.Honours (contract off base)) (hc : c.Within off)
    (body : List Stmt) : Spares off base c (Run.every w.execute body) fun _ => True := by
  induction body with
  | nil => exact .pure trivial
  | cons st rest ih => exact (asks hw (.execute st) hc).bind fun _ _ => ih

theorem evaluateWith_spares (hw : w.Honours (contract off base)) (hc : c.Within off) (e : Expr) :
    Spares off base c (Run.evaluateWith w e) fun v => Clear off v.cells := by
  have part (e : Expr) : Spares off base c (w.evaluate e) fun v => Clear off v.cells :=
    asks hw (.evaluate e) hc
  cases e with
  | literal value => exact .pure (Value.plain_toValue value).clear
  | group inner => exact part inner
  | unary op right =>
    exact (part right).bind fun _ _ => .ofResult fun _ hv => (Operator.unary_plain hv).clear
  | binary op left right =>
    refine (part left).bind fun _ _ => (part right).bind fun r hr => .get fun s hs => ?_
    refine .ofResult fun v hv => ?_
    obtain rfl | hplain := Operator.binary_result hv
    · exact hr
    · exact hplain.clear
  | logical op left right =>
    refine (part left).bind fun l hl => ?_
    split
    · exact .pure hl
    · exact part right
  | conditional condition yes no =>
    refine (part condition).bind fun _ _ => ?_
    split
    · exact part yes
    · exact part no
  | var node name => exact .lookUp hc
  | this node keyword => exact .lookUp hc
  | assign node name value =>
    exact (part value).bind fun _ hv => (Spares.assign hc hv).bind fun _ _ => .pure hv
  | call callee paren arguments =>
    refine (part callee).bind fun f hf => (Spares.each part arguments).bind fun vs hvs => ?_
    exact asks hw (.callValue f paren.site vs) ⟨hf, hvs⟩
  | get object name =>
    refine (part object).bind fun _ hobject => (Spares.member hobject).bind fun v hv => ?_
    split
    · next closure =>
      split
      · exact asks hw (.invoke closure name.site []) ⟨hv, by simp⟩
      · exact .pure hv
    · exact .pure hv
  | set object name value =>
    refine (part object).bind fun o ho => ?_
    split
    · next id hid =>
      have hid : ¬ off (.fields id) := by
        cases o <;> cases hid <;> exact (clear_cons.1 ho).1
      exact (part value).bind fun _ hv => (Spares.setField hid hv).bind fun _ _ => .pure hv
    · exact .fail
  | array elements =>
    refine (Spares.each part elements).bind fun vs hvs => (Spares.newArray hvs).bind fun _ hid => ?_
    exact .pure (clear_cons.2 ⟨hid, clear_nil⟩)
  | index target bracket position =>
    refine (part target).bind fun _ ht => (part position).bind fun _ _ => .get fun s hs => ?_
    refine .ofResult fun v hv => ?_
    obtain ⟨id, rfl, hmem⟩ | hplain := Operator.index_result hv
    · exact hs.elements (clear_cons.1 ht).1 v hmem
    · exact hplain.clear

theorem callValueWith_spares (hw : w.Honours (contract off base))
    (hcallee : Clear off callee.cells) (hargs : ∀ v ∈ arguments, Clear off v.cells) :
    Spares off base c (Run.callValueWith w callee site arguments) fun v => Clear off v.cells := by
  unfold Run.callValueWith
  split
  · exact .fail
  · split
    · exact .fail
    · split
      · next closure _ => exact asks hw (.invoke closure site arguments) ⟨hcallee, hargs⟩
      · refine Spares.time.bind fun now _ => .get fun s hs => .ofResult fun v hv => ?_
        exact (Native.call_plain hv).clear
      · next cls _ => exact asks hw (.construct cls site arguments) ⟨hcallee, hargs⟩
      · exact .fail

theorem constructWith_spares (hw : w.Honours (contract off base))
    (hcls : Clear off (Value.classObject cls).cells) (hargs : ∀ v ∈ arguments, Clear off v.cells) :
    Spares off base c (Run.constructWith w cls site arguments) fun v => Clear off v.cells := by
  refine Spares.newObject.bind fun id hid => ?_
  have hmethods := clear_methods hcls
  have hmade : Clear off (Value.object id cls).cells :=
    clear_cons.2 ⟨hid, clear_table.2 hmethods⟩
  split
  · next initializer hinit =>
    refine (Spares.bindReceiver (hmethods.get? hinit) hmade).bind fun bound hbound => ?_
    exact (asks hw (.invoke bound site arguments) ⟨hbound, hargs⟩).bind fun _ _ => .pure hmade
  · exact .pure hmade

theorem bindParameters_spares (hframe : ¬ off (.frame frame)) (params : List Token)
    {values : List Value} (hvalues : ∀ v ∈ values, Clear off v.cells) :
    Spares off base c (Run.bindParameters frame params values) fun _ => True := by
  induction params generalizing values with
  | nil => exact .pure trivial
  | cons p params ih =>
    cases values with
    | nil => exact .pure trivial
    | cons v values =>
      obtain ⟨hv, hrest⟩ := List.forall_mem_cons.1 hvalues
      exact (Spares.define hframe hv).bind fun _ _ => ih hrest

theorem receiver_spares {closure : Closure} (h : ¬ off (.frame closure.frame)) :
    Spares off base c (Run.receiver closure site) fun v => Clear off v.cells := by
  refine .get fun s hs => ?_
  split
  · next hv => exact .pure (hs.getAt? h hv)
  · exact .fail

/-- The body runs in a new frame inside the frame of the closure, with the globals of its module or
those of the main program: the context of the caller plays no part. -/
theorem invokeWith_spares {closure : Closure} (hw : w.Honours (contract off base))
    (hclosure : Clear off closure.cells) (hargs : ∀ v ∈ arguments, Clear off v.cells) :
    Spares off base c (Run.invokeWith w closure site arguments) fun v => Clear off v.cells := by
  obtain ⟨hframe, hhome⟩ := clear_closure.1 hclosure
  refine (Spares.newFrame hframe).bind fun frame hnew => ?_
  refine (bindParameters_spares hnew closure.routine.parameters hargs).bind fun _ _ s hs => ?_
  have hglobals : ¬ off (.frame (closure.home.getD rootFrame)) := by
    cases hcase : closure.home with
    | none => exact hs.root
    | some home => exact hhome home hcase
  refine Spares.bind (.within (inSequence_spares hw ⟨hnew, hglobals⟩ _)) (fun flow hflow => ?_) s hs
  split
  · exact receiver_spares hframe
  · split
    · exact .pure (hflow _ rfl)
    · exact .pure clear_nil

theorem executeWith_spares (hw : w.Honours (contract off base)) (hc : c.Within off) (st : Stmt) :
    Spares off base c (Run.executeWith w st) (Carries off) := by
  have part (e : Expr) : Spares off base c (w.evaluate e) fun v => Clear off v.cells :=
    asks hw (.evaluate e) hc
  cases st with
  | expression e => exact (part e).bind fun _ _ => .pure carries_normal
  | print e =>
    refine (part e).bind fun _ _ => Spares.textOf.bind fun _ _ => ?_
    exact Spares.printLine.bind fun _ _ => .pure carries_normal
  | var name initial =>
    have finish (v : Value) (hv : Clear off v.cells) : Spares off base c
        (do Run.defineHere name.lexeme v; return .normal) (Carries off) :=
      (Spares.defineHere hc hv).bind fun _ _ => .pure carries_normal
    cases initial with
    | none => exact finish .unset clear_nil
    | some e => exact (part e).bind finish
  | block body =>
    refine .get fun s hs => ?_
    rw [hs.context]
    refine (Spares.newFrame hc.frame).bind fun frame hnew => ?_
    have hinner : ((Region.block frame).enter c).Within off := ⟨hnew, hc.globals⟩
    exact Spares.within (inSequence_spares hw hinner body)
  | ifElse condition yes no =>
    refine (part condition).bind fun _ _ => ?_
    split
    · exact asks hw (.execute yes) hc
    · split
      · next no => exact asks hw (.execute no) hc
      · exact .pure carries_normal
  | whileLoop condition body => exact asks hw (.loop condition body) hc
  | breakLoop keyword => exact .pure carries_breaking
  | function routine =>
    refine (Spares.close hc).bind fun _ hclosure => (Spares.functionValue hclosure).bind ?_
    exact fun _ hv => (Spares.defineHere hc hv).bind fun _ _ => .pure carries_normal
  | classDecl name methods classMethods =>
    exact (Spares.declareClass hc).bind fun _ _ => .pure carries_normal
  | returnValue keyword value =>
    cases value with
    | none => exact .pure (carries_returning clear_nil)
    | some e => exact (part e).bind fun _ hv => .pure (carries_returning hv)
  | importModule keyword path =>
    simp only [Run.executeWith]
    split
    · next path _ =>
      exact (asks hw (.importModule keyword.site path) hc).bind fun _ _ => .pure carries_normal
    · exact Spares.bind (Q := fun _ => True) .fail fun _ _ => .pure carries_normal
  | exportDecl keyword declaration =>
    refine (asks hw (.execute declaration) hc).bind fun _ _ => ?_
    split
    · next name _ =>
      refine .get fun s hs => ?_
      have hv : Clear off ((s.frames.getLocal? s.context.frame name.lexeme).getD .nil).cells := by
        rw [hs.context]
        cases hget : s.frames.getLocal? c.frame name.lexeme with
        | none => exact clear_nil
        | some v => exact hs.getLocal? hc.frame hget
      exact (Spares.recordExport hv).bind fun _ _ => .pure carries_normal
    · exact .fail

theorem loopWith_spares (hw : w.Honours (contract off base)) (hc : c.Within off)
    (condition : Expr) (body : Stmt) :
    Spares off base c (Run.loopWith w condition body) (Carries off) := by
  refine (asks hw (.evaluate condition) hc).bind fun _ _ => ?_
  split
  · refine (asks hw (.execute body) hc).bind fun flow hflow => ?_
    cases flow with
    | normal => exact asks hw (.loop condition body) hc
    | breaking => exact .pure carries_normal
    | returning v => exact .pure hflow
  · exact .pure carries_normal

/-- The top level of a module runs in a new frame inside the root frame. -/
theorem apart_load (hs : Apart off base c s) (path : String) (p : Prepared (List Stmt)) :
    Apart off base (s.load path p).context (s.load path p) ∧
      (s.load path p).context.Within off := by
  have hframes : Apart off base c { s with frames := s.frames.addChild rootFrame } := by
    refine hs.added ?_
    rintro _ ⟨⟩
    exact hs.root
  have hmodule := hframes.module path (m := ⟨s.frames.next, .empty⟩) hs.frame_next .empty
  exact ⟨hmodule.unlinked rfl rfl rfl rfl rfl, hs.frame_next, hs.frame_next⟩

theorem importWith_spares (hw : w.Honours (contract off base)) (hc : c.Within off)
    (site : Site) (path : String) :
    Spares off base c (Run.importWith w site path) fun _ => True := by
  intro s hs
  refine Triple.importWith (fun _ => asks hw (.splice path) hc s hs) hs (fun _ _ _ _ => hs) ?_
  intro source p _ _ _
  obtain ⟨hload, hwithin⟩ := apart_load hs path p
  refine (asks hw (.interpret p.tree) hwithin _ hload).mono ?_ ?_
  · exact fun _ s' h => asks hw (.splice path) hc _ (h.1.unlinked rfl rfl rfl rfl hs.context)
  · exact fun _ s' h => h.unlinked rfl rfl rfl rfl hs.context

theorem step_spares (hw : w.Honours (contract off base)) (t : Task) (ht : Ready off c t) :
    Spares off base c (w.step t) (Answers off t) := by
  cases t with
  | evaluate e => exact evaluateWith_spares hw ht e
  | callValue callee site arguments => exact callValueWith_spares hw ht.1 ht.2
  | construct cls site arguments => exact constructWith_spares hw ht.1 ht.2
  | invoke closure site arguments => exact invokeWith_spares hw ht.1 ht.2
  | execute st => exact executeWith_spares hw ht st
  | loop condition body => exact loopWith_spares hw ht condition body
  | interpret body => exact every_spares hw ht body
  | importModule site path => exact importWith_spares hw ht site path
  | splice path => exact .splice ht

theorem worker_spares (fuel : Nat) : (worker fuel).Honours (contract off base) :=
  Contract.honoured (c := contract off base)
    (fun _ hw t s hpre _ => step_spares hw t hpre.2 s hpre.1) (fun _ _ hpre => hpre.1) fuel

/-- A call stands apart from what cannot be reached from the value that is called and its
arguments. -/
theorem call_apart (fuel : Nat) (s : Session) (callee : Value) (site : Site)
    (arguments : List Value) :
    Apart (fun cell => s.Has cell ∧ ¬ s.Reaches (callee.cells ++ Value.cellsOf arguments) cell) s
      s.context ((Run.callValue fuel callee site arguments).on s).2 := by
  have hgiven : Clear (fun cell => s.Has cell ∧
      ¬ s.Reaches (callee.cells ++ Value.cellsOf arguments) cell)
        (callee.cells ++ Value.cellsOf arguments) :=
    fun _ hcell hoff => hoff.2 (.given hcell)
  obtain ⟨hcallee, harguments⟩ := clear_append.1 hgiven
  have hrun := worker_spares fuel (.callValue callee site arguments) s
    ⟨Apart.unreached s _, hcallee, clear_cellsOf.1 harguments⟩
  rcases hr : (Run.callValue fuel callee site arguments).on s with ⟨_ | _, s'⟩
  · exact hrun.halt hr
  · exact (hrun.result hr).1

end Locality

/-- Whatever a call ends in, with a value or with an error from deep within, every frame, every
table of fields and every array that was there before the call, and that cannot be reached from the
value called, the arguments, the root frame or the modules, is afterwards exactly as it was. In
particular a variable of the caller keeps its value, at whatever distance its frame is, if that
frame cannot be reached. -/
theorem calls_are_local (fuel : Nat) (s : Session) (callee : Value) (site : Site)
    (arguments : List Value) :
    let s' := ((Run.callValue fuel callee site arguments).on s).2
    let given := callee.cells ++ Value.cellsOf arguments
    (∀ cell, s.Has cell → ¬ s.Reaches given cell → s.Same s' cell) ∧
    ∀ distance frame name, s.frames.ancestor? s.context.frame distance = some frame →
      s.Has (.frame frame) → ¬ s.Reaches given (.frame frame) →
      s'.frames.getAt? s'.context.frame distance name =
        s.frames.getAt? s.context.frame distance name := by
  intro s' given
  have hapart := Locality.call_apart fuel s callee site arguments
  refine ⟨fun cell hhas hnot => hapart.same cell ⟨hhas, hnot⟩, ?_⟩
  intro distance frame name hframe hhas hnot
  have hlater : s.Later s' := worker_later fuel (.callValue callee site arguments) s
  have hsame : s'.frames.store[frame]? = s.frames.store[frame]? :=
    hapart.same (.frame frame) ⟨hhas, hnot⟩
  have hancestor := hlater.grows.frames.ancestor hframe
  simp only [Frames.getAt?, hlater.context, hframe, hancestor, Frames.getLocal?, Frames.bindings,
    hsame]

/-- A function of the main program that makes the global `g` true. -/
def setter : Closure where
  routine := ⟨⟨.identifier, "f", 1⟩, some [],
    [.expression (.assign 0 ⟨.identifier, "g", 1⟩ (.literal (.bool true)))]⟩
  frame := rootFrame
  initializer := false
  home := none

/-- In a block that has declared `a`, after a global `g` and the setter have been declared. -/
def inBlock : Session :=
  { Session.start (fun _ => none) none (.still 0) with
    frames := (((Frames.initial.define rootFrame "g" .nil).define rootFrame "f"
      (.function 0 setter)).addScope rootFrame (.block [])).define 1 "a" (.text "own")
    nextIdentity := 1
    context := ⟨1, rootFrame, []⟩ }

/-- From the setter only the root frame can be reached. -/
theorem inBlock_reaches (h : inBlock.Reaches (Value.function 0 setter).cells cell) :
    cell = .frame rootFrame := by
  have hroots : inBlock.roots = [.frame rootFrame] := by rfl
  have hlinks : inBlock.links (.frame rootFrame) = [.frame rootFrame] := by rfl
  induction h with
  | given h => exact List.mem_singleton.1 h
  | root h => exact List.mem_singleton.1 (hroots ▸ h)
  | link _ h ih =>
    subst ih
    exact List.mem_singleton.1 (hlinks ▸ h)

/-- The setter changes the global, and leaves the frame of the block and its variable alone. -/
theorem setter_leaves_the_block :
    let s' := ((Run.callValue 8 (.function 0 setter) ⟨1, ")"⟩ []).on inBlock).2
    ((inBlock.frames.get? rootFrame "g").bind inBlock.arrays.text?,
        (s'.frames.get? rootFrame "g").bind s'.arrays.text?) = (some "nil", some "true") ∧
      ¬ inBlock.Reaches (Value.function 0 setter).cells (.frame 1) ∧
      inBlock.Same s' (.frame 1) ∧
      s'.frames.getAt? s'.context.frame 0 "a" =
        inBlock.frames.getAt? inBlock.context.frame 0 "a" := by
  have hnot : ¬ inBlock.Reaches (Value.function 0 setter).cells (.frame 1) :=
    fun h => nomatch inBlock_reaches h
  have hhas : inBlock.Has (.frame 1) := by
    show 1 < inBlock.frames.size
    decide
  have hlocal := calls_are_local 8 inBlock (.function 0 setter) ⟨1, ")"⟩ []
  exact ⟨by decide +kernel, hnot, hlocal.1 _ hhas hnot, hlocal.2 0 1 "a" rfl hhas hnot⟩

end Treewalk
