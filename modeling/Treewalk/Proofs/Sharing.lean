import Treewalk.Proofs.Globals

/-!
# What units share

The root is the frame of the main program's globals and the frame around the globals of every
module, so code of a module comes to a variable of the main program when it looks for a name that
its own globals do not bind. A run that never does so with a name of a given kind is oblivious to
these: from a session in which the root binds them to something else, or not at all, it does the
same.
-/

namespace Treewalk

-- ---------------------------------------------------------------------------
-- Searches from the globals
-- ---------------------------------------------------------------------------

/-- A search for the name from the globals in force comes to the frame. -/
def Session.Searches (s : Session) (name : String) (frame : FrameId) : Prop :=
  s.context.globals = frame ∨
    frame = rootFrame ∧ s.frames.getLocal? s.context.globals name = none

/-- The node has no distance, and the search for its name, which is one of the given names, comes to
the frame. -/
def Session.Seeks (s : Session) (names : String → Prop) (frame : FrameId) (r : NodeId × Token) :
    Prop :=
  names r.2.lexeme ∧ s.distances[r.1]? = none ∧ s.Searches r.2.lexeme frame

instance {s : Session} : Decidable (s.Searches name frame) :=
  inferInstanceAs (Decidable (_ ∨ _))

instance {s : Session} [DecidablePred names] : Decidable (s.Seeks names frame r) :=
  inferInstanceAs (Decidable (_ ∧ _))

/-- The node of a task that itself refers to a variable. -/
def Task.refers? : Task → Option (NodeId × Token)
  | .evaluate e => e.refers?
  | _ => none

def Task.assigns? : Task → Option (NodeId × Token)
  | .evaluate (.assign node name _) => some (node, name)
  | _ => none

/-- A variable with one of the names is about to be read or assigned, and is searched at the
root. -/
abbrev Uses (names : String → Prop) (t : Task) (s : Session) : Prop :=
  ∃ r, r ∈ t.refers? ∧ s.Seeks names rootFrame r

/-- A variable is about to be assigned, and is searched in the frame under the name. -/
abbrev Assigns (frame : FrameId) (name : String) (t : Task) (s : Session) : Prop :=
  ∃ r, r ∈ t.assigns? ∧ s.Seeks (· = name) frame r

-- ---------------------------------------------------------------------------
-- Frames that differ at the root
-- ---------------------------------------------------------------------------

/-- The frames are the same, except that the root may bind the given names otherwise, or not at
all. -/
structure Frames.SameBut (names : String → Prop) (fs fs' : Frames) : Prop where
  size : fs'.size = fs.size
  parent : ∀ id, fs'.parent? id = fs.parent? id
  opener : ∀ id, fs'.opener? id = fs.opener? id
  bindings : ∀ id, id ≠ rootFrame → fs'.bindings id = fs.bindings id
  root : ∀ name, ¬ names name → fs'.getLocal? rootFrame name = fs.getLocal? rootFrame name

namespace Frames

namespace SameBut

variable {names : String → Prop} {fs fs' : Frames}

theorem next (h : fs.SameBut names fs') : fs'.next = fs.next :=
  h.size

theorem add (h : fs.SameBut names fs') (parent : Option FrameId) (opener : Option Opener) :
    (fs.add parent opener).SameBut names (fs'.add parent opener) where
  size := by rw [size_add, size_add, h.size]
  parent id := by rw [parent?_add_eq_ite, parent?_add_eq_ite, h.next, h.size, h.parent]
  opener id := by rw [opener?_add_eq_ite, opener?_add_eq_ite, h.next, h.opener]
  bindings id hid := by rw [bindings_add, bindings_add, h.bindings id hid]
  root name hname := by rw [getLocal?_add, getLocal?_add, h.root name hname]

theorem define (h : fs.SameBut names fs') (frame : FrameId) (name : String) (v : Value) :
    (fs.define frame name v).SameBut names (fs'.define frame name v) where
  size := by rw [size_define, size_define, h.size]
  parent id := by rw [parent?_define, parent?_define, h.parent]
  opener id := by rw [opener?_define, opener?_define, h.opener]
  bindings id hid := by
    rw [bindings_define, bindings_define, h.size, h.bindings id hid]
    split
    · next heq => rw [← heq.1, h.bindings id hid]
    · rfl
  root other hother := by rw [getLocal?_define, getLocal?_define, h.size, h.root other hother]

theorem getLocal? {id : FrameId} (h : fs.SameBut names fs')
    (hseen : id ≠ rootFrame ∨ ¬ names name) : fs'.getLocal? id name = fs.getLocal? id name := by
  by_cases hid : id = rootFrame
  · subst hid
    exact h.root name (hseen.resolve_left fun hne => hne rfl)
  · rw [Frames.getLocal?, Frames.getLocal?, h.bindings id hid]

theorem ancestor? (h : fs.SameBut names fs') (id : FrameId) (distance : Nat) :
    fs'.ancestor? id distance = fs.ancestor? id distance := by
  induction distance generalizing id with
  | zero => rfl
  | succ distance ih => simp only [Frames.ancestor?, h.parent, ih]

theorem holder?_of_not (h : fs.SameBut names fs') (hname : ¬ names name) (id : FrameId) :
    fs'.holder? id name = fs.holder? id name := by
  have within (reach : Nat) : fs'.holderWithin name reach id = fs.holderWithin name reach id := by
    induction reach generalizing id with
    | zero => rfl
    | succ reach ih =>
      have hcontains : (fs'.bindings id).contains name = (fs.bindings id).contains name := by
        rw [contains_bindings, contains_bindings, h.getLocal? (.inr hname)]
      rw [holderWithin, holderWithin, hcontains, h.parent]
      simp only [ih]
  exact within (id + 1)

/-- A search that does not come to the root with one of the names ends as it did, where the name is
bound as it was. -/
theorem holder? (h : fs.SameBut names fs')
    (hseen : names name → globals ≠ rootFrame ∧ (fs.getLocal? globals name).isSome) :
    fs'.holder? globals name = fs.holder? globals name ∧
      ∀ frame, fs.holder? globals name = some frame →
        fs'.getLocal? frame name = fs.getLocal? frame name := by
  by_cases hname : names name
  · obtain ⟨hne, hbound⟩ := hseen hname
    have hsame : fs'.getLocal? globals name = fs.getLocal? globals name := h.getLocal? (.inl hne)
    rw [holder?_self hbound, holder?_self (by rwa [hsame])]
    refine ⟨rfl, ?_⟩
    rintro _ ⟨⟩
    exact hsame
  · exact ⟨h.holder?_of_not hname globals, fun frame _ => h.getLocal? (.inr hname)⟩

theorem read (h : fs.SameBut names fs') {name : Token}
    (hseen : names name.lexeme → globals ≠ rootFrame ∧ (fs.getLocal? globals name.lexeme).isSome) :
    fs'.read globals name = fs.read globals name := by
  obtain ⟨hholder, hvalue⟩ := h.holder? hseen
  unfold Frames.read Frames.get?
  rw [hholder]
  cases hfound : fs.holder? globals name.lexeme with
  | none => rfl
  | some frame => simp only [hvalue frame hfound]

end SameBut

end Frames

theorem Session.not_seeks {s : Session} {r : NodeId × Token} (h : ¬ s.Seeks names rootFrame r)
    (hd : s.distances[r.1]? = none) (hname : names r.2.lexeme) :
    s.context.globals ≠ rootFrame ∧ (s.frames.getLocal? s.context.globals r.2.lexeme).isSome := by
  refine ⟨fun hglobals => h ⟨hname, hd, .inl hglobals⟩, ?_⟩
  rw [Option.isSome_iff_ne_none]
  exact fun hnone => h ⟨hname, hd, .inr ⟨rfl, hnone⟩⟩

-- ---------------------------------------------------------------------------
-- Oblivious computations
-- ---------------------------------------------------------------------------

/-- How a run is stopped that is about to tell the sessions apart. No run ends so by itself. -/
def parted : Halt :=
  .error (.runtime ⟨0, ""⟩ (.unbound "" 0))

/-- Unless the first computation is stopped, the second ends as it does, when it starts with other
frames that are the same but for the given names; and the sessions are afterwards the same but for
these. -/
def Oblivious (names : String → Prop) (m m' : Run α) (s : Session) (fs : Frames) : Prop :=
  (m.on s).1 = .error parted ∨
    s.Later (m.on s).2 ∧ ∃ fs', m'.on { s with frames := fs } =
      ((m.on s).1, { (m.on s).2 with frames := fs' }) ∧ (m.on s).2.frames.SameBut names fs'

namespace Oblivious

variable {names : String → Prop} {s t : Session} {fs fs' : Frames} {m m' : Run α}
  {n n' : Run α} {f f' : α → Run β}

theorem of_on (hm : m.on s = (r, t))
    (hm' : m'.on { s with frames := fs } = (r, { t with frames := fs' }))
    (hlater : s.Later t) (h : t.frames.SameBut names fs') : Oblivious names m m' s fs := by
  refine .inr ?_
  rw [hm]
  exact ⟨hlater, fs', hm', h⟩

theorem pure (h : s.frames.SameBut names fs) (a : α) :
    Oblivious names (Pure.pure a) (Pure.pure a) s fs :=
  of_on rfl rfl (.refl s) h

theorem raise (h : s.frames.SameBut names fs) (e : Error) :
    Oblivious names (Run.raise e : Run α) (Run.raise e) s fs :=
  of_on rfl rfl (.refl s) h

theorem fail (h : s.frames.SameBut names fs) (site : Site) (fault : RuntimeFault) :
    Oblivious names (Run.fail site fault : Run α) (Run.fail site fault) s fs :=
  raise h _

theorem ofResult (h : s.frames.SameBut names fs) (r : Except Halt α) :
    Oblivious names (Run.ofResult r) (Run.ofResult r) s fs := by
  cases r with
  | ok a => exact pure h a
  | error halt => exact of_on rfl rfl (.refl s) h

theorem ofExcept (h : s.frames.SameBut names fs) (r : Except Error α) :
    Oblivious names (Run.ofExcept r) (Run.ofExcept r) s fs := by
  cases r with
  | ok a => exact pure h a
  | error e => exact raise h e

/-- The rest of a computation goes on from later sessions that are the same again. -/
theorem bind (hm : Oblivious names m m' s fs)
    (hf : ∀ a t fs', s.Later t → t.frames.SameBut names fs' → Oblivious names (f a) (f' a) t fs') :
    Oblivious names (m >>= f) (m' >>= f') s fs := by
  obtain hparted | ⟨hlater, fs₁, hrun, hsame⟩ := hm
  · exact .inl (Run.on_bind_error hparted)
  · rcases hr : m.on s with ⟨halt | a, t⟩ <;> rw [hr] at hlater hrun hsame
    · refine of_on (t := t) (r := .error halt) ?_ ?_ hlater hsame
      · rw [Run.on_bind, hr]
      · rw [Run.on_bind, hrun]
    · obtain hparted | ⟨hlater', fs₂, hrest, hsame'⟩ := hf a t fs₁ hlater hsame
      · refine .inl ?_
        rw [Run.on_bind, hr]
        exact hparted
      · refine of_on (t := ((f a).on t).2) (r := ((f a).on t).1) ?_ ?_ (hlater.trans hlater') hsame'
        · rw [Run.on_bind, hr]
        · rw [Run.on_bind, hrun]
          exact hrest

/-- What leads to later sessions that are the same goes on from there. -/
theorem later (hm : m.on s = n.on t) (hm' : m'.on { s with frames := fs } =
      n'.on { t with frames := fs' }) (hlater : s.Later t) (h : Oblivious names n n' t fs') :
    Oblivious names m m' s fs := by
  obtain hparted | ⟨hlater', fs₁, hrun, hsame⟩ := h
  · exact .inl (by rwa [hm])
  · exact of_on hm (hm'.trans hrun) (hlater.trans hlater') hsame

theorem first (hm : m.on s = (.ok a, t)) (hm' : m'.on { s with frames := fs } =
      (.ok a, { t with frames := fs' })) (hlater : s.Later t)
    (hf : Oblivious names (f a) (f' a) t fs') : Oblivious names (m >>= f) (m' >>= f') s fs := by
  refine hf.later ?_ ?_ hlater
  · rw [Run.on_bind, hm]
  · rw [Run.on_bind, hm']

theorem get {f f' : Session → Run α}
    (hf : Oblivious names (f s) (f' { s with frames := fs }) s fs) :
    Oblivious names (MonadState.get >>= f) (MonadState.get >>= f') s fs :=
  hf

/-- A change of the session that leaves the frames as they are. -/
theorem change (hm : m.on s = (.ok a, t))
    (hm' : m'.on { s with frames := fs } = (.ok a, { t with frames := fs })) (hlater : s.Later t)
    (hframes : t.frames = s.frames) (h : s.frames.SameBut names fs) : Oblivious names m m' s fs :=
  of_on hm hm' hlater (by rwa [hframes])

theorem within {r : Region}
    (hm : Oblivious names m m' { s with context := r.enter s.context } fs) :
    Oblivious names (Run.within r m) (Run.within r m') s fs := by
  obtain hparted | ⟨hlater, fs₁, hrun, hsame⟩ := hm
  · exact .inl hparted
  · refine of_on (Run.on_within_of_kept rfl hlater.context) ?_ ⟨hlater.grows.within, rfl⟩ hsame
    exact Run.on_within_of_kept (s := { s with frames := fs }) hrun hlater.context

theorem each {action action' : α → Run β} (h : s.frames.SameBut names fs)
    (hstep : ∀ a t fs', t.frames.SameBut names fs' → Oblivious names (action a) (action' a) t fs')
    (items : List α) : Oblivious names (Run.each action items) (Run.each action' items) s fs := by
  induction items generalizing s fs with
  | nil => exact pure h _
  | cons a items ih =>
    refine (hstep a s fs h).bind fun _ t fs' _ h' => ?_
    exact (ih h').bind fun _ _ _ _ h'' => pure h'' _

theorem inSequence {action action' : Stmt → Run Flow} (h : s.frames.SameBut names fs)
    (hstep : ∀ st t fs', t.frames.SameBut names fs' →
      Oblivious names (action st) (action' st) t fs') (body : List Stmt) :
    Oblivious names (Run.inSequence action body) (Run.inSequence action' body) s fs := by
  induction body generalizing s fs with
  | nil => exact pure h _
  | cons st body ih =>
    refine (hstep st s fs h).bind fun flow t fs' _ h' => ?_
    cases flow with
    | normal => exact ih h'
    | breaking => exact pure h' _
    | returning v => exact pure h' _

theorem every {action action' : Stmt → Run Flow} (h : s.frames.SameBut names fs)
    (hstep : ∀ st t fs', t.frames.SameBut names fs' →
      Oblivious names (action st) (action' st) t fs') (body : List Stmt) :
    Oblivious names (Run.every action body) (Run.every action' body) s fs := by
  induction body generalizing s fs with
  | nil => exact pure h _
  | cons st body ih => exact (hstep st s fs h).bind fun _ _ _ _ h' => ih h'

-- ---------------------------------------------------------------------------
-- Variables and members
-- ---------------------------------------------------------------------------

theorem newFrame (h : s.frames.SameBut names fs) (outer : FrameId) (opener : Opener) :
    Oblivious names (Run.newFrame outer opener) (Run.newFrame outer opener) s fs := by
  refine of_on rfl ?_ (Change.frame outer opener).later (h.add (some outer) (some opener))
  show ((.ok fs.next, _) : Except Halt FrameId × Session) = _
  rw [h.next]
  rfl

theorem define (h : s.frames.SameBut names fs) (frame : FrameId) (name : String) (v : Value) :
    Oblivious names (Run.define frame name v) (Run.define frame name v) s fs :=
  of_on rfl rfl (Change.bind frame name v).later (h.define frame name v)

theorem defineHere (h : s.frames.SameBut names fs) (name : String) (v : Value) :
    Oblivious names (Run.defineHere name v) (Run.defineHere name v) s fs :=
  define h s.context.frame name v

theorem newIdentity (h : s.frames.SameBut names fs) :
    Oblivious names Run.newIdentity Run.newIdentity s fs :=
  change rfl rfl Change.identity.later rfl h

theorem newArray (h : s.frames.SameBut names fs) (elements : List Value) :
    Oblivious names (Run.newArray elements) (Run.newArray elements) s fs :=
  change rfl rfl (Change.array elements).later rfl h

theorem time (h : s.frames.SameBut names fs) : Oblivious names Run.time Run.time s fs :=
  change rfl rfl Change.tick.later rfl h

theorem textOf (h : s.frames.SameBut names fs) (v : Value) :
    Oblivious names (Run.textOf v) (Run.textOf v) s fs :=
  get (ofResult h _)

theorem newObject (h : s.frames.SameBut names fs) :
    Oblivious names Run.newObject Run.newObject s fs :=
  change rfl rfl Change.object.later rfl h

theorem setField (h : s.frames.SameBut names fs) (object : ObjectId) (name : String) (v : Value) :
    Oblivious names (Run.setField object name v) (Run.setField object name v) s fs :=
  change rfl rfl (Change.field object name v).later rfl h

theorem functionValue (h : s.frames.SameBut names fs) (c : Closure) :
    Oblivious names (Run.functionValue c) (Run.functionValue c) s fs :=
  (newIdentity h).bind fun _ _ _ _ h' => pure h' _

theorem printLine (h : s.frames.SameBut names fs) (text : String) :
    Oblivious names (Run.printLine text) (Run.printLine text) s fs := by
  refine get ?_
  dsimp only
  split
  · exact raise h _
  · exact change rfl rfl (Change.printed text).later rfl h

theorem bindReceiver (h : s.frames.SameBut names fs) (c : Closure) (v : Value) :
    Oblivious names (Run.bindReceiver c v) (Run.bindReceiver c v) s fs :=
  (newFrame h c.frame _).bind fun frame _ _ _ h' =>
    (define h' frame "this" v).bind fun _ _ _ _ h'' => pure h'' _

theorem memberOf (h : s.frames.SameBut names fs) (object : ObjectId) (methods : Table Closure)
    (v : Value) (name : Token) : Oblivious names (Run.memberOf object methods v name)
      (Run.memberOf object methods v name) s fs := by
  refine first (a := s.fields[object]?.bind (·.get? name.lexeme)) rfl rfl (.refl s) ?_
  split
  · exact pure h _
  · split
    · exact (bindReceiver h _ v).bind fun c _ _ _ h' => functionValue h' c
    · exact fail h _ _

theorem member (h : s.frames.SameBut names fs) (v : Value) (name : Token) :
    Oblivious names (Run.member v name) (Run.member v name) s fs := by
  unfold Run.member
  split
  · exact memberOf h _ _ _ name
  · exact memberOf h _ _ _ name
  · exact fail h _ _

theorem bindParameters (h : s.frames.SameBut names fs) (frame : FrameId) (params : List Token)
    (values : List Value) : Oblivious names (Run.bindParameters frame params values)
      (Run.bindParameters frame params values) s fs := by
  induction params generalizing values s fs with
  | nil => exact pure h _
  | cons p params ih =>
    cases values with
    | nil => exact pure h _
    | cons v values => exact (define h frame p.lexeme v).bind fun _ _ _ _ h' => ih h' values

theorem declareClass (h : s.frames.SameBut names fs) (name : Token)
    (methods classMethods : List Routine) :
    Oblivious names (Run.declareClass name methods classMethods)
      (Run.declareClass name methods classMethods) s fs := by
  refine (defineHere h name.lexeme .nil).bind fun _ t fs₁ _ h₁ => ?_
  refine first (Account.closeAll_on ..) (Account.closeAll_on ..) (.refl t) ?_
  refine first (Account.closeAll_on ..) (Account.closeAll_on ..) (.refl t) ?_
  exact (newObject h₁).bind fun _ _ _ _ h₂ => defineHere h₂ _ _

theorem recordExport (h : s.frames.SameBut names fs) (name : String) (v : Value) :
    Oblivious names (Run.recordExport name v) (Run.recordExport name v) s fs := by
  cases hpath : s.context.loading.head? with
  | none =>
    refine change (a := ()) (t := s) ?_ ?_ (.refl s) rfl h <;>
      simp only [Run.recordExport, Run.on_modify, hpath]
  | some path =>
    cases hm : s.modules.get? path with
    | none =>
      refine change (a := ()) (t := s) ?_ ?_ (.refl s) rfl h <;>
        simp only [Run.recordExport, Run.on_modify, hpath, hm]
    | some m =>
      refine change (a := ()) ?_ ?_ (Change.exported name v hm).later rfl h <;>
        simp only [Run.recordExport, Run.on_modify, hpath, hm]

theorem adoptAll (h : s.frames.SameBut names fs) (frame : FrameId)
    (entries : List (String × Value)) :
    Oblivious names (Run.adoptAll frame entries) (Run.adoptAll frame entries) s fs := by
  induction entries generalizing s fs with
  | nil => exact pure h _
  | cons entry rest ih =>
    refine Oblivious.bind ?_ fun v _ _ _ h₁ =>
      (defineHere h₁ entry.1 v).bind fun _ _ _ _ h₂ => ih h₂
    unfold Run.adopt
    split
    · split
      · exact pure h _
      · exact functionValue h _
    · exact pure h _

theorem receiver (h : s.frames.SameBut names fs) (hthis : ¬ names "this") (closure : Closure)
    (site : Site) :
    Oblivious names (Run.receiver closure site) (Run.receiver closure site) s fs := by
  have hsame : fs.getAt? closure.frame 0 "this" = s.frames.getAt? closure.frame 0 "this" :=
    h.getLocal? (.inr hthis)
  refine get ?_
  dsimp only
  rw [hsame]
  split
  · exact pure h _
  · exact fail h _ _

/-- What stands in a scope is found in the frame of that scope, and everything else is not searched
at the root under one of the names. -/
theorem lookUp {A : Account} {node : NodeId} (h : s.frames.SameBut names fs) (hs : s.Grounded)
    (hstands : A.Stands s σ (.expression e)) (hr : e.refers? = some (node, name))
    (hclear : ¬ s.Seeks names rootFrame (node, name)) :
    Oblivious names (Run.lookUp node name) (Run.lookUp node name) s fs := by
  refine get ?_
  dsimp only
  cases hd : s.distances[node]? with
  | some d =>
    obtain ⟨-, scope, frame, -, hframe, hopener, -⟩ := hstands.found hr hd
    have hne : frame ≠ rootFrame := by
      rintro rfl
      rw [hs.root.2] at hopener
      cases hopener
    have hsame : fs.getAt? s.context.frame d name.lexeme =
        s.frames.getAt? s.context.frame d name.lexeme := by
      simp only [Frames.getAt?, h.ancestor?, hframe, h.getLocal? (.inl hne)]
    dsimp only
    rw [hsame]
    split
    · exact pure h _
    · exact fail h _ _
  | none =>
    dsimp only
    rw [h.read (Session.not_seeks hclear hd)]
    exact ofExcept h _

/-- Behind the evaluation of the value, the variable is searched as it would have been before. -/
theorem assign {A : Account} {node : NodeId} {s₀ : Session} (h : s.frames.SameBut names fs)
    (hlater : s₀.Later s) (hstands : A.Stands s₀ σ (.expression e))
    (hr : e.refers? = some (node, name)) (hclear : ¬ s₀.Seeks names rootFrame (node, name))
    (v : Value) : Oblivious names (Run.assign node name v) (Run.assign node name v) s fs := by
  refine Oblivious.bind (get ?_) fun frame _ _ _ h' => define h' frame _ v
  dsimp only
  cases hd : s.distances[node]? with
  | some d =>
    dsimp only
    rw [h.ancestor?]
    split
    · exact pure h _
    · exact fail h _ _
  | none =>
    have hd₀ : s₀.distances[node]? = none := by rw [← hstands.noted_later hr hlater, hd]
    have hseen (hname : names name.lexeme) : s.context.globals ≠ rootFrame ∧
        (s.frames.getLocal? s.context.globals name.lexeme).isSome := by
      obtain ⟨hne, hbound⟩ := Session.not_seeks hclear hd₀ hname
      rw [hlater.context]
      exact ⟨hne, hlater.grows.frames.bound _ _ hbound⟩
    dsimp only
    rw [(h.holder? hseen).1]
    split
    · exact pure h _
    · exact raise h _

end Oblivious

end Treewalk
