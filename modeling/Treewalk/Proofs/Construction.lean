import Treewalk.Proofs.Lives
import Treewalk.Proofs.Properties

/-!
# Construction

A class is made by its declaration and never changes: of methods with one name the last counts, and
the fields of the class or of its instances are kept elsewhere. A call of it makes an instance that
is like no object before, and runs the body of `init` once, for that instance. An initializer that
is read of an instance is bound to it, and gives it, since the frame of the receiver is left alone.
-/

namespace Treewalk

-- ---------------------------------------------------------------------------
-- Methods of declared classes
-- ---------------------------------------------------------------------------

theorem Table.get?_ofList (pairs : List (String × α)) (name : String) :
    (Table.ofList pairs).get? name = pairs.reverse.lookup name := by
  induction pairs using List.reverseRecOn with
  | nil => rfl
  | append_singleton pairs pair ih =>
    have hinsert : Table.ofList (pairs ++ [pair]) = (Table.ofList pairs).insert pair.1 pair.2 := by
      simp only [ofList, List.foldl_append, List.foldl_cons, List.foldl_nil]
    rw [hinsert, get?_insert, ih, List.reverse_append, List.reverse_singleton,
      List.singleton_append, List.lookup_cons]
    by_cases hname : name = pair.1
    · simp [hname]
    · simp [hname, beq_false_of_ne hname]

/-- Of routines with the name the last. -/
def Routine.latest (name : String) (routines : List Routine) : Option Routine :=
  routines.reverse.find? (·.name.lexeme = name)

theorem lookup_routines (closed : Routine → α) (routines : List Routine) (name : String) :
    (routines.map fun r => (r.name.lexeme, closed r)).lookup name =
      (routines.find? (·.name.lexeme = name)).map closed := by
  induction routines with
  | nil => rfl
  | cons r rest ih =>
    rw [List.map_cons, List.lookup_cons, List.find?_cons]
    by_cases hname : r.name.lexeme = name
    · simp [hname]
    · simp [hname, beq_false_of_ne (Ne.symm hname), ih]

namespace Class

variable {id : ObjectId} {name : Token} {methods classMethods : List Routine} {frame : FrameId}
  {home : Option FrameId}

theorem methods_made (method : String) :
    (Class.made id name methods classMethods frame home).methods.get? method =
      (Routine.latest method methods).map fun r =>
        ⟨r, frame, r.name.lexeme = "init", home⟩ := by
  rw [Class.made, Table.get?_ofList, ← List.map_reverse]
  exact lookup_routines (fun r => (⟨r, frame, r.name.lexeme = "init", home⟩ : Closure)) _ _

/-- The initializer of a class that is declared so. -/
def declaredInit (methods : List Routine) (frame : FrameId) (home : Option FrameId) :
    Option Closure :=
  (Routine.latest "init" methods).map fun r => ⟨r, frame, true, home⟩

theorem init_made : (Class.made id name methods classMethods frame home).methods.get? "init" =
    declaredInit methods frame home := by
  rw [methods_made, declaredInit]
  refine Option.map_congr fun r hr => ?_
  have hname := List.find?_some hr
  rw [hname]

theorem arity_made : (Class.made id name methods classMethods frame home).arity =
    ((Routine.latest "init" methods).map Routine.arity).getD 0 := by
  rw [Class.arity, init_made, declaredInit]
  cases Routine.latest "init" methods <;> rfl

end Class

/-- The initializer of a class is marked as such. -/
theorem Account.Classed.initializer {A : Account} {c : Class} (h : A.Classed s c)
    (hinit : c.methods.get? "init" = some init) : init.initializer = true := by
  obtain ⟨unit, top, σ, name, methods, classMethods, frame, home, -, -, hmade⟩ := h.declared
  rw [hmade, Class.init_made] at hinit
  obtain ⟨r, -, rfl⟩ := Option.map_eq_some_iff.1 hinit
  rfl

-- ---------------------------------------------------------------------------
-- Initializers that are called
-- ---------------------------------------------------------------------------

theorem Session.seats_seat (s : Session) (method : Closure) (receiver : Value) :
    (s.seat method receiver).frames.Seats s.frames.next receiver where
  opener := by
    rw [seat, Frames.opener?_define]
    exact ⟨method.routine, Frames.opener?_add_next _⟩
  bound := s.getLocal?_seat method receiver

namespace Poised

variable {units : List Line} {s s' : Session}

/-- An initializer gives the receiver that it is bound to, whatever its body returns. -/
theorem invoke_initializer {c : Closure} (h : Poised units (.invoke c site arguments) s)
    (hinit : c.initializer = true) (hseats : s.frames.Seats c.frame receiver) (fuel : Nat) :
    (worker (fuel + 1) (.invoke c site arguments)).on s = Run.regardless receiver s.context
      ((Run.inSequence (worker fuel).execute c.routine.body).on (s.enter c arguments)) :=
  Run.on_invoke_initializer hinit (h.seats_after hseats (fuel + 1)).bound

end Poised

/-- The arguments of a call leave the frame of a receiver as it is. -/
theorem Settled.each_seats {es : List Expr} (hs : Settled units s)
    (hstands : ∀ e ∈ es, (Account.mk units False).Stands s σ (.expression e))
    (hseats : s.frames.Seats frame receiver) (fuel : Nat) :
    Triple (Run.each (worker fuel).evaluate es) s
      (fun vs s' => Settled units s' ∧ s.Precedes s' ∧ s'.frames.Seats frame receiver ∧
        ∀ v ∈ vs, Known units s' v)
      (fun _ _ => True) := by
  induction es generalizing s with
  | nil => exact Triple.pure ⟨hs, .refl s, hseats, by simp⟩
  | cons e es ih =>
    have hpoised : Poised units (.evaluate e) s :=
      ⟨hs, ⟨σ, hstands e List.mem_cons_self⟩, trivial⟩
    refine Triple.bind (R := fun v s₁ => (worker fuel (.evaluate e)).on s = (.ok v, s₁)) ?_ ?_
    · unfold Triple
      rcases (worker fuel (.evaluate e)).on s with ⟨_ | _, _⟩
      · trivial
      · rfl
    · intro v s₁ hrun
      obtain ⟨hs₁, hprecedes⟩ := hpoised.leaves hrun
      have hseats₁ := hpoised.seats_after hseats fuel
      rw [hrun] at hseats₁
      refine Triple.bind (ih hs₁ (fun e' he' => ?_) hseats₁) ?_
      · exact (hstands e' (List.mem_cons_of_mem _ he')).later hprecedes.later
      · rintro vs s₂ ⟨hs₂, hprecedes₂, hseats₂, hvs⟩
        refine Triple.pure ⟨hs₂, hprecedes.trans hprecedes₂, hseats₂, fun u hu => ?_⟩
        rcases List.mem_cons.1 hu with rfl | hmem
        · exact Known.mono (hpoised.gives hrun) hprecedes₂.grows
        · exact hvs u hmem

/-- A method that is read of an instance is bound to it. -/
theorem Settled.reading {id : ObjectId} {c : Class} (hs : Settled units s)
    (ho : Known units s (.object id c)) (hm : c.methods.get? name = some m) :
    Settled units (s.reading m (.object id c)) ∧ s.Precedes (s.reading m (.object id c)) ∧
      (Account.mk units False).Function (s.reading m (.object id c))
        { m with frame := s.frames.next } := by
  have hclassed : (Account.mk units False).Classed s c := ho.1
  have hidentity := Change.identity.precedes (s := s.seat m (.object id c))
  obtain ⟨haccepts, hlater, hfunction, -⟩ := Triple.result
    (Account.bindReceiver_keeps hs.accepts (hclassed.methods.1.get? hm) ho.1) rfl
  obtain ⟨hexisting, hprecedes, -⟩ := Triple.result ((existing_lawful nowhere).bindReceiver_keeps
    hs.existing (o := id) ho.2 ⟨name, .inl hm⟩ ho.2) rfl
  refine ⟨hs.later haccepts.identity ?_ (hlater.trans hidentity.later), hprecedes.trans hidentity,
    Account.Declared.mono hfunction hidentity.grows.toGrows⟩
  exact (existing_lawful nowhere).accepts_aside hexisting hidentity rfl rfl rfl rfl

-- ---------------------------------------------------------------------------
-- Instances
-- ---------------------------------------------------------------------------

/-- In the session a body starts whose `this` is the receiver, and whose parameters have the
arguments. -/
structure Session.Starts (s : Session) (method : Routine) (receiver : Value)
    (arguments : List Value) : Prop where
  this : ∃ frame, s.frames.parent? s.context.frame = some frame ∧
    s.frames.getLocal? frame "this" = some receiver
  parameters : ∀ name, s.frames.getLocal? s.context.frame name =
    ((method.parameters.map (·.lexeme)).zip arguments).reverse.lookup name

/-- What is called in a frame that binds `this` starts for that receiver. -/
theorem Session.starts_enter {s : Session} {c : Closure} (hlt : c.frame < s.frames.size)
    (hthis : s.frames.getLocal? c.frame "this" = some receiver) (arguments : List Value) :
    (s.enter c arguments).Starts c.routine receiver arguments where
  this := by
    have hne : c.frame ≠ s.frames.next := Nat.ne_of_lt hlt
    refine ⟨c.frame, ?_, ?_⟩
    · simp only [enter, Frames.parent?_bindParameters]
      exact Frames.parent?_add_next hlt
    · simp only [enter, Frames.getLocal?_bindParameters_of_ne hne, Frames.addScope,
        Frames.getLocal?_add, hthis]
  parameters name := by
    simp only [enter, Frames.addScope, Frames.getLocal?_bindParameters (Frames.next_lt_add _),
      Frames.getLocal?_add_next, Option.or_none]

theorem Session.starts_initializing (s : Session) (c : Class) (init : Closure)
    (arguments : List Value) : (s.initializing c init arguments).Starts init.routine
      (.object s.fields.size c) arguments := by
  have hlt : s.frames.next < (s.allot.seat init (.object s.fields.size c)).frames.size :=
    (s.allot.seats_seat init (.object s.fields.size c)).lt
  exact starts_enter (c := { init with frame := s.frames.next }) hlt
    (s.allot.getLocal?_seat init (.object s.fields.size c)) arguments

/-- A method that is read of an instance has not been set as a field of it. -/
theorem Session.method_of_member? {s : Session} {c : Class}
    (h : s.member? (.object o c) name = .ok (.method m)) : c.methods.get? name = some m := by
  simp only [member?, Value.objectId?, Value.methods] at h
  split at h
  · cases h
  · split at h
    · next hm =>
      cases h
      exact hm
    · cases h

namespace Poised

variable {units : List Line} {s s₁ s₂ : Session} {c : Class} {init : Closure}

/-- The session in which `init` has been read of an instance. -/
theorem reads_initializer (h : Poised units (.evaluate e) s)
    (he : (worker n (.evaluate e)).on s = (.ok (.object o c), s₁))
    (hmember : s₁.member? (.object o c) "init" = .ok (.method init)) :
    init.initializer = true ∧ Settled units (s₁.reading init (.object o c)) ∧
      s.Precedes (s₁.reading init (.object o c)) ∧
      (s₁.reading init (.object o c)).frames.Seats s₁.frames.next (.object o c) ∧
      (Account.mk units False).Function (s₁.reading init (.object o c))
        { init with frame := s₁.frames.next } := by
  obtain ⟨hs₁, hprecedes⟩ := h.leaves he
  have ho : Known units s₁ (.object o c) := h.gives he
  have hmethod := Session.method_of_member? hmember
  have hclassed : (Account.mk units False).Classed s₁ c := ho.1
  obtain ⟨hs₂, hprecedes₂, hfunction⟩ := hs₁.reading ho hmethod
  exact ⟨hclassed.initializer hmethod, hs₂, hprecedes.trans hprecedes₂,
    s₁.seats_seat _ _, hfunction⟩

/-- A getter `init` gives the instance that it is read of, -/
theorem get_initializer (h : Poised units (.evaluate (.get e name)) s)
    (hname : name.lexeme = "init")
    (he : (worker (n + 1) (.evaluate e)).on s = (.ok (.object o c), s₁))
    (hmember : s₁.member? (.object o c) "init" = .ok (.method init))
    (hgetter : init.routine.isGetter = true) :
    (worker (n + 2) (.evaluate (.get e name))).on s = Run.regardless (.object o c) s₁.context
      ((Run.inSequence (worker n).execute init.routine.body).on
        ((s₁.reading init (.object o c)).enter { init with frame := s₁.frames.next } [])) := by
  obtain ⟨σ, hstands⟩ := h.ready
  have hpoised : Poised units (.evaluate e) s :=
    ⟨h.toSettled, ⟨σ, hstands.operand (by simp [Expr.parts])⟩, trivial⟩
  obtain ⟨hinit, hs₂, -, hseats, hfunction⟩ := hpoised.reads_initializer he hmember
  have harity : ([] : List Value).length = init.routine.arity := by
    simp only [Routine.isGetter, Option.isNone_iff_eq_none] at hgetter
    simp [Routine.arity, Routine.parameters, hgetter]
  have hinvoked : Poised units (.invoke { init with frame := s₁.frames.next } name.site [])
      (s₁.reading init (.object o c)) :=
    ⟨hs₂, ⟨hfunction, by simp, harity⟩, trivial, by simp⟩
  rw [← hname] at hmember
  have hget := Run.on_get_method (w := worker (n + 1)) he hmember
  rw [if_pos hgetter] at hget
  exact hget.trans (hinvoked.invoke_initializer hinit hseats n)

/-- and so does a call of it. -/
theorem call_initializer (h : Poised units (.evaluate (.call (.get e name) paren es)) s)
    (hname : name.lexeme = "init")
    (he : (worker (n + 1) (.evaluate e)).on s = (.ok (.object o c), s₁))
    (hmember : s₁.member? (.object o c) "init" = .ok (.method init))
    (hgetter : init.routine.isGetter = false)
    (hes : (Run.each (worker (n + 2)).evaluate es).on (s₁.reading init (.object o c)) =
      (.ok vs, s₂))
    (harity : vs.length = init.routine.arity) :
    (worker (n + 3) (.evaluate (.call (.get e name) paren es))).on s =
      Run.regardless (.object o c) s₂.context
        ((Run.inSequence (worker n).execute init.routine.body).on
          (s₂.enter { init with frame := s₁.frames.next } vs)) := by
  obtain ⟨σ, hstands⟩ := h.ready
  have hget : (Account.mk units False).Stands s σ (.expression (.get e name)) :=
    hstands.operand (by simp [Expr.parts])
  have hpoised : Poised units (.evaluate e) s :=
    ⟨h.toSettled, ⟨σ, hget.operand (by simp [Expr.parts])⟩, trivial⟩
  obtain ⟨hinit, hs', hprecedes, hseats, hfunction⟩ := hpoised.reads_initializer he hmember
  have hstands' : ∀ e' ∈ es, (Account.mk units False).Stands (s₁.reading init (.object o c)) σ
      (.expression e') := fun e' he' =>
    (hstands.later hprecedes.later).operand (by simp [Expr.parts, he'])
  obtain ⟨hs₂, hprecedes₂, hseats₂, hvs⟩ :=
    Triple.result (hs'.each_seats hstands' hseats (n + 2)) hes
  have hinvoked : Poised units (.invoke { init with frame := s₁.frames.next } paren.site vs) s₂ :=
    ⟨hs₂, ⟨Account.Declared.mono hfunction hprecedes₂.grows.toGrows, fun v hv => (hvs v hv).1,
      harity⟩, trivial, fun v hv => (hvs v hv).2⟩
  rw [← hname] at hmember
  have hread := Run.on_get_method (w := worker (n + 1)) he hmember
  rw [if_neg (by simp [hgetter])] at hread
  have hcall : (worker (n + 2) (.callValue (.function s₁.nextIdentity
      { init with frame := s₁.frames.next }) paren.site vs)).on s₂ =
      (worker (n + 1) (.invoke { init with frame := s₁.frames.next } paren.site vs)).on s₂ :=
    Run.on_callValue_function harity
  show (Run.evaluateWith (worker (n + 2)) (.call (.get e name) paren es)).on s = _
  simp only [Run.evaluateWith, Run.on_bind]
  rw [show ((worker (n + 2)).evaluate (.get e name)).on s = _ from hread]
  simp only [hes]
  exact hcall.trans (hinvoked.invoke_initializer hinit hseats₂ n)

end Poised

-- ---------------------------------------------------------------------------
-- Classes that are called
-- ---------------------------------------------------------------------------

/-- The class was made by a declaration of one of the units or of a module, and of the initializers
that are declared there the last is its own. -/
def Class.IsDeclared (c : Class) (units : List Line) (s : Session) : Prop :=
  ∃ unit top σ name methods classMethods frame home,
    (Account.mk units False).Knows s unit top ∧
    Inside unit σ (.statement (.classDecl name methods classMethods)) ∧
    c = .made c.id name methods classMethods frame home ∧
    c.arity = ((Routine.latest "init" methods).map Routine.arity).getD 0 ∧
    c.methods.get? "init" = declaredInit methods frame home

theorem Account.Classed.isDeclared {units : List Line} {c : Class}
    (h : (Account.mk units False).Classed s c) :
    c.IsDeclared units s := by
  obtain ⟨unit, top, σ, name, methods, classMethods, frame, home, hknows, hinside, hmade⟩ :=
    h.declared
  refine ⟨unit, top, σ, name, methods, classMethods, frame, home, hknows, hinside, hmade, ?_, ?_⟩
  · rw [hmade]
    exact Class.arity_made
  · rw [hmade]
    exact Class.init_made

/-- An object with a number that is still to be given is equal to nothing. -/
theorem Value.isEqual_object {v : Value} {c : Class} (h : ∀ o', v.key? = some (.inr o') → o' < o) :
    v.isEqual (.object o c) = false := by
  cases v with
  | object o' c' =>
    have hlt : o' < o := h o' rfl
    simpa [Value.isEqual] using Nat.ne_of_lt hlt
  | _ => rfl

theorem Poised.not_noReceiver (h : Poised units t s) (fuel : Nat) (site : Site) :
    ((worker fuel t).on s).1 ≠ .error (.error (.runtime site .noReceiver)) := by
  intro herror
  rcases hrun : (worker fuel t).on s with ⟨result, s'⟩
  rw [hrun] at herror
  subst herror
  have hkeeps := (Account.run_keeps fuel ⟨h.accepts, h.ready⟩ id).halt hrun
  exact hkeeps.2.2 ⟨site, .noReceiver, trivial, rfl⟩

/-- Wherever in a life a class is called that takes so many arguments: either the body of its
initializer fails, and the call with it, or the call gives a new instance, equal to nothing that was
there, for which the body ran once with the arguments, whatever the body returned. An `init` that is
called on an instance, or is a getter and read, gives the instance. A class is the same whenever it
turns up, whatever has been assigned to its fields and to those of its instances, and so are its
initializer and the number of arguments. No initializer is called without a receiver. -/
theorem construction_gives_new_instances (h : Life units given runs s₀) :
    (∀ (fuel : Nat) (c : Class) (site : Site) (arguments : List Value) (s : Session),
      Moment.Of runs ⟨fuel + 3, .callValue (.classObject c) site arguments, s⟩ →
      (∃ units', units' <:+ units ∧ c.IsDeclared units' s) ∧
      (worker (fuel + 3) (.callValue (.classObject c) site arguments)).on s =
        (if arguments.length = c.arity then construction fuel s c arguments (c.methods.get? "init")
        else (.error (.error (.runtime site (.arity c.arity arguments.length))), s)) ∧
      (∀ init, c.methods.get? "init" = some init →
        (s.initializing c init arguments).Starts init.routine (.object s.fields.size c) arguments) ∧
      (∀ v : Value, s.Stores v ∨ v ∈ arguments → v.isEqual (.object s.fields.size c) = false) ∧
      ∀ (k : Moment) (v : Value), k.Of runs → k.Knows v → k.after.fields.size ≤ s.fields.size →
        v.isEqual (.object s.fields.size c) = false) ∧
    (∀ (n : Nat) (e : Expr) (name : Token) (o : ObjectId) (c : Class) (init : Closure)
      (s s₁ : Session), name.lexeme = "init" →
      (worker (n + 1) (.evaluate e)).on s = (.ok (.object o c), s₁) →
      s₁.member? (.object o c) "init" = .ok (.method init) →
      (Moment.Of runs ⟨n + 2, .evaluate (.get e name), s⟩ → init.routine.isGetter = true →
        (worker (n + 2) (.evaluate (.get e name))).on s =
          Run.regardless (.object o c) s₁.context
            ((Run.inSequence (worker n).execute init.routine.body).on
              ((s₁.reading init (.object o c)).enter { init with frame := s₁.frames.next } []))) ∧
      ∀ paren es vs s₂, Moment.Of runs ⟨n + 3, .evaluate (.call (.get e name) paren es), s⟩ →
        init.routine.isGetter = false →
        (Run.each (worker (n + 2)).evaluate es).on (s₁.reading init (.object o c)) = (.ok vs, s₂) →
        vs.length = init.routine.arity →
        (worker (n + 3) (.evaluate (.call (.get e name) paren es))).on s =
          Run.regardless (.object o c) s₂.context
            ((Run.inSequence (worker n).execute init.routine.body).on
              (s₂.enter { init with frame := s₁.frames.next } vs))) ∧
    (∀ (k k' : Moment) (c c' : Class), k.Of runs → k'.Of runs → k.Knows (.classObject c) →
      k'.Knows (.classObject c') →
      c'.id = c.id →
      c' = c ∧ c'.arity = c.arity ∧ c'.methods.get? "init" = c.methods.get? "init") ∧
    ∀ (k : Moment) (site : Site), k.Of runs →
      k.outcome.1 ≠ .error (.error (.runtime site .noReceiver)) := by
  refine ⟨fun fuel c site arguments s hk => ?_, fun n e name o c init s s₁ hname he hmember => ?_,
    fun k k' c c' hk hk' hc hc' hid => ?_, fun k site hk => ?_⟩
  · obtain ⟨units', hsuffix, hoccurs⟩ := h.occurs hk (Nat.succ_ne_zero _)
    have hclassed : (Account.mk units' False).Classed s c := hoccurs.poised.ready.1
    refine ⟨⟨units', hsuffix, hclassed.isDeclared⟩, Run.on_callValue_class fuel c site arguments s,
      fun init _ => s.starts_initializing c init arguments, fun v hv => ?_,
      fun k v hk' hv hle => ?_⟩
    · refine Value.isEqual_object fun o hkey => h.object_lt_before hk ?_ hkey
      exact hv.imp id fun hmem => List.mem_cons_of_mem _ hmem
    · exact Value.isEqual_object fun o hkey => Nat.lt_of_lt_of_le (h.object_lt hk' hv hkey) hle
  · refine ⟨fun hk hgetter => ?_, fun paren es vs s₂ hk hgetter hes harity => ?_⟩
    · obtain ⟨units', -, hoccurs⟩ := h.occurs hk (Nat.succ_ne_zero _)
      exact hoccurs.poised.get_initializer hname he hmember hgetter
    · obtain ⟨units', -, hoccurs⟩ := h.occurs hk (Nat.succ_ne_zero _)
      exact hoccurs.poised.call_initializer hname he hmember hgetter hes harity
  · have hkey : (Value.classObject c').key? = some (.inr c.id) := by rw [Value.key?, hid]
    cases h.same_value hk hk' hc hc' rfl hkey
    exact ⟨rfl, rfl, rfl⟩
  · obtain ⟨m, t, s⟩ := k
    cases m with
    | zero => exact fun herror => nomatch herror
    | succ m =>
      obtain ⟨units', -, hoccurs⟩ := h.occurs hk (Nat.succ_ne_zero _)
      exact hoccurs.poised.not_noReceiver (m + 1) site

/-- An initializer that keeps its argument and returns. -/
def boxInit : Routine :=
  ⟨⟨.identifier, "init", 1⟩, some [⟨.identifier, "x", 1⟩],
    [.expression (.set (.this 0 ⟨.kwThis, "this", 1⟩) ⟨.identifier, "y", 1⟩
      (.var 1 ⟨.identifier, "x", 1⟩)), .returnValue ⟨.kwReturn, "return", 1⟩ none]⟩

def boxClass : Prepared Line :=
  ⟨.statements [.classDecl ⟨.identifier, "A", 1⟩ [boxInit] []], [(1, 0), (0, 1)], 2⟩

def boxName : Prepared Line :=
  ⟨.expression (.var 2 ⟨.identifier, "A", 1⟩), [], 3⟩

def box : Class :=
  .made 0 ⟨.identifier, "A", 1⟩ [boxInit] [] rootFrame none

def unboxed : Session :=
  .start (fun _ => none) none (.still 0)

def boxed : Session :=
  { unboxed.commit boxClass with
    frames := (Frames.initial.define rootFrame "A" .nil).define rootFrame "A" (.classObject box)
    fields := #[.empty] }

def boxCall : Moment :=
  ⟨9, .callValue (.classObject box) ⟨1, ")"⟩ [.bool true], boxed.commit boxName⟩

/-- The host declares the class, asks for it, and calls it: the instance is the second object. -/
theorem boxed_value_is_new :
    Life [boxName.tree, boxClass.tree] [.object 1 box, .classObject box]
      [⟨9, boxClass.tree.task, unboxed.commit boxClass⟩,
        ⟨9, boxName.tree.task, boxed.commit boxName⟩,
        boxCall] boxCall.after ∧
    boxCall.outcome.1 = .ok (.object 1 box) ∧
    boxCall.after.member? (.object 1 box) "y" = .ok (.value (.bool true)) ∧
    ∀ v : Value, boxCall.session.Stores v → v.isEqual (.object 1 box) = false := by
  have hp : (Entry.unit "class A\x7binit(x)\x7bthis.y=x;return;\x7d\x7d").prepared 0 =
      .ok boxClass := by
    decide +kernel
  have hp' : (Entry.expression "A").prepared 2 = .ok boxName := by decide +kernel
  have hdeclares : (worker 9 boxClass.tree.task).on (unboxed.commit boxClass) =
      (.ok (), boxed) := rfl
  have hnames : (worker 9 boxName.tree.task).on (boxed.commit boxName) =
      (.ok (.classObject box), boxed.commit boxName) := rfl
  have hcalls : (worker 9 boxCall.task).on boxCall.session =
      (.ok (.object 1 box), boxCall.after) := rfl
  have hstart : Life [] [] [] unboxed := .start
  have hnamed : Life [boxName.tree, boxClass.tree] [.classObject box]
      [⟨9, boxClass.tree.task, unboxed.commit boxClass⟩,
        ⟨9, boxName.tree.task, boxed.commit boxName⟩]
      (boxed.commit boxName) := (hstart.accepted 9 hp hdeclares).accepted 9 hp' hnames
  have hlife := hnamed.call 9 (by simp [Value.Plain]) hcalls
  have hcall := (construction_gives_new_instances hlife).1 6 box ⟨1, ")"⟩ [.bool true]
    (boxed.commit boxName) ⟨boxCall, by simp [boxCall], .here⟩
  exact ⟨hlife, rfl, rfl, fun v hv => hcall.2.2.2.1 v (.inl hv)⟩

end Treewalk
