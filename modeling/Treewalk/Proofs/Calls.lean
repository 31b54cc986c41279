import Treewalk.Proofs.Contexts

/-!
# Calls

What a call comes to, in terms of its body. The body runs once, in a new frame that binds the
parameters, within the frame of the closure; the caller's context is given back behind it. An
initializer gives its receiver, whatever the body returns, and a class makes an instance and calls
its initializer for it.
-/

namespace Treewalk

-- ---------------------------------------------------------------------------
-- Parameters
-- ---------------------------------------------------------------------------

namespace Frames

def bindParameters (fs : Frames) (frame : FrameId) : List Token → List Value → Frames
  | p :: params, v :: values => (fs.define frame p.lexeme v).bindParameters frame params values
  | _, _ => fs

/-- Of parameters with one name the last counts. -/
theorem getLocal?_bindParameters {fs : Frames} (hlt : frame < fs.size) (params : List Token)
    (values : List Value) (name : String) :
    (fs.bindParameters frame params values).getLocal? frame name =
      (((params.map (·.lexeme)).zip values).reverse.lookup name).or (fs.getLocal? frame name) := by
  induction params generalizing fs values with
  | nil => rfl
  | cons p params ih =>
    cases values with
    | nil => rfl
    | cons v values =>
      rw [bindParameters, ih (by rwa [size_define]), getLocal?_define, List.map_cons,
        List.zip_cons_cons, List.reverse_cons, List.lookup_append, Option.or_assoc]
      by_cases hname : name = p.lexeme
      · simp [hname, hlt]
      · simp [hname, List.lookup_cons, beq_false_of_ne hname]

theorem getLocal?_bindParameters_of_ne {fs : Frames} (hne : other ≠ frame) (params : List Token)
    (values : List Value) (name : String) :
    (fs.bindParameters frame params values).getLocal? other name = fs.getLocal? other name := by
  induction params generalizing fs values with
  | nil => rfl
  | cons p params ih =>
    cases values with
    | nil => rfl
    | cons v values =>
      rw [bindParameters, ih, getLocal?_define, if_neg fun h => hne h.1]

theorem parent?_bindParameters (fs : Frames) (frame other : FrameId) (params : List Token)
    (values : List Value) :
    (fs.bindParameters frame params values).parent? other = fs.parent? other := by
  induction params generalizing fs values with
  | nil => rfl
  | cons p params ih =>
    cases values with
    | nil => rfl
    | cons v values => rw [bindParameters, ih, parent?_define]

end Frames

-- ---------------------------------------------------------------------------
-- Bodies
-- ---------------------------------------------------------------------------

/-- The session in which the body of a closure starts. -/
def Session.enter (s : Session) (c : Closure) (arguments : List Value) : Session :=
  { s with
    frames := (s.frames.addScope c.frame (.call c.routine)).bindParameters s.frames.next
      c.routine.parameters arguments
    context := { s.context with frame := s.frames.next, globals := c.home.getD rootFrame } }

/-- The session with a frame in which a method is bound to its receiver. -/
def Session.seat (s : Session) (method : Closure) (receiver : Value) : Session :=
  { s with
    frames := (s.frames.addScope method.frame (.receiver method.routine)).define s.frames.next
      "this" receiver }

theorem Session.getLocal?_seat (s : Session) (method : Closure) (receiver : Value) :
    (s.seat method receiver).frames.getLocal? s.frames.next "this" = some receiver := by
  rw [seat, Frames.getLocal?_define, if_pos ⟨rfl, Frames.next_lt_add _, rfl⟩]

namespace Run

theorem on_bindParameters (frame : FrameId) (params : List Token) (values : List Value)
    (s : Session) : (bindParameters frame params values).on s =
      (.ok (), { s with frames := s.frames.bindParameters frame params values }) := by
  induction params generalizing s values with
  | nil => rfl
  | cons p params ih =>
    cases values with
    | nil => rfl
    | cons v values =>
      rw [bindParameters, on_bind]
      exact ih values _

theorem on_bindReceiver (method : Closure) (receiver : Value) (s : Session) :
    (bindReceiver method receiver).on s =
      (.ok { method with frame := s.frames.next }, s.seat method receiver) := rfl

/-- A function that is called with the arguments that it takes is invoked. -/
theorem on_callValue_function {c : Closure} (harity : arguments.length = c.routine.arity) :
    (worker (n + 1) (.callValue (.function i c) site arguments)).on s =
      (worker n (.invoke c site arguments)).on s := by
  show (callValueWith (worker n) (.function i c) site arguments).on s = _
  simp only [callValueWith, Value.arity?]
  rw [if_neg (not_not.2 harity)]

/-- What a call gives whose body has ended. -/
def answer (c : Closure) (site : Site) (flow : Flow) : Run Value :=
  if c.initializer then receiver c site
  else
    match flow with
    | .returning value => return value
    | _ => return .nil

theorem on_invoke (fuel : Nat) (c : Closure) (site : Site) (arguments : List Value) (s : Session) :
    (worker (fuel + 1) (.invoke c site arguments)).on s =
      match (inSequence (worker fuel).execute c.routine.body).on (s.enter c arguments) with
      | (.ok flow, s') => (answer c site flow).on { s' with context := s.context }
      | (.error halt, s') => (.error halt, { s' with context := s.context }) := by
  have hframe : (newFrame c.frame (.call c.routine)).on s = (.ok s.frames.next,
      { s with frames := s.frames.addScope c.frame (.call c.routine) }) := rfl
  have hlater := inSequence_later fuel c.routine.body (s.enter c arguments)
  show (invokeWith (worker fuel) c site arguments).on s = _
  simp only [invokeWith, on_bind, hframe, on_bindParameters]
  rcases hbody : (inSequence (worker fuel).execute c.routine.body).on (s.enter c arguments) with
    ⟨halt | flow, s'⟩
  · rw [hbody] at hlater
    rw [on_within_of_kept hbody hlater.context]
  · rw [hbody] at hlater
    rw [on_within_of_kept hbody hlater.context]
    rfl

/-- What a call comes to that gives `v` whatever its body returns. -/
def regardless (v : Value) (outer : Context) (body : Except Halt Flow × Session) :
    Except Halt Value × Session :=
  (body.1.map fun _ => v, { body.2 with context := outer })

theorem on_receiver (h : s.frames.getLocal? c.frame "this" = some v) :
    (receiver c site).on s = (.ok v, s) := by
  simp only [receiver, on_bind, on_get, Frames.getAt?, Frames.ancestor?, h, on_pure]

theorem receiver_leaves (c : Closure) (site : Site) (s : Session) :
    ((receiver c site).on s).2 = s := by
  simp only [receiver, on_bind, on_get]
  split <;> rfl

/-- An initializer gives what its frame binds `this` to in the end. -/
theorem on_invoke_initializer {c : Closure} (hinit : c.initializer = true)
    (hthis : ((worker (fuel + 1) (.invoke c site arguments)).on s).2.frames.getLocal? c.frame
      "this" = some v) :
    (worker (fuel + 1) (.invoke c site arguments)).on s = regardless v s.context
      ((inSequence (worker fuel).execute c.routine.body).on (s.enter c arguments)) := by
  rw [on_invoke] at hthis ⊢
  generalize (inSequence (worker fuel).execute c.routine.body).on (s.enter c arguments) = body
    at hthis ⊢
  rcases body with ⟨halt | flow, s'⟩
  · rfl
  · simp only [answer, hinit, if_true, receiver_leaves] at hthis ⊢
    exact on_receiver (s := { s' with context := s.context }) hthis

/-- A call of a method that is bound to a receiver goes as its body goes. -/
theorem on_invoke_bound (hthis : (s.frames.getLocal? c.frame "this").isSome) (fuel : Nat)
    (site : Site) (arguments : List Value) :
    ∃ v, (worker (fuel + 1) (.invoke c site arguments)).on s = regardless v s.context
      ((inSequence (worker fuel).execute c.routine.body).on (s.enter c arguments)) := by
  cases hinit : c.initializer with
  | true =>
    have hlater := worker_later (fuel + 1) (.invoke c site arguments) s
    obtain ⟨v, hv⟩ := Option.isSome_iff_exists.1 (hlater.grows.frames.bound _ _ hthis)
    exact ⟨v, on_invoke_initializer hinit hv⟩
  | false =>
    rw [on_invoke]
    rcases (inSequence (worker fuel).execute c.routine.body).on (s.enter c arguments) with
      ⟨halt | flow, s'⟩
    · exact ⟨.nil, rfl⟩
    · simp only [answer, hinit]
      cases flow with
      | returning v => exact ⟨v, rfl⟩
      | normal | breaking => exact ⟨.nil, rfl⟩

end Run

-- ---------------------------------------------------------------------------
-- Construction
-- ---------------------------------------------------------------------------

/-- The session with a new object. -/
def Session.allot (s : Session) : Session :=
  { s with fields := s.fields.push .empty }

/-- The session in which an initializer starts for a new instance. -/
def Session.initializing (s : Session) (c : Class) (init : Closure) (arguments : List Value) :
    Session :=
  (s.allot.seat init (.object s.fields.size c)).enter { init with frame := s.frames.next } arguments

/-- What making an instance with the initializer, if there is one, comes to: the body runs once, in
the session in which it starts, and the instance is given unless the body fails. -/
def construction (fuel : Nat) (s : Session) (c : Class) (arguments : List Value) :
    Option Closure → Except Halt Value × Session
  | none => (.ok (.object s.fields.size c), s.allot)
  | some init => Run.regardless (.object s.fields.size c) s.context
      ((Run.inSequence (worker fuel).execute init.routine.body).on
        (s.initializing c init arguments))

namespace Run

theorem on_construct (fuel : Nat) (c : Class) (site : Site) (arguments : List Value) (s : Session) :
    (worker (fuel + 2) (.construct c site arguments)).on s =
      construction fuel s c arguments (c.methods.get? "init") := by
  have hobject : newObject.on s = (.ok s.fields.size, s.allot) := rfl
  show (constructWith (worker (fuel + 1)) c site arguments).on s = _
  simp only [constructWith, on_bind, hobject]
  cases hinit : c.methods.get? "init" with
  | none => rfl
  | some init =>
    have hthis := s.allot.getLocal?_seat init (.object s.fields.size c)
    obtain ⟨v, hinvoke⟩ := on_invoke_bound (c := { init with frame := s.allot.frames.next })
      (Option.isSome_of_mem hthis) fuel site arguments
    simp only [on_bind, on_bindReceiver, Worker.invoke, hinvoke]
    show _ = regardless _ s.context ((inSequence (worker fuel).execute init.routine.body).on
      ((s.allot.seat init (.object s.fields.size c)).enter
        { init with frame := s.allot.frames.next } arguments))
    generalize (inSequence (worker fuel).execute init.routine.body).on _ = body
    rcases body with ⟨_ | _, _⟩ <;> rfl

/-- A call of a class demands the arguments of its initializer, and makes an instance. -/
theorem on_callValue_class (fuel : Nat) (c : Class) (site : Site) (arguments : List Value)
    (s : Session) : (worker (fuel + 3) (.callValue (.classObject c) site arguments)).on s =
      if arguments.length = c.arity then construction fuel s c arguments (c.methods.get? "init")
      else (.error (.error (.runtime site (.arity c.arity arguments.length))), s) := by
  show (callValueWith (worker (fuel + 2)) (.classObject c) site arguments).on s = _
  simp only [callValueWith, Value.arity?]
  by_cases hlength : arguments.length = c.arity
  · rw [if_neg (not_not.2 hlength), if_pos hlength]
    exact on_construct fuel c site arguments s
  · rw [if_pos hlength, if_neg hlength]
    rfl

end Run

end Treewalk
