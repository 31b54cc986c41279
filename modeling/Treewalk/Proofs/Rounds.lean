import Treewalk.Proofs.Scoping

/-!
# Rounds

A `for` statement with a step is read as a loop whose body is a block of two: what is written as the
body of the loop, and the step. Such a block is a round. Nothing is declared in it, so it needs no
scope. Here is how a program runs if rounds are carried out in the scope that the loop stands in,
and names are looked up by what has been declared around them.
-/

namespace Treewalk

/-- Nothing is declared or imported in the scope in which the statement stands. -/
def Stmt.keepsScope : Stmt → Bool
  | .var _ _ | .function _ | .classDecl _ _ _ | .importModule _ _ | .exportDecl _ _ => false
  | .ifElse _ yes none => yes.keepsScope
  | .ifElse _ yes (some no) => yes.keepsScope && no.keepsScope
  | .whileLoop _ body => body.keepsScope
  | .expression _ | .print _ | .block _ | .breakLoop _ | .returnValue _ _ => true

/-- The body and the step of a round, if it is one of those that are run directly. -/
def Stmt.round? (chosen : Stmt → Bool) : Stmt → Option (Stmt × Expr)
  | .block [body, .expression step] =>
    if body.keepsScope && chosen (.block [body, .expression step]) then some (body, step) else none
  | _ => none

def Opener.isRound (chosen : Stmt → Bool) : Opener → Bool
  | .block body => ((Stmt.block body).round? chosen).isSome
  | _ => false

/-- The statements of a body up to the one that holds the node. -/
def Stmt.upTo (node : NodeId) : List Stmt → List Stmt
  | [] => []
  | s :: rest => if node ∈ s.ids then [s] else s :: Stmt.upTo node rest

/-- What a scope has declared where the node stands, as far as can be seen from what opened it. -/
def Opener.declared (node : NodeId) : Opener → List String
  | .block body => Stmt.declaredNames (Stmt.upTo node body)
  | .call routine =>
    routine.parameters.map Token.lexeme ++ Stmt.declaredNames (Stmt.upTo node routine.body)
  | .receiver _ => ["this"]

-- ---------------------------------------------------------------------------
-- Frames without those of rounds
-- ---------------------------------------------------------------------------

namespace Frames

/-- The innermost of the scopes from `id` outwards that has declared the name where the node
stands. -/
def scopeWithin (fs : Frames) (node : NodeId) (name : String) :
    (reach : Nat) → FrameId → Option FrameId
  | 0, _ => none
  | reach + 1, id =>
    match fs.opener? id with
    | none => none
    | some opener =>
      if (opener.declared node).contains name then some id
      else
        match fs.parent? id with
        | some parent => scopeWithin fs node name reach parent
        | none => none

def scopeOf? (fs : Frames) (node : NodeId) (name : String) (id : FrameId) : Option FrameId :=
  fs.scopeWithin node name (id + 1) id

section
variable (chosen : Stmt → Bool)

def isRound (fs : Frames) (id : FrameId) : Bool :=
  (fs.opener? id).any (Opener.isRound chosen)

/-- The innermost frame from `id` outwards that is not the frame of a round. -/
def skip (fs : Frames) (id : FrameId) : FrameId :=
  if fs.isRound chosen id then
    match _h : fs.parent? id with
    | some parent => skip fs parent
    | none => id
  else id
termination_by id
decreasing_by exact parent?_lt ‹_›

end

variable {chosen : Stmt → Bool} {fs fs' : Frames} {id parent : FrameId}

theorem skip_of_not_round (h : fs.isRound chosen id = false) : fs.skip chosen id = id := by
  rw [skip, if_neg (by simp [h])]

theorem skip_of_round (h : fs.isRound chosen id = true) (hparent : fs.parent? id = some parent) :
    fs.skip chosen id = fs.skip chosen parent := by
  rw [skip, if_pos h]
  split
  · next found hfound =>
    rw [hparent] at hfound
    cases hfound
    rfl
  · next hfound =>
    rw [hparent] at hfound
    cases hfound

theorem skip_of_orphan (hparent : fs.parent? id = none) : fs.skip chosen id = id := by
  rw [skip]
  split
  · split
    · next found hfound =>
      rw [hparent] at hfound
      cases hfound
    · rfl
  · rfl

theorem skip_le (fs : Frames) (id : FrameId) : fs.skip chosen id ≤ id := by
  induction id using Nat.strong_induction_on with
  | _ id ih =>
    cases hround : fs.isRound chosen id with
    | false => exact (skip_of_not_round hround).le
    | true =>
      cases hparent : fs.parent? id with
      | none => exact (skip_of_orphan hparent).le
      | some parent =>
        rw [skip_of_round hround hparent]
        exact (ih parent (parent?_lt hparent)).trans (parent?_lt hparent).le

/-- Only what stands around a frame matters. -/
theorem skip_congr (hopener : ∀ i ≤ id, fs'.opener? i = fs.opener? i)
    (hparent : ∀ i ≤ id, fs'.parent? i = fs.parent? i) :
    fs'.skip chosen id = fs.skip chosen id := by
  induction id using Nat.strong_induction_on with
  | _ id ih =>
    have hround' : fs'.isRound chosen id = fs.isRound chosen id := by
      rw [isRound, isRound, hopener id (Nat.le_refl id)]
    cases hround : fs.isRound chosen id with
    | false => rw [skip_of_not_round hround, skip_of_not_round (hround'.trans hround)]
    | true =>
      have hparent' := hparent id (Nat.le_refl id)
      cases houter : fs.parent? id with
      | none => rw [skip_of_orphan houter, skip_of_orphan (hparent'.trans houter)]
      | some outer =>
        have hlt : outer < id := parent?_lt houter
        rw [skip_of_round hround houter,
          skip_of_round (hround'.trans hround) (hparent'.trans houter)]
        exact ih outer hlt (fun i hi => hopener i (hi.trans hlt.le))
          fun i hi => hparent i (hi.trans hlt.le)

theorem skip_of_grows (h : fs.Grows fs') (hlt : id < fs.size) :
    fs'.skip chosen id = fs.skip chosen id :=
  skip_congr (fun i hi => h.opener i (Nat.lt_of_le_of_lt hi hlt))
    fun i hi => h.parent i (Nat.lt_of_le_of_lt hi hlt)

theorem skip_define (other : FrameId) (name : String) (value : Value) :
    (fs.define other name value).skip chosen id = fs.skip chosen id :=
  skip_congr (fun _ _ => opener?_define ..) fun _ _ => parent?_define ..

theorem skip_of_le (h : fs.size ≤ id) : fs.skip chosen id = id := by
  refine skip_of_not_round ?_
  have hnone : fs.store[id]? = none := Array.getElem?_eq_none h
  rw [isRound, opener?, hnone]
  rfl

end Frames

/-- Nothing leads from the frame of a round, and from other frames the way goes past them. -/
def Frame.abridged (chosen : Stmt → Bool) (fs : Frames) (f : Frame) : Frame :=
  if f.opener.any (Opener.isRound chosen) then ⟨f.bindings, none, none⟩
  else { f with parent := f.parent.map (fs.skip chosen) }

namespace Frames

def abridged (chosen : Stmt → Bool) (fs : Frames) : Frames where
  store := fs.store.map (Frame.abridged chosen fs)
  parent_lt := by
    intro i f p hf hp
    rw [Array.getElem?_map] at hf
    obtain ⟨g, hg, rfl⟩ := Option.map_eq_some_iff.1 hf
    unfold Frame.abridged at hp
    split at hp
    · cases hp
    · obtain ⟨q, hq, rfl⟩ := Option.map_eq_some_iff.1 hp
      exact Nat.lt_of_le_of_lt (skip_le fs q) (fs.parent_lt i g q hg hq)

variable {chosen : Stmt → Bool} {fs fs' : Frames} {id parent : FrameId}

@[simp] theorem size_abridged : (fs.abridged chosen).size = fs.size :=
  Array.size_map

@[simp] theorem bindings_abridged : (fs.abridged chosen).bindings id = fs.bindings id := by
  simp only [bindings, abridged, Array.getElem?_map]
  cases fs.store[id]? with
  | none => rfl
  | some f =>
    simp only [Option.map_some, Frame.abridged]
    split <;> rfl

@[simp] theorem getLocal?_abridged :
    (fs.abridged chosen).getLocal? id name = fs.getLocal? id name := by
  rw [getLocal?, bindings_abridged, getLocal?]

theorem opener?_abridged : (fs.abridged chosen).opener? id =
    if fs.isRound chosen id then none else fs.opener? id := by
  cases h : fs.store[id]? with
  | none => simp [opener?, isRound, abridged, h]
  | some f =>
    simp only [opener?, isRound, abridged, Array.getElem?_map, h, Option.map_some, Option.bind_some,
      Frame.abridged]
    split <;> rfl

theorem parent?_abridged : (fs.abridged chosen).parent? id =
    if fs.isRound chosen id then none else (fs.parent? id).map (fs.skip chosen) := by
  cases h : fs.store[id]? with
  | none => simp [parent?, isRound, opener?, abridged, h]
  | some f =>
    simp only [parent?, isRound, opener?, abridged, Array.getElem?_map, h, Option.map_some,
      Option.bind_some, Frame.abridged]
    split <;> rfl

theorem abridged_define (other : FrameId) (name : String) (value : Value) :
    (fs.define other name value).abridged chosen =
      (fs.abridged chosen).define other name value := by
  have hskip : (fs.define other name value).skip chosen = fs.skip chosen :=
    funext fun _ => skip_define ..
  have hform : Frame.abridged chosen (fs.define other name value) = Frame.abridged chosen fs := by
    funext f
    rw [Frame.abridged, Frame.abridged, hskip]
  apply eq_of_store
  show (fs.store.modify other fun f => { f with bindings := f.bindings.insert name value }).map
      (Frame.abridged chosen (fs.define other name value)) =
    (fs.store.map (Frame.abridged chosen fs)).modify other fun f =>
      { f with bindings := f.bindings.insert name value }
  rw [hform]
  refine map_modify (fun f => ?_) _ _
  unfold Frame.abridged
  split <;> rfl

/-- A new frame changes nothing for those that are there. -/
theorem abridged_frame_add (hf : fs.store[id]? = some f) (within : Option FrameId)
    (opener : Option Opener) :
    f.abridged chosen (fs.add within opener) = f.abridged chosen fs := by
  unfold Frame.abridged
  split
  · rfl
  · cases hparent : f.parent with
    | none => rfl
    | some outer =>
      have hlt : outer < fs.size :=
        Nat.lt_trans (fs.parent_lt id f outer hf hparent) (Array.getElem?_eq_some_iff.1 hf).1
      rw [Option.map_some, Option.map_some, skip_of_grows (.add fs within opener) hlt]

theorem store_abridged_add (within : Option FrameId) (opener : Option Opener) :
    ((fs.add within opener).abridged chosen).store = (fs.abridged chosen).store.push
      (Frame.abridged chosen (fs.add within opener)
        ⟨.empty, within.filter (· < fs.store.size), opener⟩) := by
  have hold : fs.store.map (Frame.abridged chosen (fs.add within opener)) =
      fs.store.map (Frame.abridged chosen fs) := by
    apply Array.ext_getElem?
    intro i
    rw [Array.getElem?_map, Array.getElem?_map]
    cases hf : fs.store[i]? with
    | none => rfl
    | some f => exact congrArg some (abridged_frame_add hf within opener)
  show (fs.store.push _).map _ = _
  rw [Array.map_push, hold]
  rfl

theorem abridged_add (within : Option FrameId) (opener : Option Opener)
    (h : opener.any (Opener.isRound chosen) = false) :
    (fs.add within opener).abridged chosen =
      (fs.abridged chosen).add (within.map (fs.skip chosen)) opener := by
  apply eq_of_store
  rw [store_abridged_add]
  refine congrArg _ ?_
  rw [Frame.abridged, if_neg (by simp [h])]
  have hsize : (fs.abridged chosen).store.size = fs.store.size := Array.size_map
  simp only [hsize, Frame.mk.injEq, true_and, and_true]
  cases within with
  | none => rfl
  | some outer =>
    rcases Nat.lt_or_ge outer fs.size with hlt | hge
    · have hskipped : fs.skip chosen outer < fs.store.size :=
        Nat.lt_of_le_of_lt (skip_le fs outer) hlt
      have hlt' : outer < fs.store.size := hlt
      simp [Option.filter, hlt', hskipped, skip_of_grows (.add fs (some outer) opener) hlt]
    · have hnot : ¬ outer < fs.store.size := Nat.not_lt.2 hge
      simp [Option.filter, hnot, skip_of_le hge]

/-- The frame of a round stays apart from all others. -/
theorem abridged_addScope_round (h : opener.isRound chosen = true) :
    (fs.addScope parent opener).abridged chosen = (fs.abridged chosen).add none none := by
  apply eq_of_store
  rw [addScope, store_abridged_add]
  refine congrArg _ ?_
  rw [Frame.abridged, if_pos (by simpa using h)]
  rfl

end Frames

namespace Session

/-- The session as it is when rounds are run directly: their frames are left out of all ways
outwards, and code in one of them stands in the frame around it. -/
def abridged (chosen : Stmt → Bool) (s : Session) : Session :=
  { s with
    frames := s.frames.abridged chosen
    context := { s.context with frame := s.frames.skip chosen s.context.frame } }

end Session

-- ---------------------------------------------------------------------------
-- Rounds that are run directly
-- ---------------------------------------------------------------------------

namespace Run

/-- Leaves out the number of the next frame. -/
def passFrame : Run Unit :=
  modify fun s => { s with frames := s.frames.add none none }

/-- The value of the variable that a node stands for: in the innermost scope that has declared the
name there, or else in the globals. -/
def lookUpAround (node : NodeId) (name : Token) : Run Value := do
  let s ← get
  match s.frames.scopeOf? node name.lexeme s.context.frame with
  | some frame =>
    match s.frames.getLocal? frame name.lexeme with
    | some value => return value
    | none => raise (Frames.undefined name)
  | none => ofExcept (s.frames.read s.context.globals name)

def assigneeAround (node : NodeId) (name : Token) : Run FrameId := do
  let s ← get
  match s.frames.scopeOf? node name.lexeme s.context.frame with
  | some frame => return frame
  | none =>
    match s.frames.holder? s.context.globals name.lexeme with
    | some frame => return frame
    | none => raise (Frames.undefined name)

end Run

/-- Carries out one task as `Worker.step` does, except that names are looked up by what has been
declared around them, and that a round runs in the scope around it: the body, and then, unless the
body is left, the step. A frame that is made later has the number that it has when the round has a
frame. -/
def Worker.direct (chosen : Stmt → Bool) (w : Worker) : Worker
  | .evaluate (.var id name) => Run.lookUpAround id name
  | .evaluate (.this id keyword) => Run.lookUpAround id keyword
  | .evaluate (.assign id name value) => do
    let value ← w.evaluate value
    Run.define (← Run.assigneeAround id name) name.lexeme value
    return value
  | .execute s =>
    match s.round? chosen with
    | some (body, step) => do
      Run.passFrame
      Run.inSequence w.execute [body, .expression step]
    | none => Run.executeWith w s
  | t => w.step t

/-- The worker with an allowance that runs the chosen rounds directly. -/
def directWorker (chosen : Stmt → Bool) : (fuel : Nat) → Worker
  | 0, _ => throw .exhausted
  | fuel + 1, t => (directWorker chosen fuel).direct chosen t

end Treewalk
