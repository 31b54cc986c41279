import Treewalk.Proofs.Counterparts
import Treewalk.Proofs.Resolution

/-!
# Computations in correspondence

A likeness says which nodes and which renamings two sessions may differ in. Two computations are
joint if, from two sessions that correspond, they come to results that are alike, or stop alike, and
leave sessions that correspond. Whatever reads or changes a session is joint with itself.
-/

namespace Treewalk

open Renamings (plain inside)

-- ---------------------------------------------------------------------------
-- Frames
-- ---------------------------------------------------------------------------

structure Frames.Like (T : Translation) (W : World) (fs fs' : Frames) : Prop where
  size : fs.size = W.size
  next : T.frame.Next fs.size fs'.size
  parent : ∀ frame, fs'.parent? (T.frame frame) = (fs.parent? frame).map T.frame
  opener : ∀ frame, Option.Rel (Opener.Like T.names W.noted) (fs.opener? frame)
    (fs'.opener? (T.frame frame))
  bindings : ∀ frame, Table.Like (W.renamings frame 0) (Value.Like T W) (fs.bindings frame)
    (fs'.bindings (T.frame frame))
  names : ∀ frame < W.size, ∀ d, T.names (W.renamings frame d)
  outer : ∀ frame parent, fs.parent? frame = some parent →
    W.renamings frame = inside (W.renamings frame 0) (W.renamings parent)
  root : W.Plain rootFrame

/-- There are no more frames around a frame than were made before it. -/
theorem Frames.holderWithin_of_lt (fs : Frames) (name : String) {frame : FrameId}
    (h : frame < reach) : fs.holderWithin name reach frame = fs.holder? frame name := by
  suffices ∀ reach reach' frame : Nat, frame < reach → frame < reach' →
      fs.holderWithin name reach frame = fs.holderWithin name reach' frame from
    this _ _ _ h (Nat.lt_succ_self _)
  intro reach
  induction reach with
  | zero => exact fun _ _ h => absurd h (Nat.not_lt_zero _)
  | succ reach ih =>
    intro reach' frame h h'
    obtain ⟨reach', rfl⟩ := Nat.exists_eq_succ_of_ne_zero (Nat.ne_zero_of_lt h')
    simp only [Frames.holderWithin]
    split
    · rfl
    · split
      · next hparent =>
        have hlt := parent?_lt hparent
        exact ih _ _ (Nat.lt_of_lt_of_le hlt (Nat.le_of_lt_succ h))
          (Nat.lt_of_lt_of_le hlt (Nat.le_of_lt_succ h'))
      · rfl

namespace Frames.Like

variable {T : Translation} {W : World} {fs fs' : Frames}

theorem lt_size (h : fs.Like T W fs') (hlt : frame < W.size) : T.frame frame < fs'.size :=
  (h.next.lt_iff frame).2 (h.size ▸ hlt)

theorem ancestor? (h : fs.Like T W fs') (frame : FrameId) (d : Nat) :
    fs'.ancestor? (T.frame frame) d = (fs.ancestor? frame d).map T.frame := by
  induction d generalizing frame with
  | zero => rfl
  | succ d ih =>
    simp only [Frames.ancestor?, h.parent]
    cases fs.parent? frame with
    | none => rfl
    | some parent => exact ih parent

/-- The renaming at a distance is that of the frame at the distance. -/
theorem renaming_ancestor (h : fs.Like T W fs') (hfound : fs.ancestor? frame d = some found) :
    W.renamings found 0 = W.renamings frame d := by
  induction d generalizing frame with
  | zero => cases hfound; rfl
  | succ d ih =>
    simp only [Frames.ancestor?] at hfound
    split at hfound
    · next parent hparent => rw [ih hfound, h.outer _ _ hparent, inside]
    · cases hfound

theorem getLocal? (h : fs.Like T W fs') (frame : FrameId) (name : String) :
    Option.Rel (Value.Like T W) (fs.getLocal? frame name)
      (fs'.getLocal? (T.frame frame) (W.renamings frame 0 name)) :=
  (h.bindings frame).get? name

theorem getAt? (h : fs.Like T W fs') (frame : FrameId) (d : Nat) (name : String) :
    Option.Rel (Value.Like T W) (fs.getAt? frame d name)
      (fs'.getAt? (T.frame frame) d (W.renamings frame d name)) := by
  unfold Frames.getAt?
  rw [h.ancestor?]
  cases hfound : fs.ancestor? frame d with
  | none => exact .none
  | some found =>
    rw [← h.renaming_ancestor hfound]
    exact h.getLocal? found name

/-- Where no name is changed, a search finds the same frame. -/
theorem holderWithin (h : fs.Like T W fs') (name : String) (reach : Nat)
    (hplain : W.renamings frame = plain) :
    fs'.holderWithin name reach (T.frame frame) =
        (fs.holderWithin name reach frame).map T.frame ∧
      ∀ found, fs.holderWithin name reach frame = some found → W.renamings found 0 = 1 := by
  induction reach generalizing frame with
  | zero => exact ⟨rfl, fun _ h => by cases h⟩
  | succ reach ih =>
    have hown : W.renamings frame 0 = 1 := by rw [hplain]; rfl
    have hcontains : (fs'.bindings (T.frame frame)).contains name =
        (fs.bindings frame).contains name := by
      simpa [hown] using (h.bindings frame).contains name
    simp only [Frames.holderWithin, hcontains, h.parent]
    split
    · exact ⟨rfl, fun _ heq => by cases heq; exact hown⟩
    · cases hparent : fs.parent? frame with
      | some parent =>
        refine ih (funext fun d => ?_)
        have houter := congrFun (h.outer _ _ hparent) (d + 1)
        rw [hplain] at houter
        exact houter.symm
      | none => exact ⟨rfl, fun _ heq => by cases heq⟩

theorem holder? (h : fs.Like T W fs') (name : String) (hplain : W.Plain frame) :
    fs'.holder? (T.frame frame) name = (fs.holder? frame name).map T.frame := by
  rw [← fs.holderWithin_of_lt name (Nat.lt_succ_of_le (Nat.le_add_right frame (T.frame frame))),
    ← fs'.holderWithin_of_lt name (Nat.lt_succ_of_le (Nat.le_add_left (T.frame frame) frame))]
  exact (h.holderWithin name _ hplain.2).1

theorem renaming_holder (h : fs.Like T W fs') (hplain : W.Plain frame)
    (hfound : fs.holder? frame name = some found) : W.renamings found 0 = 1 :=
  (h.holderWithin name _ hplain.2).2 found hfound

theorem read (h : fs.Like T W fs') (name : Token) (hplain : W.Plain frame) :
    ExceptRel (Value.Like T W) (fs.read frame name) (fs'.read (T.frame frame) name) := by
  unfold Frames.read Frames.get?
  rw [h.holder? _ hplain]
  cases hfound : fs.holder? frame name.lexeme with
  | none => exact .error _
  | some found =>
    have hlocal := h.getLocal? found name.lexeme
    rw [h.renaming_holder hplain hfound] at hlocal
    dsimp only [Option.map_some]
    obtain ⟨h₁, h₂⟩ | ⟨v, v', h₁, h₂, hv⟩ := rel_cases hlocal
    · simp only [h₁, show fs'.getLocal? (T.frame found) name.lexeme = none from h₂]
      exact .error _
    · simp only [h₁, show fs'.getLocal? (T.frame found) name.lexeme = some v' from h₂]
      exact .ok hv

theorem grow (h : fs.Like T W fs') (hW : W.Grows W') (hsize : W'.size = W.size)
    (hrenamings : W'.renamings = W.renamings) : fs.Like T W' fs' where
  size := hsize ▸ h.size
  next := h.next
  parent := h.parent
  opener frame := by
    obtain ⟨h₁, h₂⟩ | ⟨o, o', h₁, h₂, ho⟩ := rel_cases (h.opener frame) <;> rw [h₁, h₂]
    · exact .none
    · exact .some (ho.mono hW.noted)
  bindings frame := hrenamings ▸ (h.bindings frame).mono fun _ _ hv => hv.grow hW
  names := hsize ▸ hrenamings ▸ h.names
  outer := hrenamings ▸ h.outer
  root := h.root.grow hW

theorem define (h : fs.Like T W fs') (hv : Value.Like T W v v')
    (hname : name' = W.renamings frame 0 name) :
    (fs.define frame name v).Like T W (fs'.define (T.frame frame) name' v') where
  size := (Frames.size_define ..).trans h.size
  next := by
    rw [Frames.size_define, Frames.size_define]
    exact h.next
  parent other := by rw [Frames.parent?_define, Frames.parent?_define, h.parent]
  opener other := by
    rw [Frames.opener?_define, Frames.opener?_define]
    exact h.opener other
  bindings other := by
    have hhere : T.frame other = T.frame frame ∧ T.frame frame < fs'.size ↔
        other = frame ∧ frame < fs.size := by
      rw [Shift.apply_eq_iff, h.next.lt_iff]
    rw [Frames.bindings_define, Frames.bindings_define]
    simp only [hhere]
    split
    · next heq =>
      rw [heq.1, hname]
      exact (h.bindings frame).insert name hv
    · exact h.bindings other
  names := h.names
  outer other parent hparent := h.outer other parent (by rwa [Frames.parent?_define] at hparent)
  root := h.root

end Frames.Like

/-- The world with one more frame. -/
def World.addFrame (W : World) (env : Renamings) : World where
  noted := W.noted
  size := W.size + 1
  renamings := Function.update W.renamings W.size env

namespace World

variable {W : World}

@[simp] theorem renamings_addFrame (W : World) (env : Renamings) :
    (W.addFrame env).renamings W.size = env :=
  Function.update_self ..

theorem renamings_addFrame_of_ne (h : frame ≠ W.size) :
    (W.addFrame env).renamings frame = W.renamings frame :=
  Function.update_of_ne h ..

theorem grows_addFrame (W : World) (env : Renamings) : W.Grows (W.addFrame env) where
  noted _ _ _ h := h
  size := Nat.le_succ _
  renamings _ hlt := renamings_addFrame_of_ne (Nat.ne_of_lt hlt)

end World

namespace Frames

theorem parent?_addFrame {outer : Nat} (fs : Frames) (h : outer < fs.size) (frame : FrameId) :
    (fs.add (some outer) opener).parent? frame =
      if frame = fs.next then some outer else fs.parent? frame := by
  rw [parent?_add_eq_ite, Option.filter_some, if_pos (decide_eq_true h)]

/-- A new frame opens a scope inside that of its parent. -/
theorem Like.add {outer : Nat} {o o' : Option Opener} {T : Translation} {W : World}
    {fs fs' : Frames} (h : fs.Like T W fs') (hlt : outer < W.size) (hρ : T.names ρ)
    (ho : Option.Rel (Opener.Like T.names W.noted) o o') :
    (fs.add (some outer) o).Like T (W.addFrame (inside ρ (W.renamings outer)))
      (fs'.add (some (T.frame outer)) o') := by
  have hgrows := W.grows_addFrame (inside ρ (W.renamings outer))
  have hnew (frame : FrameId) : T.frame frame = fs'.next ↔ frame = fs.next := by
    rw [show fs'.next = T.frame fs.next from h.next.apply, Shift.apply_eq_iff]
  have hparent (frame : FrameId) : (fs.add (some outer) o).parent? frame =
      if frame = fs.next then some outer else fs.parent? frame :=
    parent?_addFrame fs (h.size ▸ hlt) frame
  refine ⟨?_, ?_, fun frame => ?_, fun frame => ?_, fun frame => ?_, fun frame hframe d => ?_,
    fun frame p hp => ?_, h.root.grow hgrows⟩
  · rw [size_add, h.size]
    rfl
  · rw [size_add, size_add]
    exact h.next.succ
  · rw [hparent, parent?_addFrame fs' (h.lt_size hlt), h.parent]
    simp only [hnew]
    split <;> rfl
  · rw [opener?_add_eq_ite, opener?_add_eq_ite]
    simp only [hnew]
    split
    · exact ho
    · exact h.opener frame
  · rw [bindings_add, bindings_add]
    by_cases hframe : frame = W.size
    · -- The new frame binds nothing yet.
      have hempty {gs : Frames} {id : FrameId} (hsize : gs.size ≤ id) :
          gs.bindings id = .empty := by
        rw [Frames.bindings, Array.getElem?_eq_none hsize]
      have hle : fs.size ≤ frame := by rw [hframe, h.size]
      have hle' : fs'.size ≤ T.frame frame :=
        Nat.not_lt.1 fun hlt => Nat.not_lt.2 hle ((h.next.lt_iff frame).1 hlt)
      rw [hempty hle, hempty hle']
      exact .empty
    · rw [World.renamings_addFrame_of_ne hframe]
      exact (h.bindings frame).mono fun _ _ hv => hv.grow hgrows
  · rcases Nat.lt_succ_iff_lt_or_eq.1 hframe with hframe | rfl
    · rw [hgrows.renamings frame hframe]
      exact h.names frame hframe d
    · rw [World.renamings_addFrame]
      cases d with
      | zero => exact hρ
      | succ d => exact h.names outer hlt d
  · rw [hparent] at hp
    split at hp
    · next heq =>
      cases hp
      have heq : frame = W.size := heq.trans h.size
      rw [heq, World.renamings_addFrame, hgrows.renamings outer hlt, inside]
    · have hframe : frame < W.size := h.size ▸ lt_of_parent? hp
      rw [hgrows.renamings frame hframe,
        hgrows.renamings p (Nat.lt_trans (parent?_lt hp) hframe)]
      exact h.outer frame p hp

end Frames

-- ---------------------------------------------------------------------------
-- Sessions
-- ---------------------------------------------------------------------------

/-- The distance that is noted for a node. Of two notes for one node the later counts. -/
def Prepared.distance? (p : Prepared α) (node : NodeId) : Option Nat :=
  p.notes.reverse.lookup node

theorem getElem?_commit (s : Session) (p : Prepared α) (node : NodeId) :
    (s.commit p).distances[node]? = (p.distance? node).or s.distances[node]? := by
  unfold Session.commit Prepared.distance?
  dsimp only
  generalize s.distances = known
  induction p.notes generalizing known with
  | nil => rfl
  | cons note notes ih =>
    rw [List.foldl_cons, ih, List.reverse_cons, List.lookup_append, Std.TreeMap.getElem?_insert,
      Option.or_assoc, List.lookup_cons]
    by_cases h : note.1 = node
    · simp [h]
    · simp [h, beq_false_of_ne (Ne.symm h)]

/-- In what two sessions may differ: in what they hold, as a translation says, by which numbers the
nodes of sources that are read at the same time are counted, in what the sources of modules may
differ, and of which nodes the distances agree in any case. -/
structure Likeness extends Translation where
  nodes : NodeId → NodeId → Prop
  texts : String → String → Prop
  agreed : NodeId → NodeId → Prop

instance : Coe Likeness Translation :=
  ⟨Likeness.toTranslation⟩

structure Module.Like (T : Translation) (W : World) (m m' : Module) : Prop where
  frame : m'.frame = T.frame m.frame
  plain : W.Plain m.frame
  exports : Table.Like 1 (Value.Like T W) m.exports m'.exports

theorem Module.Like.grow {T : Translation} {W W' : World} (h : Module.Like T W m m')
    (hW : W.Grows W') : Module.Like T W' m m' where
  frame := h.frame
  plain := h.plain.grow hW
  exports := h.exports.mono fun _ _ hv => hv.grow hW

namespace Likeness

/-- The nodes of two sources, read from `start` and from `start'` on, that stand for each other. -/
def fresh (L : Likeness) (start start' : NodeId) (p p' : Prepared Line) : Pairing :=
  fun i j d => L.nodes i j ∧ (start ≤ i ∧ i < p.nextId ∧ p.distance? i = d) ∧
    start' ≤ j ∧ j < p'.nextId ∧ p'.distance? j = d

/-- Sources that were read at the same time, ready to run. -/
structure Ready (L : Likeness) (start start' : NodeId) (p p' : Prepared Line) : Prop where
  le : start ≤ p.nextId
  le' : start' ≤ p'.nextId
  nextId : L.nodes p.nextId p'.nextId
  tree : Line.Like L.names (L.fresh start start' p p') p.tree p'.tree
  range : ∀ i, (p.distance? i).isSome → start ≤ i ∧ i < p.nextId
  range' : ∀ j, (p'.distance? j).isSome → start' ≤ j ∧ j < p'.nextId
  agreed : ∀ i j, L.agreed i j → p'.distance? j = p.distance? i

/-- Sources that are refused with the same error, or are both ready to run. -/
def Prepares (L : Likeness) (ready ready' : NodeId → Except Error (Prepared Line)) : Prop :=
  ∀ start start', L.nodes start start' →
    ExceptRel (L.Ready start start') (ready start) (ready' start')

/-- Sources of one module. -/
def Modules (L : Likeness) (source source' : String) : Prop :=
  L.texts source source' ∧ L.Prepares (Entry.unit source).prepared (Entry.unit source').prepared

/-- The nodes that are known are noted at the same distance in both sessions; no node has a note
before it is there. -/
structure Notes (L : Likeness) (N : Pairing) (next next' : NodeId)
    (distances distances' : Std.TreeMap NodeId Nat) : Prop where
  nextId : L.nodes next next'
  noted : ∀ i j d, N i j d →
    L.nodes i j ∧ i < next ∧ j < next' ∧ distances[i]? = d ∧ distances'[j]? = d
  unnoted : ∀ i, next ≤ i → distances[i]? = none
  unnoted' : ∀ j, next' ≤ j → distances'[j]? = none
  agreed : ∀ i j, L.agreed i j → distances'[j]? = distances[i]?

/-- The context of the second session where the first is in `c`. -/
def context (L : Likeness) (c : Context) : Context :=
  ⟨L.frame c.frame, L.frame c.globals, c.loading⟩

/-- The region of the second session where the first enters `r`. -/
def region (L : Likeness) : Region → Region
  | .block frame => .block (L.frame frame)
  | .body frame globals => .body (L.frame frame) (L.frame globals)
  | .topLevel frame path => .topLevel (L.frame frame) path

theorem region_enter (L : Likeness) (r : Region) (c : Context) :
    (L.region r).enter (L.context c) = L.context (r.enter c) := by
  cases r <;> rfl

theorem region_leave (L : Likeness) (r : Region) (outer inner : Context) :
    (L.region r).leave (L.context outer) (L.context inner) = L.context (r.leave outer inner) := by
  cases r <;> rfl

/-- The sessions correspond, as far as `W` is known; around their innermost frame the scopes are
renamed as `env` says. -/
structure Holds (L : Likeness) (W : World) (env : Renamings) (s s' : Session) : Prop where
  frames : s.frames.Like L W s'.frames
  fields : ∀ made : ObjectId, Option.Rel (Table.Like 1 (Value.Like L W)) s.fields[made]?
    s'.fields[L.object made]?
  objects : L.object.Next s.fields.size s'.fields.size
  arrays : s.arrays.Like L W s'.arrays
  nextIdentity : L.function.Next s.nextIdentity s'.nextIdentity
  notes : L.Notes W.noted s.nextId s'.nextId s.distances s'.distances
  modules : Table.Like 1 (Module.Like L W) s.modules s'.modules
  started : s'.started = s.started
  sources : ∀ path, Option.Rel L.Modules (s.sources path) (s'.sources path)
  context : s'.context = L.context s.context
  output : s'.output = s.output
  refusal : s'.refusal = s.refusal
  clock : s'.clock = s.clock
  here : s.context.frame < W.size
  env : W.renamings s.context.frame = env
  globals : W.Plain s.context.globals

namespace Holds

variable {L : Likeness} {W : World} {env : Renamings} {s s' : Session}

theorem root (h : L.Holds W env s s') : W.Plain rootFrame :=
  h.frames.root

/-- The same sessions in another context. -/
theorem enter (h : L.Holds W env s s') (c : Context) (hframe : c.frame < W.size)
    (hglobals : W.Plain c.globals) :
    L.Holds W (W.renamings c.frame) { s with context := c } { s' with context := L.context c } :=
  { h with context := rfl, here := hframe, env := rfl, globals := hglobals }

/-- With a part of the context put back that the sessions had when less was known of them. -/
theorem back (h : L.Holds W env s s') {t t' : Session} (ht : L.Holds W' env' t t')
    (hW : W.Grows W') (r : Region) :
    L.Holds W' env { t with context := r.leave s.context t.context }
      { t' with context := (L.region r).leave s'.context t'.context } :=
  { ht with
    context := by
      dsimp only
      rw [h.context, ht.context, L.region_leave]
    here := by simpa using Nat.lt_of_lt_of_le h.here hW.size
    env := by simpa using (hW.renamings _ h.here).trans h.env
    globals := by
      dsimp only
      rcases r.globals_leave s.context t.context with heq | heq <;> rw [heq]
      · exact h.globals.grow hW
      · exact ht.globals }

theorem fields_grow (h : L.Holds W env s s') (hW : W.Grows W') (made : ObjectId) :
    Option.Rel (Table.Like 1 (Value.Like L W')) s.fields[made]? s'.fields[L.object made]? := by
  obtain ⟨h₁, h₂⟩ | ⟨t, t', h₁, h₂, ht⟩ := rel_cases (h.fields made) <;> rw [h₁, h₂]
  · exact .none
  · exact .some (ht.mono fun _ _ hv => hv.grow hW)

theorem frame (h : L.Holds W env s s') {outer : FrameId} {o o' : Option Opener}
    (hlt : outer < W.size) (hρ : L.names ρ) (ho : Option.Rel (Opener.Like L.names W.noted) o o') :
    L.Holds (W.addFrame (inside ρ (W.renamings outer))) env
      { s with frames := s.frames.add (some outer) o }
      { s' with frames := s'.frames.add (some (L.frame outer)) o' } :=
  have hgrows := W.grows_addFrame (inside ρ (W.renamings outer))
  { h with
    frames := h.frames.add hlt hρ ho
    fields := h.fields_grow hgrows
    arrays := h.arrays.grow hgrows
    modules := h.modules.mono fun _ _ hm => hm.grow hgrows
    here := Nat.lt_of_lt_of_le h.here hgrows.size
    env := (hgrows.renamings _ h.here).trans h.env
    globals := h.globals.grow hgrows }

/-- The same sessions, in which a module is loaded into a frame. -/
theorem register {frame : FrameId} (h : L.Holds W env s s') (path : String)
    (hframe : W.Plain frame) :
    L.Holds W env
      { s with modules := s.modules.insert path ⟨frame, .empty⟩, started := path :: s.started }
      { s' with
        modules := s'.modules.insert path ⟨L.frame frame, .empty⟩
        started := path :: s'.started } :=
  { h with
    modules := h.modules.insert path ⟨rfl, hframe, .empty⟩
    started := congrArg (path :: ·) h.started }

/-- The same sessions with other nodes, of which more may be known. -/
theorem learn (h : L.Holds W env s s') (hN : W.noted.Le N)
    (hnotes : L.Notes N next next' distances distances') :
    L.Holds { W with noted := N } env { s with nextId := next, distances := distances }
      { s' with nextId := next', distances := distances' } :=
  have hgrows : W.Grows { W with noted := N } := ⟨hN, Nat.le_refl _, fun _ _ => rfl⟩
  { h with
    frames := h.frames.grow hgrows rfl rfl
    fields := h.fields_grow hgrows
    arrays := h.arrays.grow hgrows
    notes := hnotes
    modules := h.modules.mono fun _ _ hm => hm.grow hgrows }

end Holds

theorem Notes.commit {L : Likeness} {s s' : Session}
    (h : L.Notes N s.nextId s'.nextId s.distances s'.distances)
    (hp : L.Ready s.nextId s'.nextId p p') :
    L.Notes (fun i j d => N i j d ∨ L.fresh s.nextId s'.nextId p p' i j d) p.nextId p'.nextId
      (s.commit p).distances (s'.commit p').distances where
  nextId := hp.nextId
  noted i j d hij := by
    rw [getElem?_commit, getElem?_commit]
    rcases hij with hij | ⟨hnodes, ⟨hi, hi', hd⟩, hj, hj', hd'⟩
    · obtain ⟨hnodes, hi, hj, hd, hd'⟩ := h.noted i j d hij
      have hnone : p.distance? i = none := by
        by_contra hsome
        exact absurd hi (Nat.not_lt.2 (hp.range i (Option.isSome_iff_ne_none.2 hsome)).1)
      have hnone' : p'.distance? j = none := by
        by_contra hsome
        exact absurd hj (Nat.not_lt.2 (hp.range' j (Option.isSome_iff_ne_none.2 hsome)).1)
      rw [hnone, hnone', Option.none_or, Option.none_or]
      exact ⟨hnodes, Nat.lt_of_lt_of_le hi hp.le, Nat.lt_of_lt_of_le hj hp.le', hd, hd'⟩
    · rw [h.unnoted i hi, h.unnoted' j hj, Option.or_none, Option.or_none]
      exact ⟨hnodes, hi', hj', hd, hd'⟩
  unnoted i hi := by
    have hnone : p.distance? i = none := by
      by_contra hsome
      exact absurd (hp.range i (Option.isSome_iff_ne_none.2 hsome)).2 (Nat.not_lt.2 hi)
    rw [getElem?_commit, hnone, Option.none_or, h.unnoted i (Nat.le_trans hp.le hi)]
  unnoted' j hj := by
    have hnone : p'.distance? j = none := by
      by_contra hsome
      exact absurd (hp.range' j (Option.isSome_iff_ne_none.2 hsome)).2 (Nat.not_lt.2 hj)
    rw [getElem?_commit, hnone, Option.none_or, h.unnoted' j (Nat.le_trans hp.le' hj)]
  agreed i j hij := by
    rw [getElem?_commit, getElem?_commit, hp.agreed i j hij, h.agreed i j hij]

/-- Sources that are ready are taken into both sessions, and are alike there. -/
theorem Holds.commit {L : Likeness} {env : Renamings} {s s' : Session} (h : L.Holds W env s s')
    (hp : L.Ready s.nextId s'.nextId p p') :
    ∃ W', W.Grows W' ∧ L.Holds W' env (s.commit p) (s'.commit p') ∧
      Line.Like L.names W'.noted p.tree p'.tree := by
  let N : Pairing := fun i j d => W.noted i j d ∨ L.fresh s.nextId s'.nextId p p' i j d
  have hN : W.noted.Le N := fun _ _ _ hij => .inl hij
  exact ⟨{ W with noted := N }, ⟨hN, Nat.le_refl _, fun _ _ => rfl⟩,
    h.learn hN (h.notes.commit hp), hp.tree.mono fun _ _ _ hij => .inr hij⟩

end Likeness

-- ---------------------------------------------------------------------------
-- Computations
-- ---------------------------------------------------------------------------

namespace Likeness

/-- The same halt, or both at a name that is not bound where its distance leads. -/
inductive Halts (L : Likeness) : Halt → Halt → Prop
  | same (h : Halt) : L.Halts h h
  | unbound (name : Token) (d : Nat) : L.names ρ →
    L.Halts (.error (.runtime name.site (.unbound name.lexeme d)))
      (.error (.runtime (name.renamed ρ).site (.unbound (name.renamed ρ).lexeme d)))

/-- From these two sessions the computations come to results as `Q` says or stop alike, and leave
sessions that correspond. -/
inductive Outcomes (L : Likeness) (W : World) (env : Renamings) (Q : World → α → β → Prop) :
    Except Halt α × Session → Except Halt β × Session → Prop
  | ok : W.Grows W' → L.Holds W' env t t' → Q W' a b → Outcomes L W env Q (.ok a, t) (.ok b, t')
  | halt : W.Grows W' → L.Holds W' env t t' → L.Halts h h' →
    Outcomes L W env Q (.error h, t) (.error h', t')

def Joint (L : Likeness) (W : World) (env : Renamings) (s s' : Session) (m : Run α) (m' : Run β)
    (Q : World → α → β → Prop) : Prop :=
  L.Outcomes W env Q (m.on s) (m'.on s')

namespace Joint

variable {α β γ δ : Type} {L : Likeness} {W : World} {env : Renamings} {s s' : Session}
  {Q : World → α → β → Prop} {R : World → γ → δ → Prop}

theorem pure (hs : L.Holds W env s s') (h : Q W a b) :
    L.Joint W env s s' (Pure.pure a : Run α) (Pure.pure b : Run β) Q :=
  .ok (.refl W) hs h

theorem throw (hs : L.Holds W env s s') (h : Halt) :
    L.Joint W env s s' (throw h : Run α) (throw h : Run β) Q :=
  .halt (.refl W) hs (.same _)

theorem raise (hs : L.Holds W env s s') (e : Error) :
    L.Joint W env s s' (Run.raise e : Run α) (Run.raise e : Run β) Q :=
  .halt (.refl W) hs (.same _)

theorem fail (hs : L.Holds W env s s') (site : Site) (fault : RuntimeFault) :
    L.Joint W env s s' (Run.fail site fault : Run α) (Run.fail site fault : Run β) Q :=
  raise hs _

theorem unbound (hs : L.Holds W env s s') (name : Token) (d : Nat) :
    L.Joint W env s s' (Run.fail name.site (.unbound name.lexeme d) : Run α)
      (Run.fail (name.renamed (env d)).site (.unbound (name.renamed (env d)).lexeme d) : Run β) Q :=
  .halt (.refl W) hs (.unbound name d (hs.env ▸ hs.frames.names _ hs.here d))

theorem of_ok {m : Run α} {m' : Run β} (hm : m.on s = (.ok a, t)) (hm' : m'.on s' = (.ok b, t'))
    (hW : W.Grows W') (ht : L.Holds W' env t t') (h : Q W' a b) : L.Joint W env s s' m m' Q := by
  unfold Joint
  rw [hm, hm']
  exact .ok hW ht h

/-- A world of which more is known is as good to end in. -/
theorem grow {m : Run α} {m' : Run β} (hW : W.Grows W') (h : L.Joint W' env s s' m m' Q) :
    L.Joint W env s s' m m' Q := by
  unfold Joint at h ⊢
  generalize m.on s = x at h ⊢
  generalize m'.on s' = x' at h ⊢
  cases h with
  | ok hW' ht hQ => exact .ok (hW.trans hW') ht hQ
  | halt hW' ht hh => exact .halt (hW.trans hW') ht hh

theorem bind {m : Run α} {m' : Run β} {f : α → Run γ} {f' : β → Run δ}
    (hm : L.Joint W env s s' m m' Q)
    (hf : ∀ W' t t' a b, W.Grows W' → L.Holds W' env t t' → Q W' a b →
      L.Joint W' env t t' (f a) (f' b) R) :
    L.Joint W env s s' (m >>= f) (m' >>= f') R := by
  unfold Joint at hm ⊢
  rw [Run.on_bind, Run.on_bind]
  generalize m.on s = x at hm ⊢
  generalize m'.on s' = x' at hm ⊢
  cases hm with
  | ok hW ht hQ => exact (hf _ _ _ _ _ hW ht hQ).grow hW
  | halt hW ht hh => exact .halt hW ht hh

theorem get_bind {f f' : Session → Run α} {R : World → α → α → Prop}
    (hf : L.Joint W env s s' (f s) (f' s') R) :
    L.Joint W env s s' (get >>= f) (get >>= f') R := by
  unfold Joint at hf ⊢
  rw [Run.on_bind, Run.on_bind]
  exact hf

theorem map {m : Run α} {m' : Run β} {g : α → γ} {g' : β → δ} (h : L.Joint W env s s' m m' Q)
    (hg : ∀ W' a b, Q W' a b → R W' (g a) (g' b)) :
    L.Joint W env s s' (g <$> m) (g' <$> m') R := by
  rw [map_eq_pure_bind, map_eq_pure_bind]
  exact h.bind fun W' t t' a b _ ht hQ => pure ht (hg _ _ _ hQ)

theorem ofExcept {r : Except Error α} {r' : Except Error β} (hs : L.Holds W env s s')
    (h : ExceptRel (Q W) r r') :
    L.Joint W env s s' (Run.ofExcept r) (Run.ofExcept r') Q := by
  cases h with
  | ok h => exact pure hs h
  | error e => exact raise hs e

theorem ofResult {r : Except Halt α} {r' : Except Halt β} (hs : L.Holds W env s s')
    (h : ExceptRel (Q W) r r') :
    L.Joint W env s s' (Run.ofResult r) (Run.ofResult r') Q := by
  cases h with
  | ok h => exact pure hs h
  | error h => exact throw hs h

theorem within {m : Run α} {m' : Run β} (hs : L.Holds W env s s') (r : Region)
    (h : L.Joint W env' { s with context := r.enter s.context }
      { s' with context := L.context (r.enter s.context) } m m' Q) :
    L.Joint W env s s' (Run.within r m) (Run.within (L.region r) m') Q := by
  have hcontext : (L.region r).enter s'.context = L.context (r.enter s.context) := by
    rw [hs.context, L.region_enter]
  unfold Joint at h ⊢
  rw [Run.on_within, Run.on_within, hcontext]
  generalize m.on _ = x at h ⊢
  generalize m'.on _ = x' at h ⊢
  cases h with
  | ok hW ht hQ => exact .ok hW (hs.back ht hW r) hQ
  | halt hW ht hh => exact .halt hW (hs.back ht hW r) hh

end Joint

end Likeness

end Treewalk
