import Mathlib
import Treewalk.Proofs.Growth

/-!
# Searches and distances

A name is searched frame by frame until one binds it; a distance counts frames and asks none of them
for the name. The two agree: a search finds what stands at the least distance at which the name is
bound. So a binding that changes is seen by the searches that end in its frame, however many chains
share it, and by no others.
-/

namespace Treewalk

namespace Frames

-- ---------------------------------------------------------------------------
-- Operations
-- ---------------------------------------------------------------------------

/-- The single operations on frames. A frame must be there to be named. -/
inductive Step : Frames → Frames → Prop
  | root : Step fs fs.addRoot
  | child : parent < fs.size → Step fs (fs.addChild parent)
  | scope : parent < fs.size → Step fs (fs.addScope parent opener)
  | define : frame < fs.size → Step fs (fs.define frame name value)
  | write : fs.write frame t value = .ok fs' → Step fs fs'
  | assignAt : frame < fs.size → fs.assignAt? frame distance name value = some fs' → Step fs fs'

/-- Going outwards from `id`, the name is first met in `holder`, `d` steps away. -/
structure Meets (fs : Frames) (id : FrameId) (name : String) (d : Nat)
    (holder : FrameId) : Prop where
  ancestor : fs.ancestor? id d = some holder
  bound : (fs.getLocal? holder name).isSome
  first : ∀ nearer < d, fs.getAt? id nearer name = none

/-- The one difference between the frames is what `frame` binds `name` to. -/
structure Rebinds (fs : Frames) (frame : FrameId) (name : String) (value : Value) (fs' : Frames) :
    Prop where
  size : fs'.size = fs.size
  parent : ∀ id, fs'.parent? id = fs.parent? id
  opener : ∀ id, fs'.opener? id = fs.opener? id
  bound : fs'.getLocal? frame name = some value
  others : ∀ id other, ¬ (id = frame ∧ other = name) →
    fs'.getLocal? id other = fs.getLocal? id other

variable {fs fs' : Frames} {id outer frame holder : FrameId} {name : String} {t : Token}
  {value : Value}

theorem define_rebinds (h : frame < fs.size) (name : String) (value : Value) :
    fs.Rebinds frame name value (fs.define frame name value) where
  size := size_define ..
  parent id := parent?_define ..
  opener id := opener?_define ..
  bound := by simp [getLocal?_define, h]
  others id other hother := by
    rw [getLocal?_define, if_neg fun h => hother ⟨h.1, h.2.2⟩]

theorem lt_of_bound (h : (fs.getLocal? frame name).isSome) : frame < fs.size := by
  by_contra hge
  rw [getLocal?, bindings, Array.getElem?_eq_none (Nat.le_of_not_lt hge)] at h
  cases h

-- ---------------------------------------------------------------------------
-- Distances
-- ---------------------------------------------------------------------------

theorem parent?_wellFounded (fs : Frames) :
    WellFounded fun outer inner : FrameId => fs.parent? inner = some outer :=
  Subrelation.wf (fun h => parent?_lt h) Nat.lt_wfRel.wf

theorem ancestor?_lt_size (hid : id < fs.size) (h : fs.ancestor? id d = some frame) :
    frame < fs.size :=
  Nat.lt_of_le_of_lt (Nat.le_of_add_right_le (ancestor?_le h)) hid

theorem getAt?_succ (h : fs.parent? id = some outer) (d : Nat) (name : String) :
    fs.getAt? id (d + 1) name = fs.getAt? outer d name := by
  simp only [getAt?, ancestor?, h]

theorem getAt?_of_ancestor? (h : fs.ancestor? id d = some frame) (name : String) :
    fs.getAt? id d name = fs.getLocal? frame name := by
  simp only [getAt?, h]

-- ---------------------------------------------------------------------------
-- Searches
-- ---------------------------------------------------------------------------

theorem meets_zero : fs.Meets id name 0 holder ↔ holder = id ∧ (fs.getLocal? id name).isSome := by
  constructor
  · rintro ⟨hancestor, hbound, -⟩
    cases hancestor
    exact ⟨rfl, hbound⟩
  · rintro ⟨rfl, hbound⟩
    exact ⟨rfl, hbound, fun _ h => absurd h (Nat.not_lt_zero _)⟩

theorem meets_succ (h : fs.parent? id = some outer) :
    fs.Meets id name (d + 1) holder ↔ fs.getLocal? id name = none ∧
      fs.Meets outer name d holder := by
  have hstep (d : Nat) : fs.ancestor? id (d + 1) = fs.ancestor? outer d := by
    simp only [ancestor?, h]
  constructor
  · rintro ⟨hancestor, hbound, hfirst⟩
    refine ⟨hfirst 0 d.succ_pos, (hstep d).symm.trans hancestor, hbound, fun nearer hnearer => ?_⟩
    rw [← getAt?_succ h]
    exact hfirst _ (Nat.succ_lt_succ hnearer)
  · rintro ⟨hunbound, hancestor, hbound, hfirst⟩
    refine ⟨(hstep d).trans hancestor, hbound, fun nearer hnearer => ?_⟩
    cases nearer with
    | zero => exact hunbound
    | succ nearer =>
      rw [getAt?_succ h]
      exact hfirst nearer (Nat.lt_of_succ_lt_succ hnearer)

/-- A search that may go over `reach` frames ends where the name is first met among them. -/
theorem holderWithin_eq_some_iff (reach : Nat) :
    fs.holderWithin name reach id = some holder ↔ ∃ d < reach, fs.Meets id name d holder := by
  induction reach generalizing id with
  | zero => simp [holderWithin]
  | succ reach ih =>
    rw [holderWithin, contains_bindings]
    by_cases hbound : (fs.getLocal? id name).isSome
    · rw [if_pos hbound, Option.some_inj]
      constructor
      · rintro rfl
        exact ⟨0, reach.succ_pos, meets_zero.2 ⟨rfl, hbound⟩⟩
      · rintro ⟨_ | d, -, hmeets⟩
        · exact (meets_zero.1 hmeets).1.symm
        · have hunbound : fs.getLocal? id name = none := hmeets.first 0 d.succ_pos
          rw [hunbound] at hbound
          cases hbound
    · rw [if_neg hbound]
      constructor
      · intro h
        split at h
        · next hparent =>
          obtain ⟨d, hd, hmeets⟩ := ih.1 h
          exact ⟨d + 1, Nat.succ_lt_succ hd,
            (meets_succ hparent).2 ⟨Option.not_isSome_iff_eq_none.1 hbound, hmeets⟩⟩
        · cases h
      · rintro ⟨_ | d, hd, hmeets⟩
        · exact absurd (meets_zero.1 hmeets).2 hbound
        · cases hparent : fs.parent? id with
          | none =>
            have hancestor := hmeets.ancestor
            simp only [ancestor?, hparent] at hancestor
            cases hancestor
          | some outer =>
            exact ih.2 ⟨d, Nat.lt_of_succ_lt_succ hd, ((meets_succ hparent).1 hmeets).2⟩

theorem holder?_eq_some_iff :
    fs.holder? id name = some holder ↔ ∃ d, fs.Meets id name d holder := by
  rw [holder?, holderWithin_eq_some_iff]
  constructor
  · rintro ⟨d, -, hmeets⟩
    exact ⟨d, hmeets⟩
  · rintro ⟨d, hmeets⟩
    have hle := Nat.le_of_add_left_le (ancestor?_le hmeets.ancestor)
    exact ⟨d, Nat.lt_succ_of_le hle, hmeets⟩

/-- A search fails only if no distance leads to the name: of those that do, one is the least. -/
theorem holder?_eq_none_iff : fs.holder? id name = none ↔ ∀ d, fs.getAt? id d name = none := by
  constructor
  · intro hnone d
    induction d using Nat.strong_induction_on with
    | h d ih =>
      cases hancestor : fs.ancestor? id d with
      | none => simp only [getAt?, hancestor]
      | some frame =>
        rw [getAt?_of_ancestor? hancestor]
        by_contra hbound
        have hmeets : fs.Meets id name d frame :=
          ⟨hancestor, Option.isSome_iff_ne_none.2 hbound, ih⟩
        rw [holder?_eq_some_iff.2 ⟨d, hmeets⟩] at hnone
        cases hnone
  · intro h
    cases hholder : fs.holder? id name with
    | none => rfl
    | some holder =>
      obtain ⟨d, hmeets⟩ := holder?_eq_some_iff.1 hholder
      have hbound := hmeets.bound
      rw [← getAt?_of_ancestor? hmeets.ancestor, h d] at hbound
      cases hbound

-- ---------------------------------------------------------------------------
-- Reading and writing by name
-- ---------------------------------------------------------------------------

/-- A read comes to what its search comes to. -/
theorem read_cases (fs : Frames) (id : FrameId) (t : Token) :
    (∃ holder w, fs.holder? id t.lexeme = some holder ∧ fs.getLocal? holder t.lexeme = some w ∧
      fs.read id t = .ok w) ∨
    fs.holder? id t.lexeme = none ∧ fs.read id t = .error (undefined t) := by
  cases hholder : fs.holder? id t.lexeme with
  | none => exact .inr ⟨rfl, by simp only [read, get?, hholder]⟩
  | some holder =>
    obtain ⟨d, hmeets⟩ := holder?_eq_some_iff.1 hholder
    obtain ⟨w, hw⟩ := Option.isSome_iff_exists.1 hmeets.bound
    exact .inl ⟨holder, w, rfl, hw, by simp only [read, get?, hholder, hw]⟩

theorem write_cases (fs : Frames) (id : FrameId) (t : Token) (value : Value) :
    (∃ holder, fs.holder? id t.lexeme = some holder ∧
      fs.write id t value = .ok (fs.define holder t.lexeme value)) ∨
    fs.holder? id t.lexeme = none ∧ fs.write id t value = .error (undefined t) := by
  cases hholder : fs.holder? id t.lexeme with
  | none => exact .inr ⟨rfl, by simp only [write, assign?, hholder]⟩
  | some holder => exact .inl ⟨holder, rfl, by simp only [write, assign?, hholder]⟩

theorem read_eq_ok_iff : fs.read id t = .ok w ↔
    ∃ d holder, fs.Meets id t.lexeme d holder ∧ fs.getAt? id d t.lexeme = some w := by
  obtain ⟨holder, w', hholder, hw', hread⟩ | ⟨hnone, hread⟩ := read_cases fs id t
  · rw [hread]
    constructor
    · rintro ⟨⟩
      obtain ⟨d, hmeets⟩ := holder?_eq_some_iff.1 hholder
      exact ⟨d, holder, hmeets, (getAt?_of_ancestor? hmeets.ancestor _).trans hw'⟩
    · rintro ⟨d, holder', hmeets, hw⟩
      have hholder' := holder?_eq_some_iff.2 ⟨d, hmeets⟩
      rw [hholder] at hholder'
      cases hholder'
      rw [getAt?_of_ancestor? hmeets.ancestor, hw'] at hw
      cases hw
      rfl
  · rw [hread]
    refine iff_of_false (fun h => nomatch h) ?_
    rintro ⟨d, holder, hmeets, -⟩
    rw [holder?_eq_some_iff.2 ⟨d, hmeets⟩] at hnone
    cases hnone

theorem read_eq_error_iff : fs.read id t = .error e ↔
    e = undefined t ∧ ∀ d, fs.getAt? id d t.lexeme = none := by
  rw [← holder?_eq_none_iff]
  obtain ⟨holder, w, hholder, -, hread⟩ | ⟨hnone, hread⟩ := read_cases fs id t
  · rw [hread, hholder]
    simp
  · rw [hread, hnone]
    simp [eq_comm]

/-- A write fails where a read does, and in the same way. -/
theorem write_eq_error_iff : fs.write id t value = .error e ↔ fs.read id t = .error e := by
  rw [read_eq_error_iff, ← holder?_eq_none_iff]
  obtain ⟨holder, hholder, hwrite⟩ | ⟨hnone, hwrite⟩ := write_cases fs id t value
  · rw [hwrite, hholder]
    simp
  · rw [hwrite, hnone]
    simp [eq_comm]

theorem define_of_write (h : fs.write id t value = .ok fs') :
    ∃ holder, fs.holder? id t.lexeme = some holder ∧ fs' = fs.define holder t.lexeme value := by
  obtain ⟨holder, hholder, hwrite⟩ | ⟨-, hwrite⟩ := write_cases fs id t value
  · rw [hwrite] at h
    exact ⟨holder, hholder, (Except.ok.inj h).symm⟩
  · rw [hwrite] at h
    cases h

theorem write_eq_ok (h : fs.write id t value = .ok fs') :
    ∃ d holder, fs.Meets id t.lexeme d holder ∧ fs.Rebinds holder t.lexeme value fs' := by
  obtain ⟨holder, hholder, rfl⟩ := define_of_write h
  obtain ⟨d, hmeets⟩ := holder?_eq_some_iff.1 hholder
  exact ⟨d, holder, hmeets, define_rebinds (lt_of_bound hmeets.bound) _ _⟩

theorem define_of_assignAt? (h : fs.assignAt? id d name value = some fs') :
    ∃ frame, fs.ancestor? id d = some frame ∧ fs' = fs.define frame name value := by
  unfold assignAt? at h
  split at h
  · next frame hancestor => exact ⟨frame, hancestor, (Option.some.inj h).symm⟩
  · cases h

theorem assignAt?_eq_some (hid : id < fs.size) (h : fs.assignAt? id d name value = some fs') :
    ∃ frame, fs.ancestor? id d = some frame ∧ fs.Rebinds frame name value fs' := by
  obtain ⟨frame, hancestor, rfl⟩ := define_of_assignAt? h
  exact ⟨frame, hancestor, define_rebinds (ancestor?_lt_size hid hancestor) _ _⟩

theorem isSome_assignAt? : (fs.assignAt? id d name value).isSome ↔ (fs.ancestor? id d).isSome := by
  unfold assignAt?
  cases fs.ancestor? id d <;> rfl

-- ---------------------------------------------------------------------------
-- What a changed binding is seen by
-- ---------------------------------------------------------------------------

namespace Rebinds

variable {start : FrameId}

theorem ancestor? (h : fs.Rebinds frame name value fs') (start : FrameId) (d : Nat) :
    fs'.ancestor? start d = fs.ancestor? start d := by
  induction d generalizing start with
  | zero => rfl
  | succ d ih => simp only [Frames.ancestor?, h.parent, ih]

theorem getAt?_here (h : fs.Rebinds frame name value fs') (hd : fs.ancestor? start d = some frame) :
    fs'.getAt? start d name = some value := by
  rw [getAt?_of_ancestor? ((h.ancestor? start d).trans hd), h.bound]

theorem getAt?_elsewhere (h : fs.Rebinds frame name value fs')
    (hd : ¬ (fs.ancestor? start d = some frame ∧ other = name)) :
    fs'.getAt? start d other = fs.getAt? start d other := by
  unfold getAt?
  rw [h.ancestor?]
  cases hancestor : fs.ancestor? start d with
  | none => rfl
  | some found => exact h.others found other fun heq => hd ⟨heq.1 ▸ hancestor, heq.2⟩

/-- Names that were bound stay bound, and no others come to be. -/
theorem isSome_getAt? (h : fs.Rebinds frame name value fs')
    (hbound : (fs.getLocal? frame name).isSome)
    (start : FrameId) (d : Nat) (other : String) :
    (fs'.getAt? start d other).isSome = (fs.getAt? start d other).isSome := by
  by_cases hd : fs.ancestor? start d = some frame ∧ other = name
  · obtain ⟨hd, rfl⟩ := hd
    rw [h.getAt?_here hd, getAt?_of_ancestor? hd, hbound]
    rfl
  · rw [h.getAt?_elsewhere hd]

/-- Where a name is met does not change with what it is bound to. -/
theorem meets_iff (h : fs.Rebinds frame name value fs')
    (hbound : (fs.getLocal? frame name).isSome) :
    fs'.Meets start other d holder ↔ fs.Meets start other d holder := by
  have hnone (nearer : Nat) :
      fs'.getAt? start nearer other = none ↔ fs.getAt? start nearer other = none := by
    rw [← Option.not_isSome_iff_eq_none, ← Option.not_isSome_iff_eq_none,
      h.isSome_getAt? hbound]
  have hsome (hancestor : fs.ancestor? start d = some holder) :
      (fs'.getLocal? holder other).isSome = (fs.getLocal? holder other).isSome := by
    rw [← getAt?_of_ancestor? hancestor, ← h.isSome_getAt? hbound,
      getAt?_of_ancestor? ((h.ancestor? start d).trans hancestor)]
  constructor
  · rintro ⟨hancestor, hbound', hfirst⟩
    rw [h.ancestor?] at hancestor
    exact ⟨hancestor, hsome hancestor ▸ hbound', fun nearer hn =>
      (hnone nearer).1 (hfirst nearer hn)⟩
  · rintro ⟨hancestor, hbound', hfirst⟩
    exact ⟨(h.ancestor? start d).trans hancestor, (hsome hancestor).symm ▸ hbound',
      fun nearer hn => (hnone nearer).2 (hfirst nearer hn)⟩

theorem read_here (h : fs.Rebinds frame t.lexeme value fs')
    (hmeets : fs.Meets start t.lexeme d frame) :
    fs'.read start t = .ok value :=
  read_eq_ok_iff.2 ⟨d, frame, (h.meets_iff hmeets.bound).2 hmeets, h.getAt?_here hmeets.ancestor⟩

theorem read_elsewhere (h : fs.Rebinds frame name value fs')
    (hbound : (fs.getLocal? frame name).isSome)
    (hnot : ¬ (t.lexeme = name ∧ ∃ d, fs.Meets start name d frame)) :
    fs'.read start t = fs.read start t := by
  obtain ⟨holder, w, hholder, hw, hread⟩ | ⟨hnone, hread⟩ := read_cases fs start t
  · obtain ⟨d, hmeets⟩ := holder?_eq_some_iff.1 hholder
    have hother : ¬ (fs.ancestor? start d = some frame ∧ t.lexeme = name) := by
      rintro ⟨hancestor, heq⟩
      rw [hmeets.ancestor] at hancestor
      cases hancestor
      exact hnot ⟨heq, d, heq ▸ hmeets⟩
    rw [hread, read_eq_ok_iff]
    refine ⟨d, holder, (h.meets_iff hbound).2 hmeets, ?_⟩
    rw [h.getAt?_elsewhere hother, getAt?_of_ancestor? hmeets.ancestor, hw]
  · rw [hread, read_eq_error_iff]
    refine ⟨rfl, fun d => ?_⟩
    rw [← Option.not_isSome_iff_eq_none, h.isSome_getAt? hbound, holder?_eq_none_iff.1 hnone d]
    exact Bool.false_ne_true

end Rebinds

-- ---------------------------------------------------------------------------
-- Sequences of operations
-- ---------------------------------------------------------------------------

theorem Step.grows (h : Step fs fs') : fs.Grows fs' := by
  cases h with
  | root | child | scope => exact .add ..
  | define => exact .define ..
  | write h =>
    obtain ⟨holder, -, rfl⟩ := define_of_write h
    exact .define ..
  | assignAt _ h =>
    obtain ⟨frame, -, rfl⟩ := define_of_assignAt? h
    exact .define ..

/-- Frames that are there keep their parents, whatever is done later. -/
theorem Grows.of_steps (h : Relation.ReflTransGen Step fs fs') : fs.Grows fs' := by
  induction h with
  | refl => exact .refl fs
  | tail _ hstep ih => exact ih.trans hstep.grows

end Frames

/-- The evaluator assigns by distance if one is noted for the node, and else by name from the
globals of the unit. -/
theorem Run.on_assign (node : NodeId) (t : Token) (v : Value) (s : Session) :
    (Run.assign node t v).on s =
      match s.distances[node]? with
      | some d =>
        match s.frames.assignAt? s.context.frame d t.lexeme v with
        | some fs => (.ok (), { s with frames := fs })
        | none => (.error (.error (.runtime t.site (.unbound t.lexeme d))), s)
      | none =>
        match s.frames.write s.context.globals t v with
        | .ok fs => (.ok (), { s with frames := fs })
        | .error e => (.error (.error e), s) := by
  simp only [assign, assignee, on_bind, on_get]
  cases s.distances[node]? with
  | some d =>
    simp only [Frames.assignAt?]
    cases s.frames.ancestor? s.context.frame d <;> rfl
  | none =>
    simp only [Frames.write, Frames.assign?]
    cases s.frames.holder? s.context.globals t.lexeme <;> rfl

/-- An assignment that fails changes nothing. -/
theorem Run.assign_atomic (h : (Run.assign node t v).on s = (.error halt, s')) : s' = s := by
  rw [Run.on_assign] at h
  split at h <;> split at h <;> cases h <;> rfl

/-- Frames have the parents that they were made with, which were there before. A name is read where
it stands at the least distance, and cannot be read if it stands at none. It can be written where it
can be read: then the binding there is the one that changes, so that reading gives the new value
wherever a search ends there, and what it gave before everywhere else. By distance it can be written
if the distance leads to a frame, whether the name is bound there or not. An assignment that fails
leaves the session as it was. -/
theorem searches_agree_with_distances (fs : Frames) :
    WellFounded (fun outer inner : FrameId => fs.parent? inner = some outer) ∧
    (fs.addRoot.parent? fs.next = none ∧
      ∀ outer < fs.size, ∀ opener, (fs.add (some outer) opener).parent? fs.next = some outer) ∧
    (∀ fs', Relation.ReflTransGen Frames.Step fs fs' → ∀ id < fs.size,
      fs'.parent? id = fs.parent? id) ∧
    (∀ id t, (∀ w, fs.read id t = .ok w ↔
        ∃ d holder, fs.Meets id t.lexeme d holder ∧ fs.getAt? id d t.lexeme = some w) ∧
      ∀ e, fs.read id t = .error e ↔
        e = Frames.undefined t ∧ ∀ d, fs.getAt? id d t.lexeme = none) ∧
    (∀ id t v, (∀ e, fs.write id t v = .error e ↔ fs.read id t = .error e) ∧
      ∀ fs', fs.write id t v = .ok fs' →
        ∃ d holder, fs.Meets id t.lexeme d holder ∧ fs.Rebinds holder t.lexeme v fs' ∧
          (∀ start, (∃ d, fs.Meets start t.lexeme d holder) → fs'.read start t = .ok v) ∧
          (∀ start t', ¬ (t'.lexeme = t.lexeme ∧ ∃ d, fs.Meets start t.lexeme d holder) →
            fs'.read start t' = fs.read start t') ∧
          ∀ start d name, ¬ (fs.ancestor? start d = some holder ∧ name = t.lexeme) →
            fs'.getAt? start d name = fs.getAt? start d name) ∧
    (∀ id < fs.size, ∀ d name v,
      ((fs.assignAt? id d name v).isSome ↔ (fs.ancestor? id d).isSome) ∧
      ∀ fs', fs.assignAt? id d name v = some fs' →
        ∃ frame, fs.ancestor? id d = some frame ∧ fs.Rebinds frame name v fs') ∧
    ∀ s s' node t v halt, (Run.assign node t v).on s = (.error halt, s') → s' = s := by
  have hroot : fs.addRoot.parent? fs.next = none := by
    rw [Frames.addRoot, Frames.parent?_add_eq_ite, if_pos rfl]
    rfl
  refine ⟨fs.parent?_wellFounded,
    ⟨hroot, fun outer houter opener => Frames.parent?_add_next houter⟩,
    fun fs' h => (Frames.Grows.of_steps h).parent, fun id t =>
    ⟨fun w => Frames.read_eq_ok_iff, fun e => Frames.read_eq_error_iff⟩, fun id t v =>
    ⟨fun e => Frames.write_eq_error_iff, fun fs' h => ?_⟩, fun id hid d name v =>
    ⟨Frames.isSome_assignAt?, fun fs' h => Frames.assignAt?_eq_some hid h⟩,
    fun s s' node t v halt h => Run.assign_atomic h⟩
  obtain ⟨d, holder, hmeets, hrebinds⟩ := Frames.write_eq_ok h
  refine ⟨d, holder, hmeets, hrebinds, fun start hstart => ?_,
    fun start t' hnot => hrebinds.read_elsewhere hmeets.bound hnot,
    fun start d name hnot => hrebinds.getAt?_elsewhere hnot⟩
  obtain ⟨d, hstart⟩ := hstart
  exact hrebinds.read_here hstart

end Treewalk
