import Treewalk.Proofs.Histories
import Treewalk.Proofs.Texts

/-!
# Sessions only grow

Whatever a session is asked to do, frames stay where they were made and keep the names that they
bind, arrays keep their elements, notes are only added, and modules stay loaded. The changes that
carrying out a task consists of are listed once; a property of sessions that each of them keeps
holds at every moment of every run, and in every reachable session.
-/

namespace Treewalk

-- ---------------------------------------------------------------------------
-- Frames
-- ---------------------------------------------------------------------------

namespace Frames

theorem parent?_add_of_lt {fs : Frames} {id : Nat} (h : id < fs.size) :
    (fs.add parent opener).parent? id = fs.parent? id := by
  have : id ≠ fs.store.size := Nat.ne_of_lt h
  simp [parent?, add, Array.getElem?_push, this]

theorem opener?_add_of_lt {fs : Frames} {id : Nat} (h : id < fs.size) :
    (fs.add parent opener).opener? id = fs.opener? id := by
  have : id ≠ fs.store.size := Nat.ne_of_lt h
  simp [opener?, add, Array.getElem?_push, this]

theorem parent?_add_next {fs : Frames} {parent : Nat} (h : parent < fs.size) :
    (fs.add (some parent) opener).parent? fs.next = some parent := by
  have : parent < fs.store.size := h
  simp [parent?, add, next, Option.filter, this]

@[simp] theorem opener?_add_next (fs : Frames) :
    (fs.add parent opener).opener? fs.next = opener := by
  simp [opener?, add, next]

theorem parent?_add_eq_ite (fs : Frames) (parent : Option FrameId) (id : FrameId) :
    (fs.add parent opener).parent? id =
      if id = fs.next then parent.filter (· < fs.size) else fs.parent? id := by
  by_cases h : id = fs.next
  · rw [if_pos h, h]
    show (fs.store.push _)[fs.store.size]?.bind Frame.parent = _
    rw [Array.getElem?_push_size]
    rfl
  · rw [if_neg h]
    simp [parent?, add, Array.getElem?_push, show id ≠ fs.store.size from h]

theorem opener?_add_eq_ite (fs : Frames) (id : FrameId) :
    (fs.add parent opener).opener? id = if id = fs.next then opener else fs.opener? id := by
  by_cases h : id = fs.next
  · rw [if_pos h, h]
    exact opener?_add_next fs
  · rw [if_neg h]
    simp [opener?, add, Array.getElem?_push, show id ≠ fs.store.size from h]

@[simp] theorem size_add (fs : Frames) : (fs.add parent opener).size = fs.size + 1 := by
  simp [size, add]

theorem next_lt_add (fs : Frames) : fs.next < (fs.add parent opener).size := by
  simp [size, next, add]

@[simp] theorem bindings_add (fs : Frames) (id : FrameId) :
    (fs.add parent opener).bindings id = fs.bindings id := by
  simp only [bindings, add, Array.getElem?_push]
  by_cases h : id = fs.store.size
  · simp [h]
  · simp [h]

@[simp] theorem getLocal?_add (fs : Frames) (id : FrameId) (name : String) :
    (fs.add parent opener).getLocal? id name = fs.getLocal? id name := by
  simp [getLocal?]

@[simp] theorem opener?_define (fs : Frames) (id other : FrameId) (name : String)
    (value : Value) : (fs.define id name value).opener? other = fs.opener? other := by
  simp only [opener?, define, Array.getElem?_modify]
  split
  · next h =>
    subst h
    cases fs.store[id]? <;> rfl
  · rfl

theorem getLocal?_define (fs : Frames) (id other : FrameId) (name name' : String) (value : Value) :
    (fs.define id name value).getLocal? other name' =
      if other = id ∧ id < fs.size ∧ name' = name then some value
      else fs.getLocal? other name' := by
  simp only [getLocal?, bindings_define]
  by_cases h : other = id ∧ id < fs.size
  · obtain ⟨rfl, hlt⟩ := h
    simp [hlt]
  · rw [if_neg h, if_neg fun h' => h ⟨h'.1, h'.2.1⟩]

/-- A new frame binds nothing. -/
theorem getLocal?_add_next (fs : Frames) (name : String) :
    (fs.add parent opener).getLocal? fs.next name = none := by
  rw [getLocal?_add, getLocal?, bindings, next, Array.getElem?_eq_none (Nat.le_refl _)]
  rfl

theorem lt_of_opener? {fs : Frames} {id : FrameId} (h : fs.opener? id = some opener) :
    id < fs.size := by
  obtain ⟨f, hf, -⟩ := Option.bind_eq_some_iff.1 h
  exact (Array.getElem?_eq_some_iff.1 hf).1

theorem lt_of_parent? {fs : Frames} {id : FrameId} (h : fs.parent? id = some outer) :
    id < fs.size := by
  obtain ⟨f, hf, -⟩ := Option.bind_eq_some_iff.1 h
  exact (Array.getElem?_eq_some_iff.1 hf).1

theorem contains_bindings {fs : Frames} (frame : FrameId) (name : String) :
    (fs.bindings frame).contains name = (fs.getLocal? frame name).isSome := rfl

/-- Every step outwards leads to a frame that was made before. -/
theorem ancestor?_le {fs : Frames} (h : fs.ancestor? frame d = some found) :
    found + d ≤ frame := by
  induction d generalizing frame with
  | zero => exact Nat.le_of_eq (Option.some.inj h).symm
  | succ d ih =>
    simp only [ancestor?] at h
    split at h
    · next outer hparent =>
      exact Nat.le_of_lt_succ (Nat.lt_succ_of_le
        ((Nat.succ_le_succ (ih h)).trans (parent?_lt hparent)))
    · cases h

theorem root_lt_initial : rootFrame < Frames.initial.size := by
  decide

/-- Native functions are all that the frames of a new session bind. -/
theorem initial_bindings {P : Table Value → Prop} (empty : P .empty)
    (insert : ∀ t (f : Native), P t → P (t.insert f.name (.native f))) (frame : FrameId) :
    P (Frames.initial.bindings frame) := by
  suffices ∀ (natives : List Native) (fs : Frames), (∀ frame, P (fs.bindings frame)) →
      ∀ frame, P ((natives.foldl (fun fs f => fs.define rootFrame f.name (.native f))
        fs).bindings frame) by
    refine this Native.all _ (fun other => ?_) frame
    rw [addRoot, bindings_add]
    exact empty
  intro natives
  induction natives with
  | nil => exact fun fs hfs => hfs
  | cons f natives ih =>
    intro fs hfs
    refine ih _ fun other => ?_
    rw [bindings_define]
    split
    · exact insert _ f (hfs rootFrame)
    · exact hfs other

/-- Frames stay where they are, and keep what they were made for and the names that they bind. -/
structure Grows (fs fs' : Frames) : Prop where
  size : fs.size ≤ fs'.size
  parent : ∀ id < fs.size, fs'.parent? id = fs.parent? id
  opener : ∀ id < fs.size, fs'.opener? id = fs.opener? id
  bound : ∀ id name, (fs.getLocal? id name).isSome → (fs'.getLocal? id name).isSome

namespace Grows

theorem refl (fs : Frames) : fs.Grows fs :=
  ⟨Nat.le_refl _, fun _ _ => rfl, fun _ _ => rfl, fun _ _ h => h⟩

theorem trans {fs fs' fs'' : Frames} (h : fs.Grows fs') (h' : fs'.Grows fs'') :
    fs.Grows fs'' where
  size := Nat.le_trans h.size h'.size
  parent id hid := by rw [h'.parent id (Nat.lt_of_lt_of_le hid h.size), h.parent id hid]
  opener id hid := by rw [h'.opener id (Nat.lt_of_lt_of_le hid h.size), h.opener id hid]
  bound id name hb := h'.bound id name (h.bound id name hb)

theorem add (fs : Frames) (parent : Option FrameId) (opener : Option Opener) :
    fs.Grows (fs.add parent opener) where
  size := by simp
  parent _ hid := parent?_add_of_lt hid
  opener _ hid := opener?_add_of_lt hid
  bound _ _ hb := by simpa using hb

theorem ancestor {fs fs' : Frames} (h : fs.Grows fs')
    (hfound : fs.ancestor? frame distance = some found) :
    fs'.ancestor? frame distance = some found := by
  induction distance generalizing frame with
  | zero => exact hfound
  | succ distance ih =>
    simp only [ancestor?] at hfound ⊢
    cases hparent : fs.parent? frame with
    | none => simp only [hparent, reduceCtorEq] at hfound
    | some outer =>
      simp only [hparent] at hfound
      simp only [h.parent frame (lt_of_parent? hparent), hparent, ih hfound]

theorem define (fs : Frames) (id : FrameId) (name : String) (value : Value) :
    fs.Grows (fs.define id name value) where
  size := by simp
  parent _ _ := by simp
  opener _ _ := by simp
  bound other name' hb := by
    rw [getLocal?_define]
    split
    · rfl
    · exact hb

end Grows

end Frames

-- ---------------------------------------------------------------------------
-- Sessions
-- ---------------------------------------------------------------------------

/-- What a session keeps, whatever it is asked to do. The context is another matter. -/
structure Session.Grows (s s' : Session) : Prop where
  frames : s.frames.Grows s'.frames
  arrays : s.arrays.Grows s'.arrays
  nextId : s.nextId ≤ s'.nextId
  distances : ∀ id < s.nextId, s'.distances[id]? = s.distances[id]?
  modules : ∀ path m, s.modules.get? path = some m →
    ∃ m', s'.modules.get? path = some m' ∧ m'.frame = m.frame
  started : s.started <:+ s'.started
  sources : s'.sources = s.sources

namespace Session.Grows

theorem refl (s : Session) : s.Grows s :=
  ⟨.refl _, .refl _, Nat.le_refl _, fun _ _ => rfl, fun _ m h => ⟨m, h, rfl⟩, List.suffix_refl _,
    rfl⟩

theorem trans {s s' s'' : Session} (h : s.Grows s') (h' : s'.Grows s'') : s.Grows s'' where
  frames := h.frames.trans h'.frames
  arrays := h.arrays.trans h'.arrays
  nextId := Nat.le_trans h.nextId h'.nextId
  distances id hid := by
    rw [h'.distances id (Nat.lt_of_lt_of_le hid h.nextId), h.distances id hid]
  modules path m hm := by
    obtain ⟨m', hm', hf⟩ := h.modules path m hm
    obtain ⟨m'', hm'', hf'⟩ := h'.modules path m' hm'
    exact ⟨m'', hm'', hf'.trans hf⟩
  started := h.started.trans h'.started
  sources := h'.sources.trans h.sources

theorem within {s s' : Session} (h : { s with context := c }.Grows s') :
    s.Grows { s' with context := c' } :=
  ⟨h.frames, h.arrays, h.nextId, h.distances, h.modules, h.started, h.sources⟩

end Session.Grows

theorem foldl_insert_of_not_mem {notes : List Scope.Note} {known : Std.TreeMap NodeId Nat}
    {id : NodeId} (h : id ∉ notes.map Prod.fst) :
    (notes.foldl (fun known (id, distance) => known.insert id distance) known)[id]? =
      known[id]? := by
  induction notes generalizing known with
  | nil => rfl
  | cons n notes ih =>
    simp only [List.map_cons, List.mem_cons, not_or] at h
    rw [List.foldl_cons, ih h.2, Std.TreeMap.getElem?_insert]
    simp [Ne.symm h.1]

theorem foldl_insert_of_mem {notes : List Scope.Note} {known : Std.TreeMap NodeId Nat}
    {id : NodeId} (hnodup : (notes.map Prod.fst).Nodup) (h : (id, d) ∈ notes) :
    (notes.foldl (fun known (id, distance) => known.insert id distance) known)[id]? = some d := by
  induction notes generalizing known with
  | nil => cases h
  | cons n notes ih =>
    rw [List.map_cons, List.nodup_cons] at hnodup
    rw [List.foldl_cons]
    rcases List.mem_cons.1 h with rfl | hmem
    · rw [foldl_insert_of_not_mem hnodup.1, Std.TreeMap.getElem?_insert]
      simp
    · exact ih hnodup.2 hmem

/-- Notes for new nodes leave the notes for older ones as they were. -/
theorem Session.Grows.commit {s : Session} (h : Checked s.nextId p) : s.Grows (s.commit p) where
  frames := .refl _
  arrays := .refl _
  nextId := h.fresh.le
  distances id hid := by
    refine foldl_insert_of_not_mem fun hmem => ?_
    obtain ⟨n, hn, rfl⟩ := List.mem_map.1 hmem
    exact absurd hid (Nat.not_lt.2 (h.notes_range hn).1)
  modules _ m hm := ⟨m, hm, rfl⟩
  started := List.suffix_refl _
  sources := rfl

end Treewalk
