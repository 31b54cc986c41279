import Treewalk.Proofs.Holdings

/-!
# What code can reach

A frame, the fields of a class or instance, or an array, is a cell. Frames lead to their parents,
and cells to what the values in them mention: a function to the frame that it was declared in and to
the globals of its module, a class to its fields and methods, an instance to its own fields and the
methods of its class, an array to its elements. The root frame can always be reached, and so can all
that the table of modules holds. Cells to which nothing else leads stand apart; a change that
neither touches them nor mentions them leaves them so.
-/

namespace Treewalk

/-- A part of a session that is shared: a frame, the fields of a class or instance, or the elements
of an array. -/
inductive Cell where
  | frame (id : FrameId)
  | fields (id : ObjectId)
  | elements (id : ArrayId)
deriving DecidableEq, Repr

-- ---------------------------------------------------------------------------
-- What is mentioned
-- ---------------------------------------------------------------------------

def Table.cells (part : α → List Cell) (t : Table α) : List Cell :=
  t.entries.flatMap fun entry => part entry.2

def Closure.cells (c : Closure) : List Cell :=
  .frame c.frame :: (c.home.map .frame).toList

def Value.cells : Value → List Cell
  | .array id => [.elements id]
  | .function _ closure => closure.cells
  | .classObject c =>
    .fields c.id :: (c.methods.cells Closure.cells ++ c.classMethods.cells Closure.cells)
  | .object id c => .fields id :: c.methods.cells Closure.cells
  | _ => []

def Value.cellsOf (values : List Value) : List Cell :=
  values.flatMap Value.cells

namespace Session

/-- What a cell leads to in one step. -/
def links (s : Session) : Cell → List Cell
  | .frame id => (s.frames.parent? id).toList.map .frame ++ (s.frames.bindings id).cells Value.cells
  | .fields id => (s.fields[id]?.getD .empty).cells Value.cells
  | .elements id => Value.cellsOf (s.arrays.elements id)

/-- What can be reached from everywhere: the root frame, the frames of the modules, and what their
exports mention. -/
def roots (s : Session) : List Cell :=
  .frame rootFrame :: s.modules.cells fun m => .frame m.frame :: m.exports.cells Value.cells

/-- The cells that can be reached from those that are given. -/
inductive Reaches (s : Session) (given : List Cell) : Cell → Prop
  | given : cell ∈ given → Reaches s given cell
  | root : cell ∈ s.roots → Reaches s given cell
  | link : Reaches s given cell → next ∈ s.links cell → Reaches s given next

def Has (s : Session) : Cell → Prop
  | .frame id => id < s.frames.size
  | .fields id => id < s.fields.size
  | .elements id => id < s.arrays.size

/-- The cell is in `s'` exactly what it is in `s`. -/
def Same (s s' : Session) : Cell → Prop
  | .frame id => s'.frames.store[id]? = s.frames.store[id]?
  | .fields id => s'.fields[id]? = s.fields[id]?
  | .elements id => s'.arrays.store[id]? = s.arrays.store[id]?

end Session

-- ---------------------------------------------------------------------------
-- Keeping clear of cells
-- ---------------------------------------------------------------------------

/-- None of the cells is one of `off`. -/
def Clear (off : Cell → Prop) (cells : List Cell) : Prop :=
  ∀ cell ∈ cells, ¬ off cell

section
variable {off : Cell → Prop}

@[simp] theorem clear_nil : Clear off [] :=
  fun _ h => (nomatch h)

@[simp] theorem clear_cons : Clear off (cell :: cells) ↔ ¬ off cell ∧ Clear off cells :=
  List.forall_mem_cons

@[simp] theorem clear_append : Clear off (cells ++ cells') ↔ Clear off cells ∧ Clear off cells' :=
  List.forall_mem_append

@[simp] theorem clear_frames {found : Option FrameId} :
    Clear off (found.toList.map .frame) ↔ ∀ id, found = some id → ¬ off (.frame id) := by
  cases found <;> simp [Clear]

theorem clear_table {part : α → List Cell} {t : Table α} :
    Clear off (t.cells part) ↔ t.All fun a => Clear off (part a) := by
  simp only [Clear, Table.cells, Table.All, List.mem_flatMap]
  exact ⟨fun h entry hentry cell hcell => h cell ⟨entry, hentry, hcell⟩,
    fun h cell ⟨entry, hentry, hcell⟩ => h entry hentry cell hcell⟩

theorem clear_closure {c : Closure} : Clear off c.cells ↔
    ¬ off (.frame c.frame) ∧ ∀ home, c.home = some home → ¬ off (.frame home) := by
  obtain ⟨_, _, _, home⟩ := c
  cases home <;> simp [Closure.cells]

theorem clear_cellsOf {values : List Value} :
    Clear off (Value.cellsOf values) ↔ ∀ v ∈ values, Clear off v.cells := by
  simp only [Clear, Value.cellsOf, List.mem_flatMap]
  exact ⟨fun h v hv cell hcell => h cell ⟨v, hv, hcell⟩,
    fun h cell ⟨v, hv, hcell⟩ => h v hv cell hcell⟩

theorem Value.Plain.clear {v : Value} (h : v.Plain) : Clear off v.cells := by
  cases v with
  | array | function | classObject | object => exact h.elim
  | _ => exact clear_nil

theorem clear_methods {c : Class} (h : Clear off (Value.classObject c).cells) :
    c.methods.All fun m => Clear off m.cells := by
  simp only [Value.cells, clear_cons, clear_append] at h
  exact clear_table.1 h.2.1

end

-- ---------------------------------------------------------------------------
-- Cells that stand apart
-- ---------------------------------------------------------------------------

/-- In the session, whose context is `c`, the cells of `off` are as they were in `base`, and nothing
else leads to them. -/
structure Apart (off : Cell → Prop) (base : Session) (c : Context) (s : Session) : Prop where
  has : ∀ cell, off cell → s.Has cell
  same : ∀ cell, off cell → base.Same s cell
  links : ∀ cell, ¬ off cell → Clear off (s.links cell)
  roots : Clear off s.roots
  context : s.context = c

theorem Session.links_of_not_has {s : Session} (h : ¬ s.Has cell) : s.links cell = [] := by
  cases cell with
  | frame id =>
    have hnone : s.frames.store[id]? = none := Array.getElem?_eq_none (Nat.le_of_not_lt h)
    simp [links, Frames.parent?, Frames.bindings, hnone, Table.cells, Table.empty]
  | fields id =>
    have hnone : s.fields[id]? = none := Array.getElem?_eq_none (Nat.le_of_not_lt h)
    simp [links, hnone, Table.cells, Table.empty]
  | elements id =>
    simp [links, Arrays.elements_of_le (Nat.le_of_not_lt h), Value.cellsOf]

theorem Frames.parent?_add {fs : Frames} {id : FrameId}
    (h : (fs.add parent opener).parent? id = some outer) :
    parent = some outer ∨ fs.parent? id = some outer := by
  simp only [parent?, add, Array.getElem?_push] at h
  split at h
  · exact .inl (Option.filter_eq_some_iff.1 h).1
  · exact .inr h

namespace Apart

variable {off : Cell → Prop} {base s : Session} {c : Context}

/-- Whatever cannot be reached from the given cells stands apart from them. -/
theorem unreached (s : Session) (given : List Cell) :
    Apart (fun cell => s.Has cell ∧ ¬ s.Reaches given cell) s s.context s where
  has _ h := h.1
  same cell _ := by cases cell <;> rfl
  links cell hcell next hnext hoff := by
    by_cases hhas : s.Has cell
    · refine hcell ⟨hhas, fun hreached => hoff.2 (.link hreached hnext)⟩
    · rw [Session.links_of_not_has hhas] at hnext
      cases hnext
  roots _ hcell h := h.2 (.root hcell)
  context := rfl

-- ---------------------------------------------------------------------------
-- What is read
-- ---------------------------------------------------------------------------

theorem root (h : Apart off base c s) : ¬ off (.frame rootFrame) :=
  (clear_cons.1 h.roots).1

theorem parent (h : Apart off base c s) (hframe : ¬ off (.frame frame))
    (hparent : s.frames.parent? frame = some outer) : ¬ off (.frame outer) :=
  clear_frames.1 (clear_append.1 (h.links _ hframe)).1 outer hparent

theorem bindings (h : Apart off base c s) (hframe : ¬ off (.frame frame)) :
    (s.frames.bindings frame).All fun v => Clear off v.cells :=
  clear_table.1 (clear_append.1 (h.links _ hframe)).2

theorem getLocal? (h : Apart off base c s) (hframe : ¬ off (.frame frame))
    (hv : s.frames.getLocal? frame name = some v) : Clear off v.cells :=
  (h.bindings hframe).get? hv

theorem fields {id : ObjectId} (h : Apart off base c s) (hid : ¬ off (.fields id))
    (ht : s.fields[id]? = some table) : table.All fun v => Clear off v.cells := by
  have hlinks := h.links _ hid
  simp only [Session.links, ht] at hlinks
  exact clear_table.1 hlinks

theorem elements {id : ArrayId} (h : Apart off base c s) (hid : ¬ off (.elements id)) :
    ∀ v ∈ s.arrays.elements id, Clear off v.cells :=
  clear_cellsOf.1 (h.links _ hid)

theorem modules (h : Apart off base c s) :
    s.modules.All fun m => ¬ off (.frame m.frame) ∧ m.exports.All fun v => Clear off v.cells :=
  (clear_table.1 (clear_cons.1 h.roots).2).mono fun _ hm =>
    ⟨(clear_cons.1 hm).1, clear_table.1 (clear_cons.1 hm).2⟩

theorem ancestor (h : Apart off base c s) (hframe : ¬ off (.frame frame))
    (hfound : s.frames.ancestor? frame distance = some found) : ¬ off (.frame found) := by
  induction distance generalizing frame with
  | zero =>
    cases hfound
    exact hframe
  | succ distance ih =>
    simp only [Frames.ancestor?] at hfound
    split at hfound
    · next parent hparent => exact ih (h.parent hframe hparent) hfound
    · cases hfound

theorem holderWithin (h : Apart off base c s) (hframe : ¬ off (.frame frame))
    (hfound : s.frames.holderWithin name reach frame = some found) : ¬ off (.frame found) := by
  induction reach generalizing frame with
  | zero => cases hfound
  | succ reach ih =>
    simp only [Frames.holderWithin] at hfound
    split at hfound
    · cases hfound
      exact hframe
    · split at hfound
      · next parent hparent => exact ih (h.parent hframe hparent) hfound
      · cases hfound

theorem getAt? (h : Apart off base c s) (hframe : ¬ off (.frame frame))
    (hv : s.frames.getAt? frame distance name = some v) : Clear off v.cells := by
  unfold Frames.getAt? at hv
  split at hv
  · next found hfound => exact h.getLocal? (h.ancestor hframe hfound) hv
  · cases hv

theorem read (h : Apart off base c s) (hframe : ¬ off (.frame frame))
    (hv : s.frames.read frame name = .ok v) : Clear off v.cells := by
  unfold Frames.read at hv
  split at hv <;> cases hv
  next hget =>
  unfold Frames.get? at hget
  split at hget
  · next found hfound => exact h.getLocal? (h.holderWithin hframe hfound) hget
  · cases hget

-- ---------------------------------------------------------------------------
-- What is changed
-- ---------------------------------------------------------------------------

theorem frame_next (h : Apart off base c s) : ¬ off (.frame s.frames.next) :=
  fun hoff => Nat.lt_irrefl _ (h.has _ hoff)

theorem fields_size (h : Apart off base c s) : ¬ off (.fields s.fields.size) :=
  fun hoff => Nat.lt_irrefl _ (h.has _ hoff)

theorem arrays_next (h : Apart off base c s) : ¬ off (.elements s.arrays.next) :=
  fun hoff => Nat.lt_irrefl _ (h.has _ hoff)

/-- Nothing that links, roots or cells depend on has changed. -/
theorem unlinked (h : Apart off base c s) (hframes : s'.frames = s.frames)
    (hfields : s'.fields = s.fields) (harrays : s'.arrays = s.arrays)
    (hmodules : s'.modules = s.modules) (hcontext : s'.context = c') : Apart off base c' s' where
  has cell hoff := by
    have := h.has cell hoff
    cases cell <;> simpa only [Session.Has, hframes, hfields, harrays] using this
  same cell hoff := by
    have := h.same cell hoff
    cases cell <;> simpa only [Session.Same, hframes, hfields, harrays] using this
  links cell hcell := by
    have := h.links cell hcell
    cases cell <;> simpa only [Session.links, hframes, hfields, harrays] using this
  roots := by
    have := h.roots
    simpa only [Session.roots, hmodules] using this
  context := hcontext

theorem added {within : Option FrameId} (h : Apart off base c s)
    (hwithin : ∀ outer, within = some outer → ¬ off (.frame outer)) :
    Apart off base c { s with frames := s.frames.add within opener } where
  has cell hoff := by
    have hhas := h.has cell hoff
    cases cell with
    | frame id => exact Nat.lt_of_lt_of_le hhas (by simp)
    | fields id => exact hhas
    | elements id => exact hhas
  same cell hoff := by
    have hsame := h.same cell hoff
    cases cell with
    | frame id =>
      have hne : id ≠ s.frames.store.size := Nat.ne_of_lt (h.has _ hoff)
      simpa only [Session.Same, Frames.add, Array.getElem?_push, hne, if_false] using hsame
    | fields id => exact hsame
    | elements id => exact hsame
  links cell hcell := by
    have hlinks := h.links cell hcell
    cases cell with
    | frame id =>
      simp only [Session.links, Frames.bindings_add, clear_append, clear_frames] at hlinks ⊢
      refine ⟨fun outer houter => ?_, hlinks.2⟩
      exact (Frames.parent?_add houter).elim (hwithin outer) (hlinks.1 outer)
    | fields id => exact hlinks
    | elements id => exact hlinks
  roots := h.roots
  context := h.context

theorem bound (h : Apart off base c s) (hframe : ¬ off (.frame frame)) (hv : Clear off v.cells) :
    Apart off base c { s with frames := s.frames.define frame name v } where
  has cell hoff := by
    have hhas := h.has cell hoff
    cases cell with
    | frame id => simpa only [Session.Has, Frames.size_define] using hhas
    | fields id => exact hhas
    | elements id => exact hhas
  same cell hoff := by
    have hsame := h.same cell hoff
    cases cell with
    | frame id =>
      have hne : frame ≠ id := fun heq => hframe (heq ▸ hoff)
      simpa only [Session.Same, Frames.define, Array.getElem?_modify, hne, if_false] using hsame
    | fields id => exact hsame
    | elements id => exact hsame
  links cell hcell := by
    have hlinks := h.links cell hcell
    cases cell with
    | frame id =>
      simp only [Session.links, Frames.parent?_define, Frames.bindings_define, clear_append]
        at hlinks ⊢
      refine ⟨hlinks.1, ?_⟩
      split
      · exact clear_table.2 ((h.bindings hframe).insert hv)
      · exact hlinks.2
    | fields id => exact hlinks
    | elements id => exact hlinks
  roots := h.roots
  context := h.context

theorem object (h : Apart off base c s) :
    Apart off base c { s with fields := s.fields.push .empty } where
  has cell hoff := by
    have hhas := h.has cell hoff
    cases cell with
    | frame id => exact hhas
    | fields id => exact Nat.lt_of_lt_of_le hhas (by simp)
    | elements id => exact hhas
  same cell hoff := by
    have hsame := h.same cell hoff
    cases cell with
    | frame id => exact hsame
    | fields id =>
      have hne : id ≠ s.fields.size := Nat.ne_of_lt (h.has _ hoff)
      simpa only [Session.Same, Array.getElem?_push, hne, if_false] using hsame
    | elements id => exact hsame
  links cell hcell := by
    have hlinks := h.links cell hcell
    cases cell with
    | frame id => exact hlinks
    | fields id =>
      simp only [Session.links, Array.getElem?_push] at hlinks ⊢
      split
      · exact clear_nil
      · exact hlinks
    | elements id => exact hlinks
  roots := h.roots
  context := h.context

theorem field {id : ObjectId} (h : Apart off base c s) (hid : ¬ off (.fields id))
    (hv : Clear off v.cells) :
    Apart off base c { s with fields := s.fields.modify id (·.insert name v) } where
  has cell hoff := by
    have hhas := h.has cell hoff
    cases cell with
    | frame other => exact hhas
    | fields other => simpa only [Session.Has, Array.size_modify] using hhas
    | elements other => exact hhas
  same cell hoff := by
    have hsame := h.same cell hoff
    cases cell with
    | frame other => exact hsame
    | fields other =>
      have hne : id ≠ other := fun heq => hid (heq ▸ hoff)
      simpa only [Session.Same, Array.getElem?_modify, hne, if_false] using hsame
    | elements other => exact hsame
  links cell hcell := by
    have hlinks := h.links cell hcell
    cases cell with
    | frame other => exact hlinks
    | elements other => exact hlinks
    | fields other =>
      simp only [Session.links, Array.getElem?_modify] at hlinks ⊢
      split
      · next heq =>
        subst heq
        cases hother : s.fields[id]? with
        | none => exact clear_nil
        | some table => exact clear_table.2 ((h.fields hid hother).insert hv)
      · exact hlinks
  roots := h.roots
  context := h.context

theorem array {elements : List Value} (h : Apart off base c s)
    (helements : ∀ v ∈ elements, Clear off v.cells) :
    Apart off base c { s with arrays := s.arrays.add elements } where
  has cell hoff := by
    have hhas := h.has cell hoff
    cases cell with
    | frame id => exact hhas
    | fields id => exact hhas
    | elements id => exact Nat.lt_of_lt_of_le hhas (by simp)
  same cell hoff := by
    have hsame := h.same cell hoff
    cases cell with
    | frame id => exact hsame
    | fields id => exact hsame
    | elements id =>
      have hne : id ≠ s.arrays.store.size := Nat.ne_of_lt (h.has _ hoff)
      simpa only [Session.Same, Arrays.add, Array.getElem?_push, hne, if_false] using hsame
  links cell hcell := by
    have hlinks := h.links cell hcell
    cases cell with
    | frame id => exact hlinks
    | fields id => exact hlinks
    | elements id =>
      simp only [Session.links, Arrays.elements_add] at hlinks ⊢
      split
      · exact clear_cellsOf.2 helements
      · exact hlinks
  roots := h.roots
  context := h.context

/-- A module is entered, or its exports change. -/
theorem module (h : Apart off base c s) (path : String) (hframe : ¬ off (.frame m.frame))
    (hexports : m.exports.All fun v => Clear off v.cells) :
    Apart off base c { s with modules := s.modules.insert path m } where
  has := h.has
  same := h.same
  links := h.links
  roots := by
    refine clear_cons.2 ⟨h.root, clear_table.2 ?_⟩
    refine (clear_table.1 (clear_cons.1 h.roots).2).insert ?_
    exact clear_cons.2 ⟨hframe, clear_table.2 hexports⟩
  context := h.context

end Apart

end Treewalk
