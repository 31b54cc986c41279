import Treewalk.Proofs.Holdings
import Treewalk.Proofs.Nesting

/-!
# Records of what was made

Functions are numbered as they are made, and so are classes and instances, and arrays. A record says
what stands for each number. As a session goes on its record gets longer, and no entry of it is ever
changed: whatever a value leads to is what the record has under its number, no getter is among it,
and the arrays in an array have been put down before it. Along with the record it is kept which
fields a computation may have written.
-/

namespace Treewalk

-- ---------------------------------------------------------------------------
-- Records
-- ---------------------------------------------------------------------------

structure Record where
  functions : Identity → Option Value
  /-- The classes and instances. -/
  objects : ObjectId → Option Value
  arrays : Arrays

/-- The second record goes on from the first. -/
structure Record.Le (r r' : Record) : Prop where
  functions : ∀ i v, r.functions i = some v → r'.functions i = some v
  objects : ∀ o v, r.objects o = some v → r'.objects o = some v
  arrays : r.arrays.Grows r'.arrays

/-- Whatever has a number in the value is what the record has under it. No function is a getter:
these are called where they are read. -/
def Record.Has (r : Record) : Value → Prop
  | .array id => id < r.arrays.size
  | .function i c => r.functions i = some (.function i c) ∧ c.routine.isGetter = false
  | .classObject c => r.objects c.id = some (.classObject c)
  | .object o c => r.objects o = some (.object o c) ∧ r.objects c.id = some (.classObject c)
  | _ => True

def Record.HasEach (r : Record) : List Value → Prop
  | [] => True
  | v :: rest => r.Has v ∧ r.HasEach rest

namespace Record

variable {r r' r'' : Record}

theorem Le.refl (r : Record) : r.Le r :=
  ⟨fun _ _ h => h, fun _ _ h => h, .refl _⟩

theorem Le.trans (h : r.Le r') (h' : r'.Le r'') : r.Le r'' :=
  ⟨fun i v hv => h'.functions i v (h.functions i v hv),
    fun o v hv => h'.objects o v (h.objects o v hv), h.arrays.trans h'.arrays⟩

theorem hasEach_iff {values : List Value} : r.HasEach values ↔ ∀ v ∈ values, r.Has v := by
  induction values with
  | nil => simp [HasEach]
  | cons v rest ih => simp [HasEach, ih]

theorem Has.mono (h : r.Le r') {v : Value} (hv : r.Has v) : r'.Has v := by
  cases v with
  | array => exact Nat.lt_of_lt_of_le hv h.arrays.size
  | function => exact ⟨h.functions _ _ hv.1, hv.2⟩
  | classObject => exact h.objects _ _ hv
  | object => exact ⟨h.objects _ _ hv.1, h.objects _ _ hv.2⟩
  | _ => trivial

theorem HasEach.mono (h : r.Le r') {values : List Value} (hvalues : r.HasEach values) :
    r'.HasEach values :=
  hasEach_iff.2 fun v hv => (hasEach_iff.1 hvalues v hv).mono h

theorem HasEach.of_mem {values : List Value} (h : r.HasEach values) (hv : v ∈ values) : r.Has v :=
  hasEach_iff.1 h v hv

theorem HasEach.of_subset {values values' : List Value} (h : r.HasEach values)
    (hsub : values' ⊆ values) : r.HasEach values' :=
  hasEach_iff.2 fun _ hv => h.of_mem (hsub hv)

theorem HasEach.append {values values' : List Value} (h : r.HasEach values)
    (h' : r.HasEach values') : r.HasEach (values ++ values') :=
  hasEach_iff.2 fun _ hv => (List.mem_append.1 hv).elim h.of_mem h'.of_mem

theorem has_plain (h : v.Plain) : r.Has v := by
  cases v with
  | array => exact h.elim
  | _ => trivial

/-- The record with one more function. -/
def addFunction (r : Record) (i : Identity) (v : Value) : Record :=
  { r with functions := Function.update r.functions i (some v) }

/-- The record with one more class or instance. -/
def addObject (r : Record) (o : ObjectId) (v : Value) : Record :=
  { r with objects := Function.update r.objects o (some v) }

/-- The record with one more array. -/
def addArray (r : Record) (elements : List Value) : Record :=
  { r with arrays := r.arrays.add elements }

theorem le_addFunction (h : r.functions i = none) (v : Value) : r.Le (r.addFunction i v) := by
  refine ⟨fun i' v' hv' => ?_, fun _ _ h => h, .refl _⟩
  have hne : i' ≠ i := by
    rintro rfl
    rw [h] at hv'
    cases hv'
  simpa only [addFunction, Function.update_of_ne hne] using hv'

theorem le_addObject (h : r.objects o = none) (v : Value) : r.Le (r.addObject o v) := by
  refine ⟨fun _ _ h => h, fun o' v' hv' => ?_, .refl _⟩
  have hne : o' ≠ o := by
    rintro rfl
    rw [h] at hv'
    cases hv'
  simpa only [addObject, Function.update_of_ne hne] using hv'

theorem le_addArray (r : Record) (elements : List Value) : r.Le (r.addArray elements) :=
  ⟨fun _ _ h => h, fun _ _ h => h, .add _ _⟩

theorem functions_addFunction : (r.addFunction i v).functions i = some v := by
  simp [addFunction]

theorem objects_addObject : (r.addObject o v).objects o = some v := by
  simp [addObject]

end Record

-- ---------------------------------------------------------------------------
-- Stored values
-- ---------------------------------------------------------------------------

/-- The session holds the value in a variable, in a field, in an array, or among the exports of a
module. -/
inductive Session.Stores (s : Session) : Value → Prop
  | bound {frame : FrameId} : (name, v) ∈ (s.frames.bindings frame).entries → s.Stores v
  | field {object : ObjectId} : s.fields[object]? = some table → (name, v) ∈ table.entries →
    s.Stores v
  | element {id : ArrayId} : v ∈ s.arrays.elements id → s.Stores v
  | exported {m : Module} : (path, m) ∈ s.modules.entries → (name, v) ∈ m.exports.entries →
    s.Stores v

namespace Session.Stores

variable {s s' : Session}

theorem congr (h : s'.Stores v)
    (hbindings : ∀ frame, s'.frames.bindings frame = s.frames.bindings frame)
    (hfields : s'.fields = s.fields) (harrays : s'.arrays = s.arrays)
    (hmodules : s'.modules = s.modules) : s.Stores v := by
  cases h with
  | bound hmem => exact .bound (hbindings _ ▸ hmem)
  | field ht hmem => exact .field (hfields ▸ ht) hmem
  | element hmem => exact .element (harrays ▸ hmem)
  | exported hm hmem => exact .exported (hmodules ▸ hm) hmem

theorem of_define (h : { s with frames := s.frames.define frame name value }.Stores v) :
    v = value ∨ s.Stores v := by
  cases h with
  | bound hmem =>
    rw [Frames.bindings_define] at hmem
    split at hmem
    · rcases Table.mem_put hmem with heq | hmem
      · cases heq
        exact .inl rfl
      · exact .inr (.bound hmem)
    · exact .inr (.bound hmem)
  | field ht hmem => exact .inr (.field ht hmem)
  | element hmem => exact .inr (.element hmem)
  | exported hm hmem => exact .inr (.exported hm hmem)

theorem of_setField
    (h : { s with fields := s.fields.modify object (·.insert name value) }.Stores v) :
    v = value ∨ s.Stores v := by
  cases h with
  | bound hmem => exact .inr (.bound hmem)
  | field ht hmem =>
    simp only [Array.getElem?_modify] at ht
    split at ht
    · obtain ⟨old, hold, rfl⟩ := Option.map_eq_some_iff.1 ht
      rcases Table.mem_put hmem with heq | hmem
      · cases heq
        exact .inl rfl
      · exact .inr (.field hold hmem)
    · exact .inr (.field ht hmem)
  | element hmem => exact .inr (.element hmem)
  | exported hm hmem => exact .inr (.exported hm hmem)

theorem of_newObject (h : { s with fields := s.fields.push .empty }.Stores v) : s.Stores v := by
  cases h with
  | bound hmem => exact .bound hmem
  | field ht hmem =>
    simp only [Array.getElem?_push] at ht
    split at ht
    · cases ht
      cases hmem
    · exact .field ht hmem
  | element hmem => exact .element hmem
  | exported hm hmem => exact .exported hm hmem

theorem of_newArray (h : { s with arrays := s.arrays.add elements }.Stores v) :
    v ∈ elements ∨ s.Stores v := by
  cases h with
  | bound hmem => exact .inr (.bound hmem)
  | field ht hmem => exact .inr (.field ht hmem)
  | element hmem =>
    rw [Arrays.elements_add] at hmem
    split at hmem
    · exact .inl hmem
    · exact .inr (.element hmem)
  | exported hm hmem => exact .inr (.exported hm hmem)

theorem of_exported (hm : s.modules.get? path = some m)
    (h : { s with
      modules :=
        s.modules.insert path { m with exports := m.exports.insert name value } }.Stores v) :
    v = value ∨ s.Stores v := by
  cases h with
  | bound hmem => exact .inr (.bound hmem)
  | field ht hmem => exact .inr (.field ht hmem)
  | element hmem => exact .inr (.element hmem)
  | exported hm' hmem =>
    rcases Table.mem_put hm' with heq | hm'
    · cases heq
      rcases Table.mem_put hmem with heq | hmem
      · cases heq
        exact .inl rfl
      · obtain ⟨before, behind, hsplit, -⟩ := List.lookup_eq_some_iff.1 hm
        have hentry : (path, m) ∈ s.modules.entries := by
          rw [hsplit]
          exact List.mem_append_right _ List.mem_cons_self
        exact .inr (.exported hentry hmem)
    · exact .inr (.exported hm' hmem)

theorem of_load (h : (s.load path p).Stores v) : s.Stores v := by
  cases h with
  | bound hmem =>
    have hadd (frame : FrameId) : (s.load path p).frames.bindings frame = s.frames.bindings frame :=
      Frames.bindings_add ..
    exact .bound (hadd _ ▸ hmem)
  | field ht hmem => exact .field ht hmem
  | element hmem => exact .element hmem
  | exported hm hmem =>
    rcases Table.mem_put hm with heq | hm
    · cases heq
      cases hmem
    · exact .exported hm hmem

end Session.Stores

/-- The record has all that the session holds, and no numbers that are still to be given. The arrays
are as the record has them. -/
structure Record.Accepts (r : Record) (s : Session) : Prop where
  stored : ∀ v, s.Stores v → r.Has v
  functions_lt : ∀ i v, r.functions i = some v → i < s.nextIdentity
  objects_lt : ∀ o v, r.objects o = some v → o < s.fields.size
  arrays : s.arrays = r.arrays
  pointsBack : r.arrays.PointsBack

namespace Record.Accepts

variable {r : Record} {s s' : Session}

/-- What stores no value is accepted with the same record. -/
theorem unstored (h : r.Accepts s) (hstores : ∀ v, s'.Stores v → s.Stores v)
    (hidentity : s.nextIdentity ≤ s'.nextIdentity) (hobjects : s.fields.size ≤ s'.fields.size)
    (harrays : s'.arrays = s.arrays) : r.Accepts s' :=
  ⟨fun v hv => h.stored v (hstores v hv),
    fun i v hv => Nat.lt_of_lt_of_le (h.functions_lt i v hv) hidentity,
    fun o v hv => Nat.lt_of_lt_of_le (h.objects_lt o v hv) hobjects,
    harrays.trans h.arrays, h.pointsBack⟩

theorem context (h : r.Accepts s) (c : Context) : r.Accepts { s with context := c } :=
  h.unstored (fun _ hv => hv.congr (fun _ => rfl) rfl rfl rfl) (Nat.le_refl _) (Nat.le_refl _) rfl

theorem scope (h : r.Accepts s) (parent : FrameId) (opener : Opener) :
    r.Accepts { s with frames := s.frames.addScope parent opener } :=
  h.unstored (fun _ hv => hv.congr (fun _ => Frames.bindings_add ..) rfl rfl rfl) (Nat.le_refl _)
    (Nat.le_refl _) rfl

theorem printed (h : r.Accepts s) (output : String) : r.Accepts { s with output := output } :=
  h.unstored (fun _ hv => hv.congr (fun _ => rfl) rfl rfl rfl) (Nat.le_refl _) (Nat.le_refl _) rfl

theorem load (h : r.Accepts s) (path : String) (p : Prepared (List Stmt)) :
    r.Accepts (s.load path p) :=
  h.unstored (fun _ hv => hv.of_load) (Nat.le_refl _) (Nat.le_refl _) rfl

theorem commit (h : r.Accepts s) (p : Prepared α) : r.Accepts (s.commit p) :=
  h.unstored (fun _ hv => hv.congr (fun _ => rfl) rfl rfl rfl) (Nat.le_refl _) (Nat.le_refl _) rfl

theorem told (h : r.Accepts s) (output : String) (clock : Clock) :
    r.Accepts { s with output := output, clock := clock } :=
  h.unstored (fun _ hv => hv.congr (fun _ => rfl) rfl rfl rfl) (Nat.le_refl _) (Nat.le_refl _) rfl

theorem define (h : r.Accepts s) (hvalue : r.Has value) (frame : FrameId) (name : String) :
    r.Accepts { s with frames := s.frames.define frame name value } :=
  { h with stored := fun v hv => hv.of_define.elim (fun heq => heq ▸ hvalue) (h.stored v) }

theorem setField (h : r.Accepts s) (hvalue : r.Has value) (object : ObjectId) (name : String) :
    r.Accepts { s with fields := s.fields.modify object (·.insert name value) } :=
  { h with
    stored := fun v hv => hv.of_setField.elim (fun heq => heq ▸ hvalue) (h.stored v)
    objects_lt := fun o v hv => by simpa using h.objects_lt o v hv }

theorem exported (h : r.Accepts s) (hvalue : r.Has value) (hm : s.modules.get? path = some m)
    (name : String) : r.Accepts { s with
      modules := s.modules.insert path { m with exports := m.exports.insert name value } } :=
  { h with stored := fun v hv => (hv.of_exported hm).elim (fun heq => heq ▸ hvalue) (h.stored v) }

theorem tick (h : r.Accepts s) : r.Accepts { s with clock := s.clock.tick } :=
  h.told s.output s.clock.tick

theorem fresh_function (h : r.Accepts s) : r.functions s.nextIdentity = none := by
  cases hv : r.functions s.nextIdentity with
  | none => rfl
  | some v => exact absurd (h.functions_lt _ v hv) (Nat.lt_irrefl _)

theorem fresh_object (h : r.Accepts s) : r.objects s.fields.size = none := by
  cases hv : r.objects s.fields.size with
  | none => rfl
  | some v => exact absurd (h.objects_lt _ v hv) (Nat.lt_irrefl _)

/-- A function that is made is put down under the next number, -/
theorem function (h : r.Accepts s) (v : Value) :
    (r.addFunction s.nextIdentity v).Accepts { s with nextIdentity := s.nextIdentity + 1 } := by
  have hle := Record.le_addFunction h.fresh_function v
  refine ⟨fun u hu => ?_, fun i u hu => ?_, h.objects_lt, h.arrays, h.pointsBack⟩
  · exact (h.stored u (hu.congr (fun _ => rfl) rfl rfl rfl)).mono hle
  · by_cases hi : i = s.nextIdentity
    · exact hi ▸ Nat.lt_succ_self _
    · simp only [Record.addFunction, Function.update_of_ne hi] at hu
      exact Nat.lt_succ_of_lt (h.functions_lt i u hu)

/-- so is an array, whose elements are there by then, -/
theorem array {elements : List Value} (h : r.Accepts s) (helements : r.HasEach elements) :
    (r.addArray elements).Accepts { s with arrays := s.arrays.add elements } := by
  have hle := Record.le_addArray r elements
  refine ⟨fun u hu => ?_, h.functions_lt, h.objects_lt, ?_, h.pointsBack.add fun j hj => ?_⟩
  · exact (hu.of_newArray.elim helements.of_mem (h.stored u)).mono hle
  · rw [h.arrays]
    rfl
  · exact helements.of_mem hj

/-- and so is a class or instance. -/
theorem object (h : r.Accepts s) (v : Value) :
    (r.addObject s.fields.size v).Accepts { s with fields := s.fields.push .empty } := by
  have hle := Record.le_addObject h.fresh_object v
  refine ⟨fun u hu => (h.stored u hu.of_newObject).mono hle, h.functions_lt, fun o u hu => ?_,
    h.arrays, h.pointsBack⟩
  rw [Array.size_push]
  by_cases ho : o = s.fields.size
  · exact ho ▸ Nat.lt_succ_self _
  · simp only [Record.addObject, Function.update_of_ne ho] at hu
    exact Nat.lt_succ_of_lt (h.objects_lt o u hu)

end Record.Accepts

-- ---------------------------------------------------------------------------
-- Fields
-- ---------------------------------------------------------------------------

/-- The field of an object, if it has been set. -/
def Session.field? (s : Session) (object : ObjectId) (name : String) : Option Value :=
  s.fields[object]?.bind (·.get? name)

/-- No object is lost, and no field is written but some with the given names. -/
structure Session.Spares (names : String → Prop) (s s' : Session) : Prop where
  objects : s.fields.size ≤ s'.fields.size
  field : ∀ object < s.fields.size, ∀ name, ¬ names name →
    s'.field? object name = s.field? object name

namespace Session.Spares

variable {names : String → Prop} {s s' s'' : Session}

theorem of_eq (h : s'.fields = s.fields) : s.Spares names s' :=
  ⟨Nat.le_of_eq (by rw [h]), fun _ _ _ _ => by rw [field?, field?, h]⟩

theorem refl (s : Session) : s.Spares names s :=
  of_eq rfl

theorem trans (h : s.Spares names s') (h' : s'.Spares names s'') : s.Spares names s'' :=
  ⟨Nat.le_trans h.objects h'.objects, fun object hlt name hname =>
    (h'.field object (Nat.lt_of_lt_of_le hlt h.objects) name hname).trans
      (h.field object hlt name hname)⟩

theorem newObject (s : Session) : s.Spares names { s with fields := s.fields.push .empty } := by
  refine ⟨by simp, fun object hlt name _ => ?_⟩
  simp only [field?, Array.getElem?_push, if_neg (Nat.ne_of_lt hlt)]

end Session.Spares

/-- What writing one field does to all of them. -/
theorem Session.field?_modify (s : Session) (object other : ObjectId) (name name' : String)
    (value : Value) :
    { s with fields := s.fields.modify object (·.insert name value) }.field? other name' =
      if other = object ∧ object < s.fields.size ∧ name' = name then some value
      else s.field? other name' := by
  simp only [field?, Array.getElem?_modify]
  by_cases hobject : object = other
  · subst hobject
    rw [if_pos rfl]
    by_cases hlt : object < s.fields.size
    · by_cases hname : name' = name <;> simp [hlt, hname]
    · simp [hlt]
  · rw [if_neg hobject, if_neg fun h => hobject h.1.symm]

theorem Session.Spares.setField (s : Session) (object : ObjectId) (name : String) (value : Value)
    (h : names name) :
    s.Spares names { s with fields := s.fields.modify object (·.insert name value) } := by
  refine ⟨by simp, fun other _ name' hname => ?_⟩
  rw [field?_modify, if_neg]
  rintro ⟨-, -, rfl⟩
  exact hname h

end Treewalk
