import Treewalk.Proofs.Changes

/-!
# What a session holds

Code that runs stands somewhere in a unit, and the frames around it follow the stack of scopes that
it stands in: each was made for its scope, and binds what the scope has seen. Every function that a
session holds, in a variable, a field, an array or a class, was declared in such a place, and its
frame still follows the stack of that place. Under `strict` its module tag is that of the unit that
its declaration stands in.
-/

namespace Treewalk

-- ---------------------------------------------------------------------------
-- Tables and values
-- ---------------------------------------------------------------------------

namespace Table

def All (P : α → Prop) (t : Table α) : Prop :=
  ∀ entry ∈ t.entries, P entry.2

variable {P : α → Prop} {t : Table α}

theorem All.empty : (Table.empty : Table α).All P :=
  fun _ h => (nomatch h)

theorem All.mono (h : t.All P) (hP : ∀ a, P a → P' a) : t.All P' :=
  fun entry hentry => hP _ (h entry hentry)

theorem All.get? (h : t.All P) (ht : t.get? name = some a) : P a := by
  obtain ⟨before, behind, hsplit, -⟩ := List.lookup_eq_some_iff.1 ht
  exact h (name, a) (by rw [hsplit]; simp)

theorem mem_put {entries : List (String × α)} (h : entry ∈ put name a entries) :
    entry = (name, a) ∨ entry ∈ entries := by
  induction entries with
  | nil => exact .inl (List.mem_singleton.1 h)
  | cons first rest ih =>
    obtain ⟨other, old⟩ := first
    simp only [put] at h
    split at h
    · rcases List.mem_cons.1 h with heq | hmem
      · exact .inl heq
      · exact .inr (List.mem_cons_of_mem _ hmem)
    · rcases List.mem_cons.1 h with heq | hmem
      · exact .inr (heq ▸ List.mem_cons_self)
      · exact (ih hmem).imp_right (List.mem_cons_of_mem _)

theorem All.insert (h : t.All P) (ha : P a) : (t.insert name a).All P := by
  intro entry hentry
  rcases mem_put hentry with rfl | hmem
  · exact ha
  · exact h entry hmem

theorem All.ofList {pairs : List (String × α)} (h : ∀ pair ∈ pairs, P pair.2) :
    (Table.ofList pairs).All P := by
  suffices ∀ t : Table α, t.All P →
      (pairs.foldl (fun t pair => t.insert pair.1 pair.2) t).All P from this _ .empty
  induction pairs with
  | nil => exact fun _ ht => ht
  | cons pair pairs ih =>
    intro t ht
    refine ih (fun other hother => h other (List.mem_cons_of_mem _ hother)) _ ?_
    exact ht.insert (h pair List.mem_cons_self)

end Table

def Class.All (M : Closure → Prop) (c : Class) : Prop :=
  c.methods.All M ∧ c.classMethods.All M

theorem Class.All.mono {c : Class} (h : c.All M) (hM : ∀ m, M m → M' m) : c.All M' :=
  ⟨h.1.mono hM, h.2.mono hM⟩

/-- The class has the method, for its instances or for itself. -/
def Class.Has (c : Class) (method : Closure) : Prop :=
  ∃ name, c.methods.get? name = some method ∨ c.classMethods.get? name = some method

theorem Class.All.of_has {c : Class} (h : c.All M) (hm : c.Has method) : M method := by
  obtain ⟨name, hget | hget⟩ := hm
  · exact h.1.get? hget
  · exact h.2.get? hget

/-- A function is as `F` says, a class or instance as `O` says of its identity and its class, and an
array as `E` says of its identity. -/
def Value.All (F : Closure → Prop) (O : ObjectId → Class → Prop) (E : ArrayId → Prop) :
    Value → Prop
  | .array id => E id
  | .function _ closure => F closure
  | .classObject c => O c.id c
  | .object id c => O id c
  | _ => True

namespace Value

variable {F : Closure → Prop} {O : ObjectId → Class → Prop} {E : ArrayId → Prop}

theorem All.mono (hF : ∀ c, F c → F' c) (hO : ∀ id c, O id c → O' id c) (hE : ∀ id, E id → E' id)
    {v : Value} (h : v.All F O E) : v.All F' O' E' := by
  cases v with
  | array id => exact hE id h
  | function id closure => exact hF closure h
  | classObject c => exact hO c.id c h
  | object id c => exact hO id c h
  | _ => trivial

/-- A value with no other values, functions or fields behind it. -/
def Plain : Value → Prop
  | .array _ | .function _ _ | .classObject _ | .object _ _ => False
  | _ => True

theorem Plain.all {v : Value} (h : v.Plain) : v.All F O E := by
  cases v <;> trivial

theorem plain_toValue (l : Literal) : l.toValue.Plain := by
  cases l <;> trivial

end Value

namespace Operator

theorem unary_plain (h : unary op right = .ok v) : v.Plain := by
  unfold unary at h
  split at h <;> cases h <;> trivial

theorem onNumbers_plain {f : Float → Float → Value} (h : onNumbers op left right f = .ok v)
    (hf : ∀ x y, (f x y).Plain) : v.Plain := by
  unfold onNumbers at h
  split at h <;> cases h
  exact hf _ _

theorem divide_plain (h : divide op left right = .ok v) : v.Plain := by
  unfold divide at h
  split at h
  · split at h <;> cases h
    trivial
  · cases h

theorem plus_plain (h : plus as left right = .ok v) : v.Plain := by
  unfold plus at h
  split at h
  · cases h
    trivial
  · obtain ⟨_, -, _, -, h⟩ : ∃ l, _ ∧ ∃ r, _ ∧ _ := by simpa only [bind_eq_ok] using h
    cases h
    trivial

/-- The comma gives its right operand; all else is computed. -/
theorem binary_result (h : binary as op left right = .ok v) : v = right ∨ v.Plain := by
  unfold binary at h
  split at h
  case h_1 =>
    cases h
    exact .inl rfl
  case h_4 => exact .inr (plus_plain h)
  case h_7 => exact .inr (divide_plain h)
  case h_2 | h_3 =>
    cases h
    exact .inr trivial
  case h_15 => cases h
  all_goals exact .inr (onNumbers_plain h fun _ _ => trivial)

theorem index_result (h : index as bracket target position = .ok v) :
    (∃ id, target = .array id ∧ v ∈ as.elements id) ∨ v.Plain := by
  unfold index at h
  split at h
  · split at h
    · split at h <;> cases h
      next helement =>
      obtain ⟨i, -, hi⟩ := Option.bind_eq_some_iff.1 helement
      exact .inl ⟨_, rfl, List.mem_of_getElem? hi⟩
    · split at h <;> cases h
      exact .inr trivial
    · cases h
  · cases h

end Operator

theorem Native.length_plain (h : Native.length as site u = .ok v) : v.Plain := by
  unfold Native.length at h
  split at h
  · cases h
  · cases h
    trivial
  · obtain ⟨_, -, h⟩ := bind_eq_ok.1 h
    cases h
    trivial

theorem Native.call_plain {f : Native} (h : f.call as now site arguments = .ok v) : v.Plain := by
  unfold Native.call at h
  split at h
  · cases h
    trivial
  · obtain ⟨_, -, h⟩ := bind_eq_ok.1 h
    cases h
  · cases h
  · exact Native.length_plain h
  · cases h

-- ---------------------------------------------------------------------------
-- Chains of frames
-- ---------------------------------------------------------------------------

/-- From `frame` outwards the frames follow the stack, up to the top level of a unit: each was made
for its scope, and binds the names that are ready there. -/
inductive Chain (fs : Frames) (top : FrameId) : FrameId → Stack → Prop
  | ends : top < fs.size → Chain fs top top []
  | opens : fs.opener? frame = some scope.opener → fs.parent? frame = some parent →
    (∀ name, scope.names.lookup name = some true → (fs.getLocal? frame name).isSome) →
    Chain fs top parent σ → Chain fs top frame (scope :: σ)

namespace Chain

variable {fs : Frames}

theorem lt (h : Chain fs top frame σ) : frame < fs.size := by
  cases h with
  | ends h => exact h
  | opens hopener => exact Frames.lt_of_opener? hopener

theorem mono (h : Chain fs top frame σ) (hgrows : fs.Grows fs') : Chain fs' top frame σ := by
  induction h with
  | ends h => exact .ends (Nat.lt_of_lt_of_le h hgrows.size)
  | @opens frame scope parent σ hopener hparent hbound _ ih =>
    have hlt := Frames.lt_of_opener? hopener
    refine .opens ?_ ?_ (fun name hname => hgrows.bound _ _ (hbound name hname)) ih
    · rw [hgrows.opener frame hlt, hopener]
    · rw [hgrows.parent frame hlt, hparent]

/-- The frame at a distance is that of the scope at the distance. -/
theorem ancestor (h : Chain fs top frame σ) (hd : σ[d]? = some scope) :
    ∃ found, fs.ancestor? frame d = some found ∧ fs.opener? found = some scope.opener ∧
      ∀ name, scope.names.lookup name = some true → (fs.getLocal? found name).isSome := by
  induction h generalizing d with
  | ends => cases hd
  | opens hopener hparent hbound _ ih =>
    cases d with
    | zero =>
      cases hd
      exact ⟨_, rfl, hopener, hbound⟩
    | succ d =>
      obtain ⟨found, hfound, hrest⟩ := ih hd
      refine ⟨found, ?_, hrest⟩
      simpa only [Frames.ancestor?, hparent] using hfound

/-- A new frame opens its scope, when it binds what is ready there. -/
theorem push (h : Chain fs top parent σ) (hgrows : (fs.addScope parent scope.opener).Grows fs')
    (hbound : ∀ name, scope.names.lookup name = some true → (fs'.getLocal? fs.next name).isSome) :
    Chain fs' top fs.next (scope :: σ) := by
  have hlt : fs.next < (fs.addScope parent scope.opener).size := fs.next_lt_add
  refine .opens ?_ ?_ hbound (h.mono ((Frames.Grows.add ..).trans hgrows))
  · rw [hgrows.opener _ hlt]
    exact Frames.opener?_add_next fs
  · rw [hgrows.parent _ hlt]
    exact Frames.parent?_add_next h.lt

theorem pending (h : Chain fs top frame σ) (name : String) :
    Chain fs top frame (σ.enter name false) := by
  cases h with
  | ends h => exact .ends h
  | opens hopener hparent hbound hrest =>
    refine .opens hopener hparent (fun other hother => ?_) hrest
    simp only [List.lookup_cons] at hother
    split at hother
    · cases hother
    · exact hbound other hother

theorem entered (h : Chain fs top frame σ) (hname : (fs.getLocal? frame name).isSome) :
    Chain fs top frame (σ.enter name true) := by
  cases h with
  | ends h => exact .ends h
  | opens hopener hparent hbound hrest =>
    refine .opens hopener hparent (fun other hother => ?_) hrest
    simp only [List.lookup_cons] at hother
    split at hother
    · next heq => exact eq_of_beq heq ▸ hname
    · exact hbound other hother

/-- Behind a statement that has run, the frame binds what the statement declares. -/
theorem after (h : Chain fs top frame σ) (s : Stmt)
    (hs : ∀ name, s.declares = some name → (fs.getLocal? frame name.lexeme).isSome) :
    Chain fs top frame (σ.after s) := by
  induction s using Stmt.declares.induct with
  | case1 keyword declaration ih => exact ih hs
  | case2 name initial => exact (h.pending _).entered (hs name rfl)
  | case3 routine => exact h.entered (hs _ rfl)
  | case4 name methods classMethods => exact h.entered (hs name rfl)
  | case5 s hexport hvar hfunction hclass =>
    rw [Stack.after_of_declares_none σ (by cases s <;> simp_all [Stmt.declares])]
    exact h

end Chain

-- ---------------------------------------------------------------------------
-- Units and the functions declared in them
-- ---------------------------------------------------------------------------

theorem Inside.ids_subset (h : Inside unit σ p) : p.ids ⊆ unit.ids := by
  induction h with
  | whole => rw [Checked.ids_piece]; exact List.Subset.refl _
  | @part σ p σ' q _ hq ih =>
    intro id hid
    refine ih ((Piece.ids_perm σ p).mem_iff.2 (List.mem_append_left _ ?_))
    exact List.mem_flatMap.2 ⟨(σ', q), hq, hid⟩

namespace Session

/-- The unit is one of the main program, with the root frame for its globals, or the source of a
module, with the frame of that module. -/
def Owns (s : Session) (units : List Line) (unit : Line) (top : FrameId) : Prop :=
  (unit ∈ units ∧ top = rootFrame) ∨
    ∃ path m source start p, s.modules.get? path = some m ∧ m.frame = top ∧
      s.sources path = some source ∧ Prepared.program source start = .ok p ∧
      unit = .statements p.tree

theorem Owns.mono {s s' : Session} (h : s.Owns units unit top) (hgrows : s.Grows s') :
    s'.Owns units unit top := by
  refine h.imp_right ?_
  rintro ⟨path, m, source, start, p, hm, hframe, hsource, hp⟩
  obtain ⟨m', hm', hframe'⟩ := hgrows.modules path m hm
  exact ⟨path, m', source, start, p, hm', hframe'.trans hframe, by rw [hgrows.sources, hsource], hp⟩

end Session

/-- The class that a declaration makes in a frame. -/
def Class.made (id : ObjectId) (name : Token) (methods classMethods : List Routine)
    (frame : FrameId) (home : Option FrameId) : Class where
  id := id
  name := name.lexeme
  methods := .ofList (methods.map fun r =>
    (r.name.lexeme, ⟨r, frame, r.name.lexeme = "init", home⟩))
  classMethods := .ofList (classMethods.map fun r => (r.name.lexeme, ⟨r, frame, false, home⟩))

theorem Class.all_made {M : Closure → Prop} {id : ObjectId} {name : Token}
    {methods classMethods : List Routine} (h : ∀ r initializer, M ⟨r, frame, initializer, home⟩) :
    (Class.made id name methods classMethods frame home).All M := by
  constructor
  all_goals
    refine .ofList fun pair hpair => ?_
    obtain ⟨r, -, rfl⟩ := List.mem_map.1 hpair
    exact h ..

/-- What a session is measured by: the units of the main program so far, and whether the module
tags of functions are held against the units that they were declared in. -/
structure Account where
  units : List Line
  strict : Prop

def homeOf (top : FrameId) : Option FrameId :=
  if top = rootFrame then none else some top

theorem homeOf_getD (top : FrameId) : (homeOf top).getD rootFrame = top := by
  unfold homeOf
  split
  · next h => exact h.symm
  · rfl

namespace Account

/-- The unit has been taken into the session: the distances of its nodes are as they were noted. -/
structure Knows (A : Account) (s : Session) (unit : Line) (top : FrameId) : Prop where
  owner : s.Owns A.units unit top
  noted : ∃ notes, Analysed notes [] unit.piece ∧
    ∀ id ∈ unit.ids, id < s.nextId ∧ ∀ d, s.distances[id]? = some d ↔ (id, d) ∈ notes

/-- The routine of the closure stands inside `inner σ`, where the frame of the closure follows
`σ`. The scope around an initializer is that of its receiver. -/
def Declared (A : Account) (s : Session) (inner : Stack → Stack) (c : Closure) : Prop :=
  ∃ unit top σ, A.Knows s unit top ∧ Inside unit (inner σ) (.routine c.routine) ∧
    Chain s.frames top c.frame σ ∧
    (c.initializer = true → ∃ outer, inner σ = Stack.receiver outer c.routine) ∧
    (A.strict → c.home = homeOf top)

def Function (A : Account) (s : Session) (c : Closure) : Prop :=
  A.Declared s id c

def Method (A : Account) (s : Session) (c : Closure) : Prop :=
  A.Declared s (·.receiver c.routine) c

/-- The class was made by a declaration in a unit, and its methods can be bound. -/
structure Classed (A : Account) (s : Session) (c : Class) : Prop where
  methods : c.All (A.Method s)
  declared : ∃ unit top σ name methods classMethods frame home, A.Knows s unit top ∧
    Inside unit σ (.statement (.classDecl name methods classMethods)) ∧
    c = .made c.id name methods classMethods frame home

def Holds (A : Account) (s : Session) (v : Value) : Prop :=
  v.All (A.Function s) (fun _ => A.Classed s) fun _ => True

/-- All that the session has stored is as it should be. -/
structure Accepts (A : Account) (s : Session) : Prop where
  bindings : ∀ frame, (s.frames.bindings frame).All (A.Holds s)
  fields : ∀ (id : ObjectId) (table : Table Value), s.fields[id]? = some table →
    table.All (A.Holds s)
  elements : ∀ id, ∀ v ∈ s.arrays.elements id, A.Holds s v
  exports : s.modules.All fun m => m.exports.All (A.Holds s)
  distances : ∀ id d, s.distances[id]? = some d → id < s.nextId
  root : rootFrame < s.frames.size

variable {A : Account} {s s' : Session}

theorem Knows.mono (h : A.Knows s unit top) (hgrows : s.Grows s') : A.Knows s' unit top := by
  refine ⟨h.owner.mono hgrows, ?_⟩
  obtain ⟨notes, hanalysed, hids⟩ := h.noted
  refine ⟨notes, hanalysed, fun id hid => ?_⟩
  obtain ⟨hlt, hnoted⟩ := hids id hid
  refine ⟨Nat.lt_of_lt_of_le hlt hgrows.nextId, fun d => ?_⟩
  rw [hgrows.distances id hlt, hnoted d]

theorem Declared.mono {inner : Stack → Stack} (h : A.Declared s inner c) (hgrows : s.Grows s') :
    A.Declared s' inner c := by
  obtain ⟨unit, top, σ, hknows, hinside, hchain, hinit, hhome⟩ := h
  exact ⟨unit, top, σ, hknows.mono hgrows, hinside, hchain.mono hgrows.frames, hinit, hhome⟩

theorem Classed.mono {c : Class} (h : A.Classed s c) (hgrows : s.Grows s') : A.Classed s' c := by
  refine ⟨h.methods.mono fun _ hm => Declared.mono hm hgrows, ?_⟩
  obtain ⟨unit, top, σ, name, methods, classMethods, frame, home, hknows, hmade⟩ := h.declared
  exact ⟨unit, top, σ, name, methods, classMethods, frame, home, hknows.mono hgrows, hmade⟩

theorem Holds.mono (h : A.Holds s v) (hgrows : s.Grows s') : A.Holds s' v :=
  Value.All.mono (fun _ hc => Declared.mono hc hgrows) (fun _ _ hc => hc.mono hgrows)
    (fun _ h => h) h

theorem holds_plain (h : v.Plain) : A.Holds s v :=
  h.all

namespace Accepts

theorem bindings_mono (h : A.Accepts s) (hgrows : s.Grows s') (frame : FrameId) :
    (s.frames.bindings frame).All (A.Holds s') :=
  (h.bindings frame).mono fun _ hv => Holds.mono hv hgrows

theorem fields_mono (h : A.Accepts s) (hgrows : s.Grows s') (object : ObjectId)
    (ht : s.fields[object]? = some table) : table.All (A.Holds s') :=
  (h.fields object table ht).mono fun _ hv => Holds.mono hv hgrows

theorem elements_mono (h : A.Accepts s) (hgrows : s.Grows s') (id : ArrayId)
    (hv : v ∈ s.arrays.elements id) : A.Holds s' v :=
  (h.elements id v hv).mono hgrows

theorem exports_mono (h : A.Accepts s) (hgrows : s.Grows s') :
    s.modules.All fun m => m.exports.All (A.Holds s') :=
  h.exports.mono fun _ hm => hm.mono fun _ hv => Holds.mono hv hgrows

theorem unstored (h : A.Accepts s) (hgrows : s.Grows s')
    (hbindings : ∀ frame, s'.frames.bindings frame = s.frames.bindings frame)
    (hfields : s'.fields = s.fields) (harrays : s'.arrays = s.arrays)
    (hmodules : s'.modules = s.modules)
    (hdistances : s'.distances = s.distances) : A.Accepts s' where
  bindings frame := by
    rw [hbindings]
    exact h.bindings_mono hgrows frame
  fields object table ht := by
    rw [hfields] at ht
    exact h.fields_mono hgrows object ht
  elements id v hv := h.elements_mono hgrows id (harrays ▸ hv)
  exports := by
    rw [hmodules]
    exact h.exports_mono hgrows
  distances id d hd := by
    rw [hdistances] at hd
    exact Nat.lt_of_lt_of_le (h.distances id d hd) hgrows.nextId
  root := Nat.lt_of_lt_of_le h.root hgrows.frames.size

theorem context (h : A.Accepts s) (c : Context) : A.Accepts { s with context := c } :=
  h.unstored (Session.Grows.within (.refl s)) (fun _ => rfl) rfl rfl rfl rfl

theorem frame (h : A.Accepts s) (parent : FrameId) (opener : Opener) :
    A.Accepts { s with frames := s.frames.addScope parent opener } :=
  h.unstored (Change.frame parent opener).later.grows (fun _ => Frames.bindings_add ..) rfl rfl rfl
    rfl

theorem identity (h : A.Accepts s) :
    A.Accepts { s with nextIdentity := s.nextIdentity + 1 } :=
  h.unstored Change.identity.later.grows (fun _ => rfl) rfl rfl rfl rfl

theorem tick (h : A.Accepts s) : A.Accepts { s with clock := s.clock.tick } :=
  h.unstored Change.tick.later.grows (fun _ => rfl) rfl rfl rfl rfl

theorem printed (h : A.Accepts s) (text : String) :
    A.Accepts { s with output := s.output ++ text ++ "\n" } :=
  h.unstored (Change.printed text).later.grows (fun _ => rfl) rfl rfl rfl rfl

theorem told (h : A.Accepts s) (output : String) (clock : Clock) :
    A.Accepts { s with output := output, clock := clock } :=
  h.unstored { Session.Grows.refl s with } (fun _ => rfl) rfl rfl rfl rfl

/-- The value need only be as it should be once it is bound. -/
theorem bind (h : A.Accepts s) {frame : FrameId} {name : String} {value : Value}
    (hv : A.Holds { s with frames := s.frames.define frame name value } value) :
    A.Accepts { s with frames := s.frames.define frame name value } := by
  have hgrows : s.Grows { s with frames := s.frames.define frame name value } :=
    (Change.bind frame name value).later.grows
  refine ⟨fun other => ?_, fun _ _ => h.fields_mono hgrows _,
    fun _ _ => h.elements_mono hgrows _, h.exports_mono hgrows, h.distances,
    Nat.lt_of_lt_of_le h.root hgrows.frames.size⟩
  rw [Frames.bindings_define]
  split
  · exact (h.bindings_mono hgrows frame).insert hv
  · exact h.bindings_mono hgrows other

theorem object (h : A.Accepts s) : A.Accepts { s with fields := s.fields.push .empty } := by
  have hgrows : s.Grows { s with fields := s.fields.push .empty } := Change.object.later.grows
  refine ⟨h.bindings_mono hgrows, fun id table ht => ?_,
    fun _ _ => h.elements_mono hgrows _, h.exports_mono hgrows, h.distances, h.root⟩
  simp only [Array.getElem?_push] at ht
  split at ht
  · cases ht
    exact .empty
  · exact h.fields_mono hgrows id ht

theorem field (h : A.Accepts s) (hv : A.Holds s value) (object : ObjectId) (name : String) :
    A.Accepts { s with fields := s.fields.modify object (·.insert name value) } := by
  have hgrows : s.Grows { s with fields := s.fields.modify object (·.insert name value) } :=
    (Change.field object name value).later.grows
  refine ⟨h.bindings_mono hgrows, fun id table ht => ?_,
    fun _ _ => h.elements_mono hgrows _, h.exports_mono hgrows, h.distances, h.root⟩
  simp only [Array.getElem?_modify] at ht
  split at ht
  · obtain ⟨old, hold, rfl⟩ := Option.map_eq_some_iff.1 ht
    exact (h.fields_mono hgrows _ hold).insert (hv.mono hgrows)
  · exact h.fields_mono hgrows id ht

theorem array {elements : List Value} (h : A.Accepts s)
    (helements : ∀ v ∈ elements, A.Holds s v) :
    A.Accepts { s with arrays := s.arrays.add elements } := by
  have hgrows := (Change.array elements).later.grows (s := s)
  refine ⟨h.bindings_mono hgrows, fun _ _ => h.fields_mono hgrows _, fun id v hv => ?_,
    h.exports_mono hgrows, h.distances, h.root⟩
  rw [Arrays.elements_add] at hv
  split at hv
  · exact (helements v hv).mono hgrows
  · exact h.elements_mono hgrows id hv

theorem exported (h : A.Accepts s) (hv : A.Holds s value) (hm : s.modules.get? path = some m) :
    A.Accepts { s with
      modules := s.modules.insert path { m with exports := m.exports.insert name value } } := by
  have hgrows := (Change.exported name value hm).later.grows
  refine ⟨h.bindings_mono hgrows, fun _ _ => h.fields_mono hgrows _,
    fun _ _ => h.elements_mono hgrows _, ?_, h.distances, h.root⟩
  have hexports := h.exports_mono hgrows
  exact hexports.insert ((hexports.get? hm).insert (hv.mono hgrows))

end Accepts

/-- The distances of a unit that has been taken into the session are as they were noted. -/
theorem noted_commit (h : A.Accepts s) (hp : Checked s.nextId p) :
    ∃ notes, Analysed notes [] p.tree.piece ∧ ∀ id ∈ p.tree.ids,
      id < (s.commit p).nextId ∧ ∀ d, (s.commit p).distances[id]? = some d ↔ (id, d) ∈ notes := by
  refine ⟨p.notes, hp.analysed, fun id hid => ⟨(hp.fresh.range id hid).2, fun d => ?_⟩⟩
  constructor
  · intro hd
    by_cases hmem : id ∈ p.notes.map Prod.fst
    · obtain ⟨⟨id, d'⟩, hn, rfl⟩ := List.mem_map.1 hmem
      have hd' : (s.commit p).distances[id]? = some d' := foldl_insert_of_mem hp.notes_nodup hn
      rw [hd'] at hd
      cases hd
      exact hn
    · have hold : s.distances[id]? = some d := by
        rw [← hd]
        exact (foldl_insert_of_not_mem hmem).symm
      exact absurd (h.distances id d hold) (Nat.not_lt.2 (hp.fresh.range id hid).1)
  · exact foldl_insert_of_mem hp.notes_nodup

theorem Accepts.commit (h : A.Accepts s) (hp : Checked s.nextId p) : A.Accepts (s.commit p) := by
  have hgrows := Session.Grows.commit hp
  refine ⟨h.bindings_mono hgrows, fun _ _ => h.fields_mono hgrows _,
    fun _ _ => h.elements_mono hgrows _, h.exports_mono hgrows, ?_,
    h.root⟩
  intro id d hd
  by_cases hmem : id ∈ p.notes.map Prod.fst
  · obtain ⟨n, hn, rfl⟩ := List.mem_map.1 hmem
    exact (hp.notes_range hn).2
  · refine Nat.lt_of_lt_of_le (h.distances id d ?_) hp.fresh.le
    rw [← hd]
    exact (foldl_insert_of_not_mem hmem).symm

theorem Accepts.load (h : A.Accepts s) (hnot : s.modules.contains path = false)
    (hp : Prepared.program source s.nextId = .ok p) : A.Accepts (s.load path p) := by
  have hgrows := Session.Grows.load hnot hp
  refine ⟨fun frame => ?_, fun _ _ => h.fields_mono hgrows _, fun _ _ => h.elements_mono hgrows _,
    ?_, (h.commit (program_checked hp)).distances, Nat.lt_of_lt_of_le h.root hgrows.frames.size⟩
  · have hadd : (s.load path p).frames.bindings frame = s.frames.bindings frame :=
      Frames.bindings_add ..
    rw [hadd]
    exact h.bindings_mono hgrows frame
  · exact (h.exports_mono hgrows).insert .empty

theorem knows_load (h : A.Accepts s) (hsource : s.sources path = some source)
    (hp : Prepared.program source s.nextId = .ok p) :
    A.Knows (s.load path p) (.statements p.tree) s.frames.next := by
  refine ⟨.inr ⟨path, ⟨s.frames.next, .empty⟩, source, s.nextId, p, ?_, rfl, hsource, hp, rfl⟩,
    noted_commit h (program_checked hp)⟩
  simp [Session.load]

end Account

end Treewalk
