import Treewalk.Proofs.Sameness
import Treewalk.Proofs.Sharing
import Treewalk.Proofs.Submission

/-!
# Sessions with something in common

Two main programs that differ leave sessions that count differently: what has been made since has
other identities, nodes have other numbers, and the root binds other values. What they have in
common is a third session that both contain. A module is prepared in both if it is in one, and a run
of its top level that keeps to what is common does the same in both.
-/

namespace Treewalk

open Renamings (plain)

-- ---------------------------------------------------------------------------
-- Sessions that count differently
-- ---------------------------------------------------------------------------

/-- Nothing differs but what the translation says, and the numbers of nodes. -/
def Likeness.shifted (T : Translation) : Likeness :=
  ⟨T, fun _ _ => True, Eq, fun _ _ => False⟩

theorem Scope.lookup_numberedNotes (k : NodeId) (notes : List Scope.Note) (node : NodeId) :
    (numberedNotes (· + k) notes).lookup (node + k) = notes.lookup node := by
  induction notes with
  | nil => rfl
  | cons note notes ih =>
    obtain ⟨noted, d⟩ := note
    have hbeq : (node + k == noted + k) = (node == noted) := by simp
    show List.lookup (node + k) ((noted + k, d) :: numberedNotes (· + k) notes) = _
    rw [List.lookup_cons, List.lookup_cons, hbeq, ih]

theorem Prepared.distance?_later (g : NodeId → α → α) (k : NodeId) (p : Prepared α)
    (node : NodeId) : (p.later g k).distance? (node + k) = p.distance? node := by
  have hreverse : (Scope.numberedNotes (· + k) p.notes).reverse =
      Scope.numberedNotes (· + k) p.notes.reverse := List.map_reverse.symm
  unfold distance? later
  rw [hreverse, Scope.lookup_numberedNotes]

namespace Likeness

variable (T : Translation)

theorem shifted_ready {start start' : NodeId} {p : Prepared Line} (h : Checked 0 p)
    (hstart : Checked start (p.later (fun k => Line.numbered (· + k)) start))
    (hstart' : Checked start' (p.later (fun k => Line.numbered (· + k)) start')) :
    (shifted T).Ready start start' (p.later (fun k => Line.numbered (· + k)) start)
      (p.later (fun k => Line.numbered (· + k)) start') where
  le := hstart.fresh.le
  le' := hstart'.fresh.le
  nextId := trivial
  tree := by
    have hpairs : ((shifted T).fresh start start'
        (p.later (fun k => Line.numbered (· + k)) start)
        (p.later (fun k => Line.numbered (· + k)) start')).Pairs (· + start) (· + start')
        p.tree.ids := by
      intro node hnode
      have hlt := (h.fresh.range node hnode).2
      exact ⟨p.distance? node, trivial,
        ⟨Nat.le_add_left _ _, Nat.add_lt_add_right hlt _, Prepared.distance?_later _ _ _ _⟩,
        Nat.le_add_left _ _, Nat.add_lt_add_right hlt _, Prepared.distance?_later _ _ _ _⟩
    exact Line.like_numbered T.names_one p.tree hpairs
  range i hi := by
    obtain ⟨d, hd⟩ := Option.isSome_iff_exists.1 hi
    exact hstart.notes_range (distance?_mem hd)
  range' i hi := by
    obtain ⟨d, hd⟩ := Option.isSome_iff_exists.1 hi
    exact hstart'.notes_range (distance?_mem hd)
  agreed _ _ h := h.elim

/-- Wherever counting starts, a source is prepared alike. -/
theorem shifted_prepares (entry : Entry) :
    (shifted T).Prepares entry.prepared entry.prepared := by
  intro start start' _
  have hstart := entry.prepared_later 0 start
  have hstart' := entry.prepared_later 0 start'
  rw [Nat.zero_add] at hstart hstart'
  cases hp : entry.prepared 0 with
  | error e =>
    rw [hp] at hstart hstart'
    rw [show entry.prepared start = .error e from hstart,
      show entry.prepared start' = .error e from hstart']
    exact .error e
  | ok p =>
    rw [hp] at hstart hstart'
    replace hstart : entry.prepared start = .ok _ := hstart
    replace hstart' : entry.prepared start' = .ok _ := hstart'
    rw [hstart, hstart']
    exact .ok (shifted_ready T (entry.checked hp) (entry.checked hstart) (entry.checked hstart'))

theorem shifted_modules (source : String) : (shifted T).Modules source source :=
  ⟨rfl, shifted_prepares T (.unit source)⟩

-- ---------------------------------------------------------------------------
-- The top level of a module
-- ---------------------------------------------------------------------------

section

variable {L : Likeness} {W : World} {env : Renamings} {s s' : Session}

/-- Sessions that correspond do so when the top level of a module starts in them. -/
theorem Holds.load {p p' : Prepared (List Stmt)} (h : L.Holds W env s s')
    (hp : L.Ready s.nextId s'.nextId (p.mapTree .statements) (p'.mapTree .statements))
    (path : String) :
    ∃ W', L.Holds W' plain (s.load path p) (s'.load path p') ∧
      Stmt.AllLike L.names W'.noted plain p.tree p'.tree := by
  obtain ⟨W', -, ht, htree⟩ := h.commit hp
  have hadd := ht.frame ht.root.1 L.names_one .none
  rw [L.frame_root, ht.root.2, Renamings.inside_plain] at hadd
  have hnext : s.frames.next = W'.size := ht.frames.size
  have hnext' : s'.frames.next = L.frame s.frames.next := ht.frames.next.apply
  have hplain : (W'.addFrame plain).Plain s.frames.next :=
    ⟨hnext ▸ Nat.lt_succ_self _, hnext ▸ World.renamings_addFrame ..⟩
  have hstart := (hadd.register path hplain).enter
    ⟨s.frames.next, s.frames.next, path :: s.context.loading⟩ hplain.1 hplain
  rw [hplain.2] at hstart
  refine ⟨W'.addFrame plain, ?_, ?_⟩
  · have hloading : s'.context.loading = s.context.loading := by
      rw [h.context]
      rfl
    simp only [Session.load, hnext', hloading]
    exact hstart
  · cases htree with
    | statements hbody => exact hbody

end

variable {T} {W : World} {env : Renamings} {s s' : Session}

/-- The top level of a module comes to the same in both sessions, if no name is changed. -/
theorem Holds.loads (hs : (shifted T).Holds W env s s') (hT : ∀ ρ, T.names ρ → ρ = 1)
    (path source : String) :
    ExceptRel (fun body body' => ∀ fuel, ∃ W',
        ((worker fuel (.interpret body'.tree)).on (s'.load path body')).1 =
          ((worker fuel (.interpret body.tree)).on (s.load path body)).1 ∧
        (shifted T).Holds W' plain ((worker fuel (.interpret body.tree)).on (s.load path body)).2
          ((worker fuel (.interpret body'.tree)).on (s'.load path body')).2)
      (Prepared.program source s.nextId) (Prepared.program source s'.nextId) := by
  have hready := (shifted_prepares T (.unit source) s.nextId s'.nextId trivial).of_map
  generalize Prepared.program source s.nextId = x at hready ⊢
  generalize Prepared.program source s'.nextId = x' at hready ⊢
  cases hready with
  | error e => exact .error e
  | ok hp =>
    refine .ok fun fuel => ?_
    obtain ⟨W₁, hstart, hbody⟩ := hs.load hp path
    have hjoint := ((shifted T).paired_worker fuel).interpret hstart hbody
    unfold Joint at hjoint
    generalize (worker fuel _).on _ = y at hjoint ⊢
    generalize (worker fuel _).on _ = y' at hjoint ⊢
    cases hjoint with
    | ok _ ht _ => exact ⟨_, rfl, ht⟩
    | halt _ ht hhalt => exact ⟨_, congrArg Except.error (hhalt.eq hT), ht⟩

end Likeness

/-- Whether a source is refused, and why, does not depend on where counting starts. -/
theorem Prepared.program_refused_anywhere {source : String} {start start' : NodeId}
    (h : Prepared.program source start = .error e) :
    Prepared.program source start' = .error e := by
  have hready := (Likeness.shifted_prepares .identity (.unit source) start start' trivial).of_map
  rw [h] at hready
  generalize Prepared.program source start' = x at hready ⊢
  cases hready with
  | error => rfl

theorem Prepared.program_accepted_anywhere {source : String} {start : NodeId}
    (h : Prepared.program source start = .ok p) (start' : NodeId) :
    ∃ p', Prepared.program source start' = .ok p' := by
  cases hp : Prepared.program source start' with
  | ok p' => exact ⟨p', rfl⟩
  | error e =>
    rw [Prepared.program_refused_anywhere hp] at h
    cases h

-- ---------------------------------------------------------------------------
-- What sessions have in common
-- ---------------------------------------------------------------------------

/-- The session has what the other has, perhaps under other identities, and may have more. What the
root binds the given names to is left open. -/
def Session.Contains (names : String → Prop) (s common : Session) : Prop :=
  ∃ T : Translation, (∀ ρ, T.names ρ → ρ = 1) ∧ ∃ W env fs, s.frames.SameBut names fs ∧
    (Likeness.shifted T).Holds W env common { s with frames := fs }

/-- Two sessions contain a third, which is what they have in common. -/
def Session.Akin (names : String → Prop) (s s' : Session) : Prop :=
  ∃ common, s.Contains names common ∧ s'.Contains names common

def Table.names (t : Table α) : List String :=
  t.entries.map Prod.fst

def Table.values (t : Table α) : List α :=
  t.entries.map Prod.snd

/-- The names that a module exports, and those that its globals bind. -/
def Session.moduleNames (s : Session) (path : String) : Option (List String × List String) :=
  (s.modules.get? path).map fun m => (m.exports.names, (s.frames.bindings m.frame).names)

/-- What these names stand for. -/
def Session.moduleValues (s : Session) (path : String) : List Value :=
  match s.modules.get? path with
  | some m => m.exports.values ++ (s.frames.bindings m.frame).values
  | none => []

/-- Modules export and bind the same names, and nothing that can be asked of their values, alone or
together, tells the sessions apart. -/
structure Session.SameModules (s s' : Session) : Prop where
  names : ∀ path, s.moduleNames path = s'.moduleNames path
  answers : ∀ paths : List String, SameAnswers s.arrays s'.arrays (paths.flatMap s.moduleValues)
    (paths.flatMap s'.moduleValues)

theorem Session.SameModules.symm {s s' : Session} (h : s.SameModules s') : s'.SameModules s :=
  ⟨fun path => (h.names path).symm, fun paths => (h.answers paths).symm⟩

theorem Session.SameModules.trans {s s' s'' : Session} (h : s.SameModules s')
    (h' : s'.SameModules s'') : s.SameModules s'' :=
  ⟨fun path => (h.names path).trans (h'.names path),
    fun paths => (h.answers paths).trans (h'.answers paths)⟩

section

variable {R : α → β → Prop} {t : Table α} {t' : Table β}

theorem Table.Like.names (h : t.Like 1 R t') : t.names = t'.names := by
  have heq : List.Forall₂ (· = ·) t.names t'.names :=
    List.forall₂_map_left_iff.2 (List.forall₂_map_right_iff.2 (h.imp fun _ _ h => h.1.symm))
  rwa [List.forall₂_eq_eq_eq] at heq

theorem Table.Like.values (h : t.Like 1 R t') : List.Forall₂ R t.values t'.values :=
  List.forall₂_map_left_iff.2 (List.forall₂_map_right_iff.2 (h.imp fun _ _ h => h.2))

end

namespace Session.Contains

variable {names : String → Prop} {s common : Session}

theorem modules (h : s.Contains names common) (path : String) :
    s.modules.contains path = common.modules.contains path := by
  obtain ⟨T, -, W, env, fs, -, hs⟩ := h
  exact hs.modules.contains path

theorem sources (h : s.Contains names common) (path : String) :
    s.sources path = common.sources path := by
  obtain ⟨T, -, W, env, fs, -, hs⟩ := h
  exact rel_eq (hs.sources path) fun _ _ h => h.1.symm

theorem output (h : s.Contains names common) : s.output = common.output := by
  obtain ⟨T, -, W, env, fs, -, hs⟩ := h
  exact hs.output

/-- What the modules of the other session have, they have in the session that contains it. -/
theorem sameModules (h : s.Contains names common)
    (hapart : ∀ path m, s.modules.get? path = some m → m.frame ≠ rootFrame) :
    common.SameModules s := by
  obtain ⟨T, -, W, env, fs, hfs, hs⟩ := h
  -- The globals of modules are not at the root, so they bind what they do with the other frames.
  have hmodule (path : String) : (common.modules.get? path = none ∧ s.modules.get? path = none) ∨
      ∃ m m', common.modules.get? path = some m ∧ s.modules.get? path = some m' ∧
        m.exports.Like 1 (Value.Like T W) m'.exports ∧
        (common.frames.bindings m.frame).Like 1 (Value.Like T W)
          (s.frames.bindings m'.frame) := by
    obtain hnone | ⟨m, m', hm, hm', hlike⟩ := rel_cases (hs.modules.get? path)
    · exact .inl hnone
    · refine .inr ⟨m, m', hm, hm', hlike.exports, ?_⟩
      have hframe : m'.frame = T.frame m.frame := hlike.frame
      have hbindings : (common.frames.bindings m.frame).Like (W.renamings m.frame 0)
          (Value.Like T W) (fs.bindings (T.frame m.frame)) := hs.frames.bindings m.frame
      rw [hlike.plain.2, ← hframe, hfs.bindings _ (hapart path m' hm')] at hbindings
      exact hbindings
  refine ⟨fun path => ?_, fun paths => Value.AllLike.sameAnswers hs.arrays ?_⟩
  · obtain ⟨h₁, h₂⟩ | ⟨m, m', h₁, h₂, hexports, hbindings⟩ := hmodule path
    · rw [moduleNames, moduleNames, h₁, h₂]
      rfl
    · rw [moduleNames, moduleNames, h₁, h₂, Option.map_some, Option.map_some, hexports.names,
        hbindings.names]
  · refine List.rel_flatMap (List.forall₂_same.2 fun _ _ => rfl) ?_
    rintro path _ rfl
    obtain ⟨h₁, h₂⟩ | ⟨m, m', h₁, h₂, hexports, hbindings⟩ := hmodule path
    · rw [moduleValues, moduleValues, h₁, h₂]
      exact .nil
    · rw [moduleValues, moduleValues, h₁, h₂]
      exact List.rel_append hexports.values hbindings.values

end Session.Contains

namespace Session.Akin

variable {names : String → Prop} {s s' : Session}

theorem loaded (h : s.Akin names s') (path : String) :
    s'.modules.contains path = s.modules.contains path := by
  obtain ⟨common, hc, hc'⟩ := h
  exact (hc'.modules path).trans (hc.modules path).symm

theorem sources (h : s.Akin names s') (path : String) : s'.sources path = s.sources path := by
  obtain ⟨common, hc, hc'⟩ := h
  exact (hc'.sources path).trans (hc.sources path).symm

theorem output (h : s.Akin names s') : s'.output = s.output := by
  obtain ⟨common, hc, hc'⟩ := h
  exact hc'.output.trans hc.output.symm

theorem sameModules (h : s.Akin names s')
    (hapart : ∀ path m, s.modules.get? path = some m → m.frame ≠ rootFrame)
    (hapart' : ∀ path m, s'.modules.get? path = some m → m.frame ≠ rootFrame) :
    s.SameModules s' := by
  obtain ⟨common, hc, hc'⟩ := h
  exact (hc.sameModules hapart).symm.trans (hc'.sameModules hapart')

end Session.Akin

-- ---------------------------------------------------------------------------
-- Sessions that contain a new one
-- ---------------------------------------------------------------------------

/-- What was made before `base` is where it was; what is made from there on comes `gap` later. -/
def Shift.past (base gap : Nat) : Shift where
  apply i := if i < base then i else i + gap
  injective i j hij := by
    dsimp only at hij
    split at hij <;> split at hij <;> omega
  base := base
  gap := gap
  apply_of_le i hi := if_neg (Nat.not_lt.2 hi)

/-- A new session has the root alone; all else that `s` has was made since. -/
def Translation.since (s : Session) : Translation where
  names := (· = 1)
  frame := .past 1 (s.frames.size - 1)
  object := .past 0 s.fields.size
  function := .past 0 s.nextIdentity
  array := .past 0 s.arrays.size
  names_one := Translation.identity.names_one
  names_this := Translation.identity.names_this
  frame_root := rfl

namespace Frames

/-- The frames with other bindings at the root. -/
def withRoot (fs : Frames) (table : Table Value) : Frames where
  store := fs.store.modify rootFrame fun f => { f with bindings := table }
  parent_lt := by
    intro i f p hf hp
    rw [Array.getElem?_modify] at hf
    split at hf
    · obtain ⟨g, hg, rfl⟩ := Option.map_eq_some_iff.1 hf
      exact fs.parent_lt i g p hg hp
    · exact fs.parent_lt i f p hf hp

variable {fs : Frames} {table : Table Value}

theorem size_withRoot : (fs.withRoot table).size = fs.size := by
  simp [size, withRoot]

theorem parent?_withRoot (frame : FrameId) :
    (fs.withRoot table).parent? frame = fs.parent? frame := by
  simp only [parent?, withRoot, Array.getElem?_modify]
  split
  · next h =>
    subst h
    cases fs.store[rootFrame]? <;> rfl
  · rfl

theorem opener?_withRoot (frame : FrameId) :
    (fs.withRoot table).opener? frame = fs.opener? frame := by
  simp only [opener?, withRoot, Array.getElem?_modify]
  split
  · next h =>
    subst h
    cases fs.store[rootFrame]? <;> rfl
  · rfl

theorem bindings_withRoot (hroot : rootFrame < fs.size) (frame : FrameId) :
    (fs.withRoot table).bindings frame =
      if frame = rootFrame then table else fs.bindings frame := by
  have hthere : fs.store[rootFrame]? = some fs.store[rootFrame] := Array.getElem?_eq_getElem hroot
  simp only [bindings, withRoot, Array.getElem?_modify]
  by_cases h : rootFrame = frame
  · subst h
    simp [hthere]
  · simp [h, Ne.symm h]

theorem SameBut.withRoot {names : String → Prop} (hroot : rootFrame < fs.size)
    (h : ∀ name, ¬ names name → table.get? name = fs.getLocal? rootFrame name) :
    fs.SameBut names (fs.withRoot table) where
  size := size_withRoot
  parent := parent?_withRoot
  opener := opener?_withRoot
  bindings frame hne := by rw [bindings_withRoot hroot, if_neg hne]
  root name hname := by rw [Frames.getLocal?, bindings_withRoot hroot, if_pos rfl, h name hname]

theorem initial_out (hne : frame ≠ rootFrame) : initial.store[frame]? = none :=
  Array.getElem?_eq_none (Nat.pos_of_ne_zero hne)

/-- All frames but the root stand for frames that are not made yet. -/
theorem since_out {s : Session} (hroot : rootFrame < s.frames.size) (hne : frame ≠ rootFrame) :
    s.frames.size ≤ (Translation.since s).frame frame := by
  have hpos : 0 < frame := Nat.pos_of_ne_zero hne
  have happly : (Translation.since s).frame frame = frame + (s.frames.size - 1) :=
    if_neg (Nat.not_lt.2 hpos)
  rw [happly]
  exact (Nat.add_sub_cancel' hroot).ge.trans (Nat.add_le_add_right hpos _)

/-- There is nothing around the root, and the natives are bound there, as in a new session. -/
theorem Like.since {s : Session} (hroot : rootFrame < s.frames.size)
    (htop : s.frames.parent? rootFrame = none) (hunit : s.frames.opener? rootFrame = none) :
    initial.Like (.since s) Likeness.blank (s.frames.withRoot (initial.bindings rootFrame)) := by
  have hnone (frame : FrameId) (hne : frame ≠ rootFrame) :
      s.frames.store[(Translation.since s).frame frame]? = none :=
    Array.getElem?_eq_none (since_out hroot hne)
  refine ⟨rfl, ⟨Nat.le_refl 1, ?_⟩, fun frame => ?_, fun frame => ?_, fun frame => ?_,
    fun _ _ _ => rfl, fun _ _ _ => Renamings.inside_plain.symm, ⟨Nat.one_pos, rfl⟩⟩
  · rw [size_withRoot]
    exact (Nat.add_sub_cancel' hroot).symm
  · rw [parent?_withRoot]
    by_cases hne : frame = rootFrame
    · rw [hne, Translation.frame_root, htop]
      rfl
    · rw [Frames.parent?, Frames.parent?, hnone frame hne, initial_out hne]
      rfl
  · rw [opener?_withRoot]
    by_cases hne : frame = rootFrame
    · rw [hne, Translation.frame_root, hunit, Likeness.initial_opener?]
      exact .none
    · rw [Frames.opener?, Frames.opener?, hnone frame hne, initial_out hne]
      exact .none
  · rw [bindings_withRoot hroot]
    by_cases hne : frame = rootFrame
    · rw [hne, if_pos (Translation.frame_root _)]
      exact initial_bindings (P := fun t => t.Like 1 (Value.Like _ Likeness.blank) t) .empty
        (fun t f ht => ht.insert f.name (.plain trivial)) rootFrame
    · have hne' : (Translation.since s).frame frame ≠ rootFrame := fun heq =>
        absurd (since_out hroot hne) (Nat.not_le.2 (heq ▸ hroot))
      rw [if_neg hne', Frames.bindings, Frames.bindings, hnone frame hne, initial_out hne]
      exact .empty

end Frames

/-- Whatever the main program has done: as long as no module has been loaded and nothing has been
printed, the session contains a new one, where the natives are bound as they were. -/
theorem Session.Planted.contains_new {names : String → Prop} {s : Session} (hs : s.Planted)
    (hnotes : ∀ node d, s.distances[node]? = some d → node < s.nextId)
    (hmain : s.context = .main) (hmodules : s.modules = .empty) (hstarted : s.started = [])
    (houtput : s.output = "")
    (hnatives : ∀ name, ¬ names name →
      s.frames.getLocal? rootFrame name = Frames.initial.getLocal? rootFrame name) :
    s.Contains names (.start s.sources s.refusal s.clock) := by
  refine ⟨.since s, fun _ hρ => hρ, Likeness.blank, plain,
    s.frames.withRoot (Frames.initial.bindings rootFrame),
    .withRoot hs.root.1 fun name hname => (hnatives name hname).symm, ?_⟩
  exact {
    frames := .since hs.root.1 hs.top hs.root.2
    fields := fun made => by
      have hnone : s.fields[made + s.fields.size]? = none :=
        Array.getElem?_eq_none (Nat.le_add_left ..)
      show Option.Rel _ none s.fields[made + s.fields.size]?
      rw [hnone]
      exact .none
    objects := ⟨Nat.le_refl 0, (Nat.zero_add _).symm⟩
    arrays := ⟨⟨Nat.le_refl 0, (Nat.zero_add _).symm⟩, fun made => by
      have hnone : s.arrays.elements (made + s.arrays.size) = [] :=
        Arrays.elements_of_le (Nat.le_add_left ..)
      show Value.AllLike _ _ [] (s.arrays.elements (made + s.arrays.size))
      rw [hnone]
      exact .nil⟩
    nextIdentity := ⟨Nat.le_refl 0, (Nat.zero_add _).symm⟩
    notes := ⟨trivial, fun _ _ _ h => h.elim, fun _ _ => rfl, fun j hj => by
      refine Option.eq_none_iff_forall_not_mem.2 fun d hd => ?_
      exact absurd (hnotes j d hd) (Nat.not_lt.2 hj), fun _ _ h => h.elim⟩
    modules := hmodules ▸ .empty
    started := hstarted
    sources := fun path => by
      show Option.Rel _ (s.sources path) (s.sources path)
      cases s.sources path with
      | none => exact .none
      | some source => exact .some (Likeness.shifted_modules _ source)
    context := hmain
    output := houtput
    refusal := rfl
    clock := rfl
    here := Nat.one_pos
    env := rfl
    globals := ⟨Nat.one_pos, rfl⟩ }

end Treewalk
