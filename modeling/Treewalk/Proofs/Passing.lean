import Treewalk.Proofs.Lives
import Treewalk.Proofs.Splicing

/-!
# Imports of modules that are there

An import of a module that has been entered runs nothing. It binds, in the innermost frame, what the
frame of the module binds at that time, and makes copies of the functions without module tag.
Nothing else is changed, and the order in which the bindings are gone through is seen in the numbers
of the copies alone.
-/

namespace Treewalk

-- ---------------------------------------------------------------------------
-- Frames that are in order
-- ---------------------------------------------------------------------------

/-- The innermost frame is there, and in every frame a name occurs once. -/
structure Session.Framed (s : Session) : Prop where
  here : s.context.frame < s.frames.size
  distinct : ∀ frame, (s.frames.bindings frame).Distinct

/-- What is kept holds between entries and calls of a host, -/
theorem KeptBetween.hosted (hI : KeptBetween I) (h : Hosted units given s) : I s := by
  induction h with
  | start => exact hI.start _ _ _
  | @entry units given s result s' entry fuel _ hrun ih =>
    cases hp : entry.prepared s.nextId with
    | error e =>
      rw [entry.on_run_error fuel hp] at hrun
      cases hrun
      exact ih
    | ok p =>
      rw [entry.on_run_ok fuel hp] at hrun
      cases hrun
      exact (hI.toKept.after fuel p.tree.task (hI.commit (entry.checked hp) ih)).1
  | @call _ _ s callee arguments site _ _ fuel _ _ hrun ih =>
    have hafter := (hI.toKept.after fuel (.callValue callee site arguments) ih).1
    rwa [hrun] at hafter
  | told _ ih => exact hI.told _ _ ih

/-- and so it does in all that these come to. -/
theorem KeptBetween.occurs (hI : KeptBetween I) (h : Occurs units t s) : I s := by
  cases h with
  | entry hhosted hp hcomes =>
    have hpre := hI.commit (Entry.checked _ hp) (hI.hosted hhosted)
    exact (hI.toKept.comesTo ⟨hpre, Kept.starts_task I _ hhosted.atRest.main⟩ hcomes).1
  | @call _ _ s₀ callee arguments fuel site _ _ hhosted _ hcomes =>
    have hstarts : Kept.Starts I (.callValue callee site arguments) s₀ := trivial
    exact (hI.toKept.comesTo ⟨hI.hosted hhosted, hstarts⟩ hcomes).1

/-- Frames are in order at every moment of a life, before and behind. -/
theorem Life.framed (h : Life units given runs s₀) : s₀.Framed ∧
    ∀ k : Moment, k.Of runs → k.allowance ≠ 0 → k.session.Framed ∧ k.after.Framed := by
  refine ⟨⟨h.hosted.atRest.existing.here, (kept_grounded.hosted h.hosted).distinct⟩, ?_⟩
  intro k hk hallowed
  obtain ⟨units', -, hoccurs⟩ := h.occurs hk hallowed
  have hhere := hoccurs.poised.existing.here
  have hgrounded := kept_grounded.occurs hoccurs
  obtain ⟨hgrounded', hlater⟩ := kept_grounded.toKept.after k.allowance k.task hgrounded
  refine ⟨⟨hhere, hgrounded.distinct⟩, ?_, hgrounded'.distinct⟩
  have hcontext : k.after.context = k.session.context := hlater.context
  rw [hcontext]
  exact Nat.lt_of_lt_of_le hhere hlater.grows.frames.size

-- ---------------------------------------------------------------------------
-- What is passed on
-- ---------------------------------------------------------------------------

/-- The closure of a function without module tag. -/
def Value.untagged? : Value → Option Closure
  | .function _ c => if c.home.isNone then some c else none
  | _ => none

/-- What an import passes on of a value in the given frame of a module: a copy, under the given
number, of a function without module tag, and any other value as it is. -/
def Value.passedOn (frame : FrameId) (copy : Identity) (v : Value) : Value :=
  match v.untagged? with
  | some c => .function copy { c with home := some frame }
  | none => v

/-- The names whose functions are copied, in the order in which they are gone through. -/
def copiedNames (entries : List (String × Value)) : List String :=
  (entries.filter (·.2.untagged?.isSome)).map Prod.fst

theorem copiedNames_sublist (entries : List (String × Value)) :
    (copiedNames entries).Sublist (entries.map Prod.fst) :=
  List.filter_sublist.map _

/-- The second frames are the first, but for what the given frame binds. -/
structure Frames.SameAround (frame : FrameId) (fs fs' : Frames) : Prop where
  size : fs'.size = fs.size
  parent : ∀ id, fs'.parent? id = fs.parent? id
  opener : ∀ id, fs'.opener? id = fs.opener? id
  bindings : ∀ id ≠ frame, fs'.bindings id = fs.bindings id

namespace Frames.SameAround

variable {fs fs' fs'' : Frames}

theorem refl (fs : Frames) : fs.SameAround frame fs :=
  ⟨rfl, fun _ => rfl, fun _ => rfl, fun _ _ => rfl⟩

theorem trans (h : fs.SameAround frame fs') (h' : fs'.SameAround frame fs'') :
    fs.SameAround frame fs'' :=
  ⟨h'.size.trans h.size, fun id => (h'.parent id).trans (h.parent id),
    fun id => (h'.opener id).trans (h.opener id),
    fun id hid => (h'.bindings id hid).trans (h.bindings id hid)⟩

theorem define (fs : Frames) (frame : FrameId) (name : String) (v : Value) :
    fs.SameAround frame (fs.define frame name v) :=
  ⟨by simp, by simp, by simp, fun id hid => by rw [Frames.bindings_define, if_neg (hid ·.1)]⟩

end Frames.SameAround

namespace Run

theorem on_adopt (frame : FrameId) (v : Value) (s : Session) : (adopt frame v).on s =
    (.ok (v.passedOn frame s.nextIdentity),
      { s with nextIdentity := s.nextIdentity + if v.untagged?.isSome then 1 else 0 }) := by
  cases v with
  | function i c =>
    cases hhome : c.home with
    | none => simp only [adopt, hhome, Value.passedOn, Value.untagged?]; rfl
    | some home => simp only [adopt, hhome, Value.passedOn, Value.untagged?]; rfl
  | _ => rfl

/-- What going through the given bindings of a module's frame does: the copies are numbered in this
order. -/
theorem on_adoptAll (frame : FrameId) (entries : List (String × Value)) (s : Session)
    (hlt : s.context.frame < s.frames.size) (hdistinct : (entries.map Prod.fst).Nodup) :
    ∃ s', (adoptAll frame entries).on s = (.ok (), s') ∧
      s' = { s with
        frames := s'.frames, nextIdentity := s.nextIdentity + (copiedNames entries).length } ∧
      s.frames.SameAround s.context.frame s'.frames ∧
      (∀ name v, (name, v) ∈ entries → s'.frames.getLocal? s.context.frame name =
        some (v.passedOn frame (s.nextIdentity + (copiedNames entries).idxOf name))) ∧
      ∀ name, name ∉ entries.map Prod.fst →
        s'.frames.getLocal? s.context.frame name = s.frames.getLocal? s.context.frame name := by
  induction entries generalizing s with
  | nil => exact ⟨s, rfl, rfl, .refl _, by simp, by simp⟩
  | cons entry rest ih =>
    obtain ⟨name, v⟩ := entry
    rw [List.map_cons, List.nodup_cons] at hdistinct
    let s₁ : Session := { s with
      frames := s.frames.define s.context.frame name (v.passedOn frame s.nextIdentity)
      nextIdentity := s.nextIdentity + if v.untagged?.isSome then 1 else 0 }
    obtain ⟨s', hrest, hsession, haround, hbound, hkept⟩ :=
      ih s₁ (by simpa [s₁] using hlt) hdistinct.2
    have hlocal (name' : String) : s₁.frames.getLocal? s.context.frame name' =
        if name' = name then some (v.passedOn frame s.nextIdentity)
        else s.frames.getLocal? s.context.frame name' := by
      simp only [s₁, Frames.getLocal?_define, hlt, true_and]
    have hnumbers : s₁.nextIdentity + (copiedNames rest).length =
        s.nextIdentity + (copiedNames ((name, v) :: rest)).length := by
      cases huntagged : v.untagged?.isSome with
      | false => simp [s₁, copiedNames, huntagged]
      | true => simp [s₁, copiedNames, huntagged, Nat.add_assoc, Nat.add_comm 1]
    refine ⟨s', ?_, ?_, (Frames.SameAround.define ..).trans haround, fun name' u hmem => ?_,
      fun name' hname => ?_⟩
    · simp only [adoptAll, on_bind, on_adopt]
      exact hrest
    · rw [hnumbers] at hsession
      exact hsession
    · rcases List.mem_cons.1 hmem with heq | hin
      · cases heq
        rw [hkept name hdistinct.1, hlocal, if_pos rfl]
        cases huntagged : v.untagged? with
        | none => simp only [Value.passedOn, huntagged]
        | some c => simp [copiedNames, huntagged]
      · have hne : name' ≠ name := by
          rintro rfl
          exact hdistinct.1 (List.mem_map.2 ⟨_, hin, rfl⟩)
        rw [hbound name' u hin]
        cases huntagged : v.untagged?.isSome with
        | false => simp [s₁, copiedNames, huntagged]
        | true =>
          have hidx : (copiedNames ((name, v) :: rest)).idxOf name' =
              (copiedNames rest).idxOf name' + 1 := by
            simp [copiedNames, huntagged, List.idxOf_cons, beq_false_of_ne (Ne.symm hne)]
          rw [hidx]
          simp only [s₁, huntagged, if_true, Nat.add_assoc, Nat.add_comm 1]
    · rw [List.map_cons, List.mem_cons, not_or] at hname
      exact (hkept name' hname.2).trans ((hlocal name').trans (if_neg hname.1))

end Run

-- ---------------------------------------------------------------------------
-- The order of the bindings
-- ---------------------------------------------------------------------------

/-- A number from `base` on that stands for a name by its place in one list, made into the number
that stands for it by its place in another. -/
def renumbered (base : Nat) (names names' : List String) (i : Nat) : Nat :=
  if i < base then i
  else
    match names[i - base]? with
    | some name => base + names'.idxOf name
    | none => i

theorem renumbered_renumbered {names names' : List String} (h : names.Perm names')
    (hnodup : names.Nodup) (base i : Nat) :
    renumbered base names' names (renumbered base names names' i) = i := by
  by_cases hbase : i < base
  · simp only [renumbered, hbase, if_true]
  · cases hname : names[i - base]? with
    | none =>
      have hnone : names'[i - base]? = none := by
        rw [List.getElem?_eq_none_iff] at hname ⊢
        rwa [← h.length_eq]
      simp only [renumbered, hbase, if_false, hname, hnone]
    | some name =>
      have hmem' : name ∈ names' := h.subset (List.mem_of_getElem? hname)
      have hplace : names'[names'.idxOf name]? = some name := List.getElem?_idxOf hmem'
      have hback : names.idxOf name = i - base := by
        obtain ⟨hlt, heq⟩ := List.getElem?_eq_some_iff.1 hname
        rw [← heq, hnodup.idxOf_getElem]
      have hnot : ¬ base + names'.idxOf name < base := by omega
      simp only [renumbered, hbase, if_false, hname, hnot, Nat.add_sub_cancel_left, hplace, hback]
      omega

/-- Which number a copy has in one order, by which it has in another. -/
def renumbering {names names' : List String} (h : names.Perm names') (hnodup : names.Nodup)
    (base : Nat) : Equiv.Perm Nat where
  toFun := renumbered base names names'
  invFun := renumbered base names' names
  left_inv := renumbered_renumbered h hnodup base
  right_inv := renumbered_renumbered h.symm (h.nodup_iff.1 hnodup) base

theorem renumbered_place {names names' : List String} (hmem : name ∈ names) (base : Nat) :
    renumbered base names names' (base + names.idxOf name) = base + names'.idxOf name := by
  have hnot : ¬ base + names.idxOf name < base := by omega
  have hplace : names[names.idxOf name]? = some name := List.getElem?_idxOf hmem
  simp only [renumbered, hnot, if_false, Nat.add_sub_cancel_left, hplace]

theorem renumbered_outside {names names' : List String}
    (hi : i < base ∨ base + names.length ≤ i) : renumbered base names names' i = i := by
  by_cases hbase : i < base
  · simp only [renumbered, hbase, if_true]
  · have hnone : names[i - base]? = none := List.getElem?_eq_none_iff.2 (by omega)
    simp only [renumbered, hbase, if_false, hnone]

-- ---------------------------------------------------------------------------
-- What an import of a module does
-- ---------------------------------------------------------------------------

/-- The second session is the first one, but that its innermost frame binds what the given frame
binds in the first one; of functions without module tag it has copies, under new numbers. -/
structure Session.Spliced (s : Session) (frame : FrameId) (copy : String → Identity)
    (s' : Session) :
    Prop where
  session : s' = { s with frames := s'.frames, nextIdentity := s'.nextIdentity }
  around : s.frames.SameAround s.context.frame s'.frames
  bound : ∀ name v, s.frames.getLocal? frame name = some v →
    s'.frames.getLocal? s.context.frame name = some (v.passedOn frame (copy name))
  kept : ∀ name, s.frames.getLocal? frame name = none →
    s'.frames.getLocal? s.context.frame name = s.frames.getLocal? s.context.frame name
  fresh : ∀ name v, s.frames.getLocal? frame name = some v → v.untagged?.isSome →
    s.nextIdentity ≤ copy name ∧ copy name < s'.nextIdentity
  apart : ∀ name name' v v', s.frames.getLocal? frame name = some v → v.untagged?.isSome →
    s.frames.getLocal? frame name' = some v' → v'.untagged?.isSome → copy name = copy name' →
    name = name'

/-- Where a value is not copied the number does not matter. -/
theorem Session.Spliced.congr {s s' : Session} (h : s.Spliced frame copy s')
    (hcopy : ∀ name v, s.frames.getLocal? frame name = some v → v.untagged?.isSome →
      copy' name = copy name) : s.Spliced frame copy' s' where
  session := h.session
  around := h.around
  bound name v hv := by
    rw [h.bound name v hv]
    cases huntagged : v.untagged? with
    | none => simp only [Value.passedOn, huntagged]
    | some c => rw [hcopy name v hv (by rw [huntagged]; rfl)]
  kept := h.kept
  fresh name v hv huntagged := by
    rw [hcopy name v hv huntagged]
    exact h.fresh name v hv huntagged
  apart name name' v v' hv huntagged hv' huntagged' heq := by
    rw [hcopy name v hv huntagged, hcopy name' v' hv' huntagged'] at heq
    exact h.apart name name' v v' hv huntagged hv' huntagged' heq

theorem mem_copiedNames {entries : List (String × Value)} (hv : (name, v) ∈ entries)
    (huntagged : v.untagged?.isSome) : name ∈ copiedNames entries :=
  List.mem_map.2 ⟨(name, v), List.mem_filter.2 ⟨hv, huntagged⟩, rfl⟩

/-- In whatever order the bindings of a frame are gone through, they are passed on. -/
theorem Run.adoptAll_spliced {s : Session} (hs : s.Framed) {entries : List (String × Value)}
    (hentries : entries.Perm (s.frames.bindings frame).entries) :
    ∃ s', (adoptAll frame entries).on s = (.ok (), s') ∧
      s'.nextIdentity = s.nextIdentity + (copiedNames entries).length ∧
      s.Spliced frame (fun name => s.nextIdentity + (copiedNames entries).idxOf name) s' := by
  have hnames := hentries.map Prod.fst
  have hnodup : (entries.map Prod.fst).Nodup := hnames.nodup_iff.2 (hs.distinct frame)
  obtain ⟨s', hrun, hsession, haround, hbound, hkept⟩ := on_adoptAll frame entries s hs.here hnodup
  have hnext : s'.nextIdentity = s.nextIdentity + (copiedNames entries).length := by rw [hsession]
  have hmem {name : String} {v : Value} (hv : s.frames.getLocal? frame name = some v) :
      (name, v) ∈ entries := hentries.mem_iff.2 (Logged.mem_of_get? hv)
  refine ⟨s', hrun, hnext, ?_, haround, fun name v hv => hbound name v (hmem hv),
    fun name hnone => hkept name ?_, fun name v hv huntagged => ?_, ?_⟩
  · rw [hnext]
    exact hsession
  · intro hname
    obtain ⟨⟨_, v⟩, hv, rfl⟩ := List.mem_map.1 (hnames.mem_iff.1 hname)
    have hdiffers := List.lookup_eq_none_iff.1 hnone _ hv
    simp at hdiffers
  · have hlt := List.idxOf_lt_length_iff.2 (mem_copiedNames (hmem hv) huntagged)
    rw [hnext]
    exact ⟨Nat.le_add_right _ _, Nat.add_lt_add_left hlt _⟩
  · intro name name' v v' hv huntagged hv' huntagged' heq
    exact (List.idxOf_inj (mem_copiedNames (hmem hv) huntagged)).1 (Nat.add_left_cancel heq)

/-- An import of a module that is there carries out nothing else. -/
theorem Run.on_import {s : Session} (w : Worker) (hpath : path.kind = .text p)
    (hm : s.modules.get? p = some m)
    (hrun : (adoptAll m.frame (s.frames.bindings m.frame).entries).on s = (.ok (), s')) :
    (w.step.step.step (.execute (.importModule keyword path))).on s = (.ok .normal, s') := by
  have hsplice : (w.step (.splice p)).on s = (.ok (), s') := by
    show (splice p).on s = _
    simp only [splice, on_bind, on_get, hm]
    exact hrun
  have himport : (w.step.step (.importModule keyword.site p)).on s = (.ok (), s') := by
    show (importWith w.step keyword.site p).on s = _
    have hcontains : s.modules.contains p = true := by simp [Table.contains, hm]
    simp only [importWith, on_bind, on_get, hcontains, if_true]
    exact hsplice
  show (executeWith w.step.step (.importModule keyword path)).on s = _
  simp only [executeWith, hpath, on_bind, Worker.importModule, himport]
  rfl

/-- An import of a module that has been entered, be it still running or even the one around
it, asks for nothing that runs: with every worker it comes to one session, in which the
innermost frame binds each name of the module's frame to what that frame bound it to before, and
nothing else has changed, what was printed included. Had the bindings been gone through in another
order, then the same would have come of it, up to the numbers that the copies are given. Sessions
are fit for this at all moments of all lives. -/
theorem import_passes_on :
    (∀ {units : List Line} {given : List Value} {runs : List Moment} {s₀ : Session},
      Life units given runs s₀ → s₀.Framed ∧
        ∀ k : Moment, k.Of runs → k.allowance ≠ 0 → k.session.Framed ∧ k.after.Framed) ∧
    ∀ (s : Session) (keyword path : Token) (p : String) (m : Module), s.Framed →
      path.kind = .text p → s.modules.get? p = some m →
      ∃ (s' : Session) (copy : String → Identity),
        (∀ w : Worker, (w.step.step.step (.execute (.importModule keyword path))).on s =
          (.ok .normal, s')) ∧
        s.Spliced m.frame copy s' ∧
        ∀ entries : List (String × Value), entries.Perm (s.frames.bindings m.frame).entries →
          ∃ (s'' : Session) (ρ : Equiv.Perm Identity),
            (Run.adoptAll m.frame entries).on s = (.ok (), s'') ∧
            s''.nextIdentity = s'.nextIdentity ∧
            (∀ i, i < s.nextIdentity ∨ s'.nextIdentity ≤ i → ρ i = i) ∧
            s.Spliced m.frame (ρ ∘ copy) s'' := by
  refine ⟨Life.framed, fun s keyword path p m hs hpath hm => ?_⟩
  obtain ⟨s', hrun, hnext, hspliced⟩ :=
    Run.adoptAll_spliced hs (.refl (s.frames.bindings m.frame).entries)
  refine ⟨s', _, fun w => Run.on_import w hpath hm hrun, hspliced, fun entries hentries => ?_⟩
  obtain ⟨s'', hrun', hnext', hspliced'⟩ := Run.adoptAll_spliced hs hentries
  have hcopied : (copiedNames (s.frames.bindings m.frame).entries).Perm (copiedNames entries) :=
    (hentries.symm.filter _).map _
  have hnodup : (copiedNames (s.frames.bindings m.frame).entries).Nodup :=
    (copiedNames_sublist _).nodup (hs.distinct m.frame)
  refine ⟨s'', renumbering hcopied hnodup s.nextIdentity, hrun', ?_, fun i hi => ?_,
    hspliced'.congr fun name v hv huntagged => ?_⟩
  · rw [hnext, hnext', hcopied.length_eq]
  · rw [hnext] at hi
    exact renumbered_outside hi
  · exact renumbered_place (mem_copiedNames (Logged.mem_of_get? hv) huntagged) s.nextIdentity

/-- A function of the main program, without module tag. -/
def lent : Closure :=
  ⟨⟨⟨.identifier, "f", 1⟩, some [], []⟩, rootFrame, false, none⟩

/-- A module in the middle of its top level, which has been handed a function. -/
def midway : Session :=
  let started := (Session.start (fun _ => none) none (.still 0)).load "m" ⟨[], [], 0⟩
  { started with
    frames := (started.frames.define 1 "f" (.function 0 lent)).define 1 "x" (.bool true)
    nextIdentity := 1 }

theorem midway_framed : midway.Framed := by
  have hstart : (Session.start (fun _ => none) none (.still 0)).Grounded :=
    kept_grounded.start _ _ _
  have hloaded := hstart.load "m" ⟨[], [], 0⟩
  have hbound := (hloaded.change (.bind 1 "f" (.function 0 lent))).change (.bind 1 "x" (.bool true))
  exact ⟨by decide, hbound.distinct⟩

/-- A module that imports itself, midway, gets a copy of the function in its place. -/
theorem midway_imports_itself :
    midway.Framed ∧ midway.context.frame = 1 ∧ midway.modules.get? "m" = some ⟨1, .empty⟩ ∧
    ∃ (s' : Session) (copy : Identity),
      (worker 3
        (.execute (.importModule ⟨.kwImport, "import", 1⟩ ⟨.text "m", "\"m\"", 1⟩))).on midway =
        (.ok .normal, s') ∧ s'.output = "" ∧ s'.fields = #[] ∧ 1 ≤ copy ∧
      s'.frames.getLocal? 1 "f" = some (.function copy { lent with home := some 1 }) ∧
      s'.frames.getLocal? 1 "x" = some (.bool true) := by
  have hm : midway.modules.get? "m" = some ⟨1, .empty⟩ := rfl
  obtain ⟨s', copy, hrun, hspliced, -⟩ := import_passes_on.2 midway ⟨.kwImport, "import", 1⟩
    ⟨.text "m", "\"m\"", 1⟩ "m" ⟨1, .empty⟩ midway_framed rfl hm
  refine ⟨midway_framed, rfl, hm, s', copy "f", hrun (worker 0), ?_, ?_, ?_, ?_, ?_⟩
  · rw [hspliced.session]
    rfl
  · rw [hspliced.session]
    rfl
  · exact (hspliced.fresh "f" (.function 0 lent) rfl rfl).1
  · exact hspliced.bound "f" (.function 0 lent) rfl
  · exact hspliced.bound "x" (.bool true) rfl

end Treewalk
