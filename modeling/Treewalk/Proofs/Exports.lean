import Treewalk.Proofs.Globals
import Treewalk.Proofs.Loading

/-!
# Exported names

An export is recorded for the module whose top level is running. If it stands at that top level, it
is an export of the source of the module, and the name that it declares is bound in the frame of the
module, so that an import passes it on. But an export may stand in any block or body: it declares
the name in the frame of that scope, and it is recorded all the same.
-/

namespace Treewalk

/-- An export of the name is about to be recorded for the module at the path, and stands elsewhere
than at the top level of the module. -/
def isAstray (path name : String) : Task → Session → Bool
  | .execute (.exportDecl _ declaration), s =>
    s.context.loading.head? = some path && declaration.declared?.map Token.lexeme = some name &&
      (s.modules.get? path).map Module.frame ≠ some s.context.frame
  | _, _ => false

abbrev Astray (path name : String) (t : Task) (s : Session) : Prop :=
  isAstray path name t s

/-- The source at the path has an export of the name at its top level. -/
def Session.Exports (s : Session) (path name : String) : Prop :=
  ∃ source start p keyword declaration token, s.sources path = some source ∧
    Prepared.program source start = .ok p ∧
    Inside (.statements p.tree) [] (.statement (.exportDecl keyword declaration)) ∧
    declaration.declared? = some token ∧ token.lexeme = name

/-- If the name is listed for the module at the path, it is bound in the frame of the module, and
exported by its source. -/
def Session.Lists (s : Session) (path name : String) : Prop :=
  ∀ m, s.modules.get? path = some m → (m.exports.get? name).isSome →
    (s.frames.getLocal? m.frame name).isSome ∧ s.Exports path name

variable {s s' : Session}

/-- An export that stands in the frame of a module is one of the source of the module. -/
theorem Located.exports (h : Located (.execute (.exportDecl keyword declaration)) s)
    (hm : s.modules.get? path = some m) (hframe : s.context.frame = m.frame)
    (hname : declaration.declared? = some token) : s.Exports path token.lexeme := by
  obtain ⟨A, σ, unit, top, hknows, hinside, hchain, -⟩ := h.ready
  obtain ⟨hne, -, hopener⟩ := h.planted.modules path m hm
  rw [hframe] at hchain
  cases hchain with
  | opens hscope =>
    rw [hopener] at hscope
    cases hscope
  | ends =>
    obtain ⟨-, hroot⟩ | ⟨other, m', source, start, p, hm', hframe', hsource, hp, rfl⟩ :=
      hknows.owner
    · exact absurd hroot hne
    · obtain rfl := h.planted.apart _ _ _ _ hm' hm hframe'
      exact ⟨source, start, p, keyword, declaration, token, hsource, hp, hinside, hname, rfl⟩

namespace Session.Lists

theorem grow (h : s.Lists path name) (hframes : s.frames.Grows s'.frames)
    (hmodules : s'.modules = s.modules) (hsources : s'.sources = s.sources) :
    s'.Lists path name := by
  intro m hm hlisted
  rw [hmodules] at hm
  obtain ⟨hbound, hexports⟩ := h m hm hlisted
  refine ⟨hframes.bound _ _ hbound, ?_⟩
  unfold Session.Exports
  rwa [hsources]

theorem load (h : s.Lists path name) (other : String) (p : Prepared (List Stmt)) :
    (s.load other p).Lists path name := by
  intro m hm hlisted
  rw [Session.load, Table.get?_insert] at hm
  split at hm
  · cases hm
    cases hlisted
  · obtain ⟨hbound, hexports⟩ := h m hm hlisted
    exact ⟨(Frames.Grows.add ..).bound _ _ hbound, hexports⟩

/-- What is recorded at the top level of the module is bound there. -/
theorem exported (h : s.Lists path name) (hm : s.modules.get? other = some m)
    (hnew : other = path → target = name →
      (s.frames.getLocal? m.frame name).isSome ∧ s.Exports path name) :
    Session.Lists { s with
      modules := s.modules.insert other { m with exports := m.exports.insert target v } }
      path name := by
  intro m' hm' hlisted
  simp only [Table.get?_insert] at hm'
  split at hm'
  · next hpath =>
    subst hpath
    cases hm'
    simp only [Table.get?_insert] at hlisted
    split at hlisted
    · next htarget => exact hnew rfl htarget.symm
    · exact h m hm hlisted
  · exact h m' hm' hlisted

end Session.Lists

theorem lists_lawful (path name : String) : (Regime.ofSession (·.Lists path name)).Lawful
    fun t s => Astray path name t s ∨ ¬ Located t s where
  function_mono _ _ := trivial
  object_mono _ _ := trivial
  call_mono _ _ := trivial
  called _ := trivial
  returned _ _ := trivial
  closed _ _ := trivial
  classed _ _ := trivial
  constructed _ := trivial
  bound _ _ _ := trivial
  adopted _ _ _ := trivial
  aside hlater _ hmodules hs := hs.grow hlater.grows.frames hmodules hlater.grows.sources
  scope hs _ := hs.grow (.add ..) rfl rfl
  inner hs _ _ := hs.grow (.define ..) rfl rfl
  declared hs _ := hs.grow (.define ..) rfl rfl
  assigned _ _ hs _ := hs.grow (.define ..) rfl rfl
  exported := by
    intro keyword declaration s s' target path' m value hclear hlater hs hname hbound hpath hm
    refine hs.exported hm ?_
    rintro rfl rfl
    rw [not_or, Classical.not_not] at hclear
    obtain ⟨hclear, hlocated⟩ := hclear
    have hloading : s.context.loading.head? = some path' := hlater.context ▸ hpath
    -- The export stands in the frame of the module, which is the same as when it began.
    obtain ⟨m₀, hm₀, hframe⟩ :
        ∃ m₀, s.modules.get? path' = some m₀ ∧ m₀.frame = s.context.frame := by
      simpa [Astray, isAstray, hloading, hname] using hclear
    obtain ⟨m', hm', hframe'⟩ := hlater.grows.modules path' m₀ hm₀
    rw [hm] at hm'
    cases hm'
    refine ⟨?_, ?_⟩
    · rwa [hframe', hframe, ← hlater.context]
    · have hexports := hlocated.exports hm₀ hframe.symm hname
      unfold Session.Exports at hexports ⊢
      rwa [hlater.grows.sources]
  entered hs _ _ _ := hs.grow (.refl _) rfl rfl
  loaded _ hs _ _ _ := hs.load _ _
  back _ _ _ hs' := hs'.grow (.refl _) rfl rfl

theorem Table.mem_sortedNames {t : Table α} : name ∈ t.sortedNames ↔ (t.get? name).isSome := by
  rw [sortedNames, List.mem_mergeSort, get?, ← not_iff_not, Bool.not_eq_true,
    Option.isSome_eq_false_iff, Option.isNone_iff_eq_none, List.lookup_eq_none_iff]
  simp only [List.mem_map, not_exists, not_and]
  exact forall₂_congr fun entry _ => by rw [bne_iff_ne, ne_comm]

/-- An export that completes lists its name for the module whose top level is running. -/
theorem exportDecl_lists (hs : Orderly s) (hpath : s.context.loading.head? = some path)
    (hrun : (worker fuel (.execute (.exportDecl keyword declaration))).on s = (.ok flow, s')) :
    ∃ token names, declaration.declared? = some token ∧ s'.exports? path = some names ∧
      token.lexeme ∈ names := by
  cases fuel with
  | zero => exact (nomatch hrun)
  | succ fuel =>
    suffices h : Triple (Run.executeWith (worker fuel) (.exportDecl keyword declaration)) s
        (fun _ s' => ∃ token names, declaration.declared? = some token ∧
          s'.exports? path = some names ∧ token.lexeme ∈ names) (fun _ _ => True) from
      h.result hrun
    refine Triple.bind (R := fun _ s₁ => s.Later s₁) ?_ fun _ s₁ hlater => ?_
    · have hlater := worker_later fuel (.execute declaration) s
      unfold Triple
      rcases hr : (worker fuel (.execute declaration)).on s with ⟨_ | _, s₁⟩ <;> rw [hr] at hlater
      · trivial
      · exact hlater
    · have hmem : path ∈ s.context.loading := List.mem_of_mem_head? hpath
      have hloaded : s₁.modules.contains path = true :=
        Orderly.contains_of_grows hlater.grows (hs.known path (hs.begun path hmem))
      obtain ⟨m, hm⟩ := Option.isSome_iff_exists.1 hloaded
      cases hname : declaration.declared? with
      | none => exact Triple.fail trivial
      | some token =>
        let value := (s₁.frames.getLocal? s₁.context.frame token.lexeme).getD .nil
        let exports := m.exports.insert token.lexeme value
        have hrecord : (Run.recordExport token.lexeme value).on s₁ = (.ok (), { s₁ with
            modules := s₁.modules.insert path { m with exports := exports } }) := by
          simp only [Run.recordExport, Run.on_modify, hlater.context, hpath, hm, exports]
        refine Triple.step (Run.on_get s₁) (Triple.step hrecord (Triple.pure ?_))
        refine ⟨token, exports.sortedNames, rfl, ?_, Table.mem_sortedNames.2 ?_⟩
        · rw [Session.exports?, Table.get?_insert, if_pos rfl]
          rfl
        · rw [Table.get?_insert, if_pos rfl]
          rfl

/-- As long as no export of the name is recorded for the module at the path from elsewhere than its
top level: whenever the name is listed for the module, the source of the module exports it, the
frame of the module binds it, and an import of the module binds it in the innermost frame. An export
that completes lists its name for the module whose top level is running, wherever it stands. -/
theorem exported_names_are_importable (path name : String) :
    (∀ units s names, Avoiding (Astray path name) units s →
      s.exports? path = some names → name ∈ names →
      s.Exports path name ∧ ∃ m, s.modules.get? path = some m ∧
        (s.frames.getLocal? m.frame name).isSome ∧
        ∃ s', (Run.splice path).on s = (.ok (), s') ∧
          (s'.frames.getLocal? s'.context.frame name).isSome) ∧
    ∀ units s₀ entry p fuel keyword declaration s, Reachable units s₀ →
      Entry.prepared entry s₀.nextId = .ok p →
      ComesTo nowhere fuel p.tree.task (s₀.commit p)
        (.execute (.exportDecl keyword declaration)) s →
      ∀ fuel' flow s', (worker fuel' (.execute (.exportDecl keyword declaration))).on s =
        (.ok flow, s') → s.context.loading.head? = some path →
      ∃ token names, declaration.declared? = some token ∧ s'.exports? path = some names ∧
        token.lexeme ∈ names := by
  constructor
  · intro units s names hclear hnames hname
    obtain ⟨m, hm, rfl⟩ := Option.map_eq_some_iff.1 hnames
    have haccepts := hclear.accepts (lists_lawful path name) fun _ _ _ _ h => (nomatch h)
    obtain ⟨hbound, hexports⟩ := haccepts.session m hm (Table.mem_sortedNames.1 hname)
    obtain ⟨v, hv⟩ := Option.isSome_iff_exists.1 hbound
    have hgrounded := (kept_grounded.reachable hclear.reachable).1
    obtain ⟨s', hrun, hcontext, hpassed⟩ := Run.splice_here hgrounded haccepts.here hm
    obtain ⟨v', hv', -⟩ := hpassed name v hv
    exact ⟨hexports, m, hm, hbound, s', hrun, by rw [hcontext, hv']; rfl⟩
  · intro units s₀ entry p fuel keyword declaration s hs hp hm fuel' flow s' hrun hpath
    exact exportDecl_lists (kept_orderly.comesTo hs hp hm).1 hpath hrun

/-- A module that exports a variable at its top level. -/
def exporter : Prepared (List Stmt) :=
  ⟨[.exportDecl ⟨.kwExport, "export", 1⟩
    (.var ⟨.identifier, "a", 1⟩ (some (.literal (.bool true))))], [], 0⟩

def exporting : Session :=
  .start (fun path => if path = "m" then some "export var a=true;" else none) none (.still 0)

def exportingEnded : Session :=
  { exporting with
    frames := ((Frames.initial.addChild rootFrame).define 1 "a" (.bool true)).define rootFrame "a"
      (.bool true)
    modules := Table.empty.insert "m" ⟨1, Table.empty.insert "a" (.bool true)⟩
    started := ["m"] }

/-- The run comes to no export that stands elsewhere. -/
theorem exporting_clear : Avoiding (Astray "m" "a") [importer.tree] exportingEnded := by
  let stop : Task → Session → Option Halt := fun t s =>
    if Astray "m" "a" t s then some .exhausted else none
  let loaded : Session := { exportingEnded with
    frames := (Frames.initial.addChild rootFrame).define 1 "a" (.bool true)
    context := ⟨1, 1, ["m"]⟩ }
  have hm : Prepared.program "export var a=true;" 0 = .ok exporter := by decide +kernel
  have hsource : exporting.sources "m" = some "export var a=true;" := rfl
  have hbody : (stoppedWorker stop 4 (.interpret exporter.tree)).on (exporting.load "m" exporter) =
      (.ok (), loaded) := rfl
  have himport : (Run.importWith (stoppedWorker stop 4) ⟨1, "import"⟩ "m").on exporting =
      (.ok (), exportingEnded) := by
    rw [Run.on_firstImport rfl hsource hm hbody]
    rfl
  have hunit : (stoppedWorker stop 7 (.interpret [importStatement])).on exporting =
      ((Run.importWith (stoppedWorker stop 4) ⟨1, "import"⟩ "m" >>= fun _ => pure Flow.normal) >>=
        fun _ => pure ()).on exporting := rfl
  have hstopped : (stoppedWorker stop 7 (.interpret [importStatement])).on exporting =
      (.ok (), exportingEnded) := by
    rw [hunit, Run.on_bind, Run.on_bind, himport]
    rfl
  have hrun : ((Entry.unit "import\"m\";").run 7).on exporting = (.ok none, exportingEnded) :=
    importer_on (s := loaded) hsource hm rfl rfl
  have hstart : Avoiding (Astray "m" "a") [] exporting := .start
  have hentry := hstart.run (.unit "import\"m\";") 7 fun p hp => ?_
  · rwa [hrun, importer_units rfl] at hentry
  · cases importer_prepared.symm.trans hp
    exact not_comesTo_of_on_ok hstopped

/-- The exported variable is listed, bound, and passed on by an import. -/
theorem exported_variable_is_importable :
    Avoiding (Astray "m" "a") [importer.tree] exportingEnded ∧
    exportingEnded.exports? "m" = some ["a"] ∧
    exportingEnded.Exports "m" "a" ∧ ∃ m, exportingEnded.modules.get? "m" = some m ∧
      (exportingEnded.frames.getLocal? m.frame "a").isSome ∧
      ∃ s', (Run.splice "m").on exportingEnded = (.ok (), s') ∧
        (s'.frames.getLocal? s'.context.frame "a").isSome := by
  have hnames : exportingEnded.exports? "m" = some ["a"] := by decide +kernel
  exact ⟨exporting_clear, hnames, (exported_names_are_importable "m" "a").1 _ _ _ exporting_clear
    hnames (List.mem_singleton.2 rfl)⟩

/-- A module that exports a variable in a block. -/
def blockExporter : Prepared (List Stmt) :=
  ⟨[.block exporter.tree], [], 0⟩

def blockExporting : Session :=
  .start (fun path => if path = "m" then some "\x7bexport var a=true;\x7d" else none) none
    (.still 0)

def blockExportingEnded : Session :=
  { blockExporting with
    frames := ((Frames.initial.addChild rootFrame).addScope 1 (.block exporter.tree)).define 2 "a"
      (.bool true)
    modules := Table.empty.insert "m" ⟨1, Table.empty.insert "a" (.bool true)⟩
    started := ["m"] }

/-- The name is listed for the module, although the frame of the module does not bind it; an import
does not pass it on. -/
theorem listed_name_is_not_bound :
    ((Entry.unit "import\"m\";").run 8).on blockExporting = (.ok none, blockExportingEnded) ∧
    blockExportingEnded.exports? "m" = some ["a"] ∧
    blockExportingEnded.modules.get? "m" = some ⟨1, Table.empty.insert "a" (.bool true)⟩ ∧
    blockExportingEnded.frames.getLocal? 1 "a" = none ∧
    ∃ s', (Run.splice "m").on blockExportingEnded = (.ok (), s') ∧
      s'.frames.getLocal? s'.context.frame "a" = none := by
  have hm : Prepared.program "\x7bexport var a=true;\x7d" 0 = .ok blockExporter := by decide +kernel
  have hsource : blockExporting.sources "m" = some "\x7bexport var a=true;\x7d" := rfl
  let loaded : Session := { blockExportingEnded with context := ⟨1, 1, ["m"]⟩ }
  have hbody : (worker 5 (.interpret blockExporter.tree)).on
      (blockExporting.load "m" blockExporter) = (.ok (), loaded) := rfl
  have hnames : blockExportingEnded.exports? "m" = some ["a"] := by decide +kernel
  exact ⟨importer_on hsource hm hbody rfl, hnames, rfl, rfl, _, rfl, rfl⟩

end Treewalk
