import Treewalk.Proofs.Globals
import Treewalk.Proofs.Loading

/-!
# Where imported names are visible

An import binds the names of the module in the frame that it stands in. A reference behind it is
looked up where the scope analysis, which does not know what the import will bind, has found its
name declared: in the frame of a scope, or in the globals. The two agree at the top level of a unit,
and where the innermost scope happens to declare the name itself. Everywhere else the reference is
looked up past the frame that the import has bound the name in.
-/

namespace Treewalk

variable {s s' : Session}

-- ---------------------------------------------------------------------------
-- Imports
-- ---------------------------------------------------------------------------

/-- An import that completes ends with the binding of what the module, which is there by then,
binds. -/
theorem importModule_ends (hs : s.Planted)
    (hrun : (worker fuel (.importModule site path)).on s = (.ok (), s')) :
    ∃ m s₁, s.Later s₁ ∧ s₁.Planted ∧ s₁.modules.get? path = some m ∧
      (Run.splice path).on s₁ = (.ok (), s') := by
  let Ends (s' : Session) : Prop := ∃ m s₁, s.Later s₁ ∧ s₁.Planted ∧
    s₁.modules.get? path = some m ∧ (Run.splice path).on s₁ = (.ok (), s')
  cases fuel with
  | zero => exact (nomatch hrun)
  | succ fuel =>
    have splices (s₁ : Session) (hlater : s.Later s₁) (hplanted : s₁.Planted)
        (hloaded : s₁.modules.contains path = true) :
        Triple ((worker fuel).splice path) s₁ (fun _ s' => Ends s') (fun _ _ => True) := by
      obtain ⟨m, hm⟩ := Option.isSome_iff_exists.1 hloaded
      cases fuel with
      | zero => trivial
      | succ fuel =>
        rcases hsplice : (Run.splice path).on s₁ with ⟨_ | _, s'⟩
        · exact Triple.of_error hsplice trivial
        · exact Triple.of_ok hsplice ⟨m, s₁, hlater, hplanted, hm, hsplice⟩
    suffices h : Triple (Run.importWith (worker fuel) site path) s (fun _ s' => Ends s')
        (fun _ _ => True) from h.result hrun
    refine Triple.importWith (fun hloaded => splices s (.refl s) hs hloaded) trivial
      (fun _ _ _ _ => trivial) fun source p hnot hsource hp => ?_
    have hlater := worker_later fuel (.interpret p.tree) (s.load path p)
    have hplanted := (kept_planted.toKept.after fuel (.interpret p.tree) (hs.load path p)).1
    have hentered : (s.load path p).modules.contains path = true := by
      simp [Session.load, Table.contains]
    rcases hbody : (worker fuel (.interpret p.tree)).on (s.load path p) with ⟨_ | _, s₁⟩
    · exact Triple.of_error hbody trivial
    · rw [hbody] at hlater hplanted
      have hgrows := (Session.Grows.load hnot hp).trans hlater.grows
      have hloaded := Orderly.contains_of_grows hlater.grows hentered
      exact Triple.of_ok hbody (splices _ ⟨hgrows.within, rfl⟩
        (kept_planted.back hs hgrows hplanted) hloaded)

theorem import_ends (hs : s.Planted)
    (hrun : (worker fuel (.execute (.importModule keyword path))).on s = (.ok flow, s')) :
    ∃ file m s₁, path.kind = .text file ∧ s.Later s₁ ∧ s₁.Planted ∧
      s₁.modules.get? file = some m ∧ (Run.splice file).on s₁ = (.ok (), s') := by
  cases fuel with
  | zero => exact (nomatch hrun)
  | succ fuel =>
    have hstep : (Run.executeWith (worker fuel) (.importModule keyword path)).on s =
        (.ok flow, s') := hrun
    simp only [Run.executeWith] at hstep
    split at hstep
    · next file hfile =>
      rw [Run.on_bind] at hstep
      rcases himport : (worker fuel (.importModule keyword.site file)).on s with ⟨_ | _, s''⟩
      · rw [himport] at hstep
        cases hstep
      · rw [himport] at hstep
        cases hstep
        obtain ⟨m, s₁, hends⟩ := importModule_ends hs himport
        exact ⟨file, m, s₁, hfile, hends⟩
    · cases hstep

-- ---------------------------------------------------------------------------
-- References
-- ---------------------------------------------------------------------------

namespace Session.Planted

/-- A search from the globals does not see what the frame of a scope binds. -/
theorem holderWithin_define (hs : s.Planted) (hscope : s.frames.opener? frame = some o)
    (bound : String) (v : Value) (name : String) (reach : Nat)
    (hfirst : s.frames.opener? first = none) :
    (s.frames.define frame bound v).holderWithin name reach first =
      s.frames.holderWithin name reach first := by
  induction reach generalizing first with
  | zero => rfl
  | succ reach ih =>
    have hne : first ≠ frame := by
      rintro rfl
      rw [hscope] at hfirst
      cases hfirst
    simp only [Frames.holderWithin, Frames.parent?_define, Frames.bindings_define,
      if_neg fun h : first = frame ∧ _ => hne h.1]
    split
    · rfl
    · split
      · next outer hparent =>
        obtain rfl := hs.child _ _ hfirst hparent
        exact ih hs.toGrounded.root.2
      · rfl

theorem read_define (hs : s.Planted) (hscope : s.frames.opener? frame = some o)
    (bound : String) (v : Value) (name : Token) (hglobals : s.IsGlobal globals) :
    (s.frames.define frame bound v).read globals name = s.frames.read globals name := by
  have hholder : (s.frames.define frame bound v).holder? globals name.lexeme =
      s.frames.holder? globals name.lexeme :=
    hs.holderWithin_define hscope bound v _ _ (hs.opener hglobals).2
  unfold Frames.read Frames.get?
  rw [hholder]
  cases hfound : s.frames.holder? globals name.lexeme with
  | none => rfl
  | some found =>
    have hopener : s.frames.opener? found = none := by
      obtain rfl | ⟨rfl, -⟩ := hs.holder hglobals (.refl _) hfound
      · exact (hs.opener hglobals).2
      · exact hs.toGrounded.root.2
    have hne : found ≠ frame := by
      rintro rfl
      rw [hscope] at hopener
      cases hopener
    simp only [Frames.getLocal?_define, if_neg fun h : found = frame ∧ _ => hne h.1]

end Session.Planted

/-- The frame that a reference is looked up in is the innermost one: at the top level of a unit, and
where the innermost scope has declared the name. -/
def SeenHere (σ : Stack) (name : String) : Prop :=
  σ = [] ∨ Scope.distance? σ.names name = some 0

namespace Located

variable {node : NodeId} {A : Account}

theorem lookUp_here (h : Located t s) (hstands : A.Stands s σ (.expression (.var node name)))
    (hv : s.frames.getLocal? s.context.frame name.lexeme = some v)
    (hseen : SeenHere σ name.lexeme) : (Run.lookUp node name).on s = (.ok v, s) := by
  have hnoted {d : Nat} := hstands.noted_iff (d := d) rfl
  simp only [Run.lookUp, Run.on_bind, Run.on_get]
  obtain rfl | hzero := hseen
  · -- At the top level the name has no distance, and the innermost frame is that of the globals.
    have hnone : s.distances[node]? = none := by
      cases hd : s.distances[node]? with
      | none => rfl
      | some d => cases hnoted.1 hd
    obtain ⟨unit, top, hknows, -, hchain, -⟩ := hstands
    cases hchain with
    | ends =>
      have hglobals := h.top (h.planted.opener hknows.owner.isGlobal).2
      have hholder := Frames.holder?_self (Option.isSome_of_eq_some hv)
      rw [hglobals] at hholder hv
      simp only [hnone, Frames.read, Frames.get?, hholder, hv]
      rfl
  · simp only [hnoted.2 hzero, Frames.getAt?, Frames.ancestor?, hv, Run.on_pure]

theorem lookUp_elsewhere (h : Located t s)
    (hstands : A.Stands s σ (.expression (.var node name)))
    (hseen : ¬ SeenHere σ name.lexeme) (v : Value) :
    ((Run.lookUp node name).on
      { s with frames := s.frames.define s.context.frame name.lexeme v }).1 =
        ((Run.lookUp node name).on s).1 := by
  obtain ⟨htop, hzero⟩ := not_or.1 hseen
  simp only [Run.lookUp, Run.on_bind, Run.on_get]
  cases hd : s.distances[node]? with
  | some d =>
    have hdistance := (hstands.noted_iff rfl).1 hd
    simp only [Frames.getAt?, Frames.ancestor?_define]
    cases hfound : s.frames.ancestor? s.context.frame d with
    | none => rfl
    | some found =>
      have hne : found ≠ s.context.frame := by
        rintro rfl
        have hle := Frames.ancestor?_le hfound
        obtain rfl : d = 0 := by simpa using hle
        exact hzero hdistance
      simp only [Frames.getLocal?_define, if_neg fun h : found = s.context.frame ∧ _ => hne h.1]
      split <;> rfl
  | none =>
    obtain ⟨unit, top, -, -, hchain, -⟩ := hstands
    cases hchain with
    | ends => exact absurd rfl htop
    | opens hscope =>
      simp only [h.planted.read_define hscope _ _ _ h.globals]
      rcases s.frames.read s.context.globals name with _ | _ <;> rfl

end Located

/-- At every moment of every entry: an import that completes leaves each name of the module bound,
in the frame that it stands in, to what is passed on of the value that the module has for it. A
reference to such a name that is evaluated then, as the next statement may do, gives this value if
it stands at the top level of its unit or its innermost scope has declared the name. Otherwise it
gives what it would give whatever the frame bound the name to. -/
theorem imported_names_are_visible (hs : Reachable units s₀)
    (hp : Entry.prepared entry s₀.nextId = .ok p)
    (hm : ComesTo nowhere fuel p.tree.task (s₀.commit p)
      (.execute (.importModule keyword path)) s)
    (hrun : (worker fuel' (.execute (.importModule keyword path))).on s = (.ok flow, s'))
    (hnext : ComesTo nowhere fuel p.tree.task (s₀.commit p) (.evaluate (.var node name)) s') :
    ∃ file m s₁ unit top σ,
      path.kind = .text file ∧ s.Later s₁ ∧ s₁.modules.get? file = some m ∧
      (Run.splice file).on s₁ = (.ok (), s') ∧
      s'.Owns (p.tree :: units) unit top ∧ Inside unit σ (.expression (.var node name)) ∧
      Chain s'.frames top s'.context.frame σ ∧
      (m.frame ≠ s'.context.frame →
        s'.frames.getLocal? m.frame name.lexeme = s₁.frames.getLocal? m.frame name.lexeme) ∧
      ∀ u, s₁.frames.getLocal? m.frame name.lexeme = some u →
        ∃ v, s'.frames.getLocal? s'.context.frame name.lexeme = some v ∧ Adopted m.frame u v ∧
          (SeenHere σ name.lexeme →
            ∀ n, ((worker (n + 1)).evaluate (.var node name)).on s' = (.ok v, s')) ∧
          (¬ SeenHere σ name.lexeme → ∀ n other, (((worker (n + 1)).evaluate (.var node name)).on
            { s' with frames := s'.frames.define s'.context.frame name.lexeme other }).1 =
              (((worker (n + 1)).evaluate (.var node name)).on s').1) := by
  obtain ⟨haccepts, hmain⟩ := hs.accepted
  obtain ⟨-, σ, hstands⟩ := Account.comesTo (fun (h : False) _ _ _ => h.elim)
    (haccepts.entered hmain (entry.checked hp)) hnext
  have hlocated := hs.located hp hnext
  obtain ⟨file, m, s₁, hfile, hlater, hplanted, hmodule, hsplice⟩ :=
    import_ends (hs.located hp hm).planted hrun
  obtain ⟨unit, top, hknows, hinside, hchain, -⟩ := id hstands
  have hhere : s₁.context.frame < s₁.frames.size := by
    rw [hlater.context]
    exact Nat.lt_of_lt_of_le (hs.located hp hm).here hlater.grows.frames.size
  obtain ⟨s'', hsplice', hcontext, hpassed⟩ :=
    Run.splice_here hplanted.toGrounded hhere hmodule
  cases hsplice.symm.trans hsplice'
  refine ⟨file, m, s₁, unit, top, σ, hfile, hlater, hmodule, hsplice, hknows.owner, hinside, hchain,
    fun hne => ?_, fun u hu => ?_⟩
  · have helsewhere := Run.splice_elsewhere file hplanted.toGrounded hhere (hcontext ▸ hne)
      name.lexeme
    rwa [hsplice] at helsewhere
  obtain ⟨v, hv, hadopted⟩ := hpassed _ u hu
  rw [← hcontext] at hv
  exact ⟨v, hv, hadopted, fun hseen n => hlocated.lookUp_here hstands hv hseen,
    fun hseen n other => hlocated.lookUp_elsewhere hstands hseen other⟩

-- ---------------------------------------------------------------------------
-- An import at the top level, and one in a block
-- ---------------------------------------------------------------------------

def imported : Token :=
  ⟨.identifier, "a", 1⟩

def importedFrom : Prepared (List Stmt) :=
  ⟨[.var imported (some (.literal (.bool true)))], [], 1⟩

def visible : Session :=
  .start (fun path => if path = "m" then some "var a=true;" else none) none (.still 0)

/-- A main program that imports a variable at its top level and reads it. -/
def reading : Prepared Line :=
  ⟨.statements [importStatement, .expression (.var 0 imported)], [], 1⟩

def visibleRead : Session :=
  { visible.commit reading with
    frames := ((Frames.initial.addChild rootFrame).define 1 "a" (.bool true)).define rootFrame "a"
      (.bool true)
    modules := Table.empty.insert "m" ⟨1, .empty⟩
    started := ["m"] }

/-- Whether a task is the evaluation of a variable. -/
def isReference : Task → Bool
  | .evaluate (.var _ _) => true
  | _ => false

/-- The import completes without evaluating a variable. -/
theorem on_importing :
    (stoppedWorker (fun t _ => if isReference t then some .exhausted else none) 7
      (.execute importStatement)).on (visible.commit reading) = (.ok .normal, visibleRead) := by
  let stop : Task → Session → Option Halt := fun t _ =>
    if isReference t then some .exhausted else none
  have hp : Prepared.program "var a=true;" 1 = .ok importedFrom := by decide +kernel
  have hsource : (visible.commit reading).sources "m" = some "var a=true;" := rfl
  have hbody : (stoppedWorker stop 5 (.interpret importedFrom.tree)).on
      ((visible.commit reading).load "m" importedFrom) = (.ok (), { visibleRead with
        frames := (Frames.initial.addChild rootFrame).define 1 "a" (.bool true)
        context := ⟨1, 1, ["m"]⟩ }) := rfl
  have himport : (Run.importWith (stoppedWorker stop 5) ⟨1, "import"⟩ "m").on
      (visible.commit reading) = (.ok (), visibleRead) := by
    rw [Run.on_firstImport rfl hsource hp hbody]
    rfl
  have hstatement : (stoppedWorker stop 7 (.execute importStatement)).on (visible.commit reading) =
      (Run.importWith (stoppedWorker stop 5) ⟨1, "import"⟩ "m" >>= fun _ => pure Flow.normal).on
        (visible.commit reading) := rfl
  rw [hstatement, Run.on_bind, himport]
  rfl

/-- At the top level of the main program the variable is seen. -/
theorem imported_variable_is_seen :
    ComesTo nowhere 8 reading.tree.task (visible.commit reading) (.execute importStatement)
      (visible.commit reading) ∧
    (worker 7 (.execute importStatement)).on (visible.commit reading) = (.ok .normal, visibleRead) ∧
    ComesTo nowhere 8 reading.tree.task (visible.commit reading) (.evaluate (.var 0 imported))
      visibleRead ∧
    ((worker 1).evaluate (.var 0 imported)).on visibleRead = (.ok (.bool true), visibleRead) := by
  have hp : (Entry.unit "import\"m\";a;").prepared visible.nextId = .ok reading := by decide +kernel
  have hsooner (stop : Task → Session → Option Halt)
      (h : ∀ t s, stop t s = none ∨ isReference t = true) :
      (stoppedWorker stop 7 (.execute importStatement)).on (visible.commit reading) =
        (.ok .normal, visibleRead) := by
    refine stoppedWorker_on_of_ok (fun t s => ?_) on_importing
    obtain hnone | hreference := h t s
    · rw [hnone]
      split
      · exact .inr rfl
      · exact .inl rfl
    · exact .inr (if_pos hreference)
  have hm : ComesTo nowhere 8 reading.tree.task (visible.commit reading) (.execute importStatement)
      (visible.commit reading) :=
    .first (fun w halt h => Run.on_bind_error h) (fun h => h) .beginning
  have hrun : (worker 7 (.execute importStatement)).on (visible.commit reading) =
      (.ok .normal, visibleRead) := by
    rw [← stoppedWorker_none]
    exact hsooner _ fun _ _ => .inl rfl
  have hreference : ComesTo nowhere 7 (.execute (.expression (.var 0 imported))) visibleRead
      (.evaluate (.var 0 imported)) visibleRead :=
    .first (fun w halt h => Run.on_bind_error h) (fun h => h) .beginning
  have hnext : ComesTo nowhere 8 reading.tree.task (visible.commit reading)
      (.evaluate (.var 0 imported)) visibleRead := by
    refine .of_step (fun h => h) fun halt => ?_
    have hfirst := hsooner (stopAt nowhere (.evaluate (.var 0 imported)) visibleRead halt)
      fun t s => ?_
    · rw [Triple.halts_iff]
      exact Triple.step hfirst (Triple.halts_iff.1 (Run.on_bind_error (hreference halt)))
    · unfold stopAt
      split
      · next h =>
        rw [h.1]
        exact .inr rfl
      · exact .inl (if_neg fun h => h)
  obtain ⟨file, m, s₁, unit, top, σ, hfile, hlater, hmodule, hsplice, -, -, hchain, hkept,
    hbound⟩ := imported_names_are_visible .start hp hm hrun hnext
  cases hfile
  have hgrows := (((kept_grows s₁).splice s₁ (.refl s₁)).result hsplice).1
  obtain ⟨_, ⟨⟩, hframe⟩ := hgrows.modules "m" m hmodule
  have hvalue : s₁.frames.getLocal? m.frame "a" = some (.bool true) := by
    rw [← hframe] at hkept ⊢
    exact (hkept (by decide)).symm
  obtain ⟨v, hv, -, hseen, -⟩ := hbound _ hvalue
  have htop : SeenHere σ "a" := by
    cases hchain with
    | ends => exact .inl rfl
    | opens hscope => cases hscope
  cases hv
  exact ⟨hm, hrun, hnext, hseen htop 0⟩

/-- A main program that imports the variable in a block and reads it there. -/
def blockReading : Prepared Line :=
  ⟨.statements [.block [importStatement, .print (.var 0 imported)]], [], 1⟩

/-- The block has begun. -/
def blockEntered : Session :=
  { visible.commit blockReading with
    frames := Frames.initial.addScope rootFrame (.block [importStatement, .print (.var 0 imported)])
    context := ⟨1, rootFrame, []⟩ }

def blockImported : Session :=
  { blockEntered with
    frames := ((blockEntered.frames.addChild rootFrame).define 2 "a" (.bool true)).define 1 "a"
      (.bool true)
    modules := Table.empty.insert "m" ⟨2, .empty⟩
    started := ["m"] }

/-- The import completes, and binds in the block what the module binds; but the next statement of
the block does not find it. -/
theorem imported_variable_is_not_seen_in_block :
    (worker 6 (.execute importStatement)).on blockEntered = (.ok .normal, blockImported) ∧
    blockImported.frames.getLocal? 2 "a" = some (.bool true) ∧
    blockImported.frames.getLocal? blockImported.context.frame "a" = some (.bool true) ∧
    (worker 6 (.execute (.print (.var 0 imported)))).on blockImported =
      (.error (.error (.runtime ⟨1, "a"⟩ (.undefinedVariable "a"))), blockImported) ∧
    ((Entry.unit "\x7bimport\"m\";print a;\x7d").run 8).on visible =
      (.error (.error (.runtime ⟨1, "a"⟩ (.undefinedVariable "a"))),
        { blockImported with context := .main }) := by
  have hp : (Entry.unit "\x7bimport\"m\";print a;\x7d").prepared 0 = .ok blockReading := by
    decide +kernel
  have hm : Prepared.program "var a=true;" 1 = .ok importedFrom := by decide +kernel
  have hsource : blockEntered.sources "m" = some "var a=true;" := rfl
  have hbody : (worker 4 (.interpret importedFrom.tree)).on (blockEntered.load "m" importedFrom) =
      (.ok (), { blockImported with
        frames := (blockEntered.frames.addChild rootFrame).define 2 "a" (.bool true)
        context := ⟨2, 2, ["m"]⟩ }) := rfl
  have himport : (worker 6 (.execute importStatement)).on blockEntered =
      (.ok .normal, blockImported) := by
    have hstatement : worker 6 (.execute importStatement) =
        (Run.importWith (worker 4) ⟨1, "import"⟩ "m" >>= fun _ => pure Flow.normal) := rfl
    rw [hstatement, Run.on_bind, Run.on_firstImport rfl hsource hm hbody]
    rfl
  have hprint : (worker 6 (.execute (.print (.var 0 imported)))).on blockImported =
      (.error (.error (.runtime ⟨1, "a"⟩ (.undefinedVariable "a"))), blockImported) := rfl
  have hrun : (worker 8 (.interpret [.block [importStatement, .print (.var 0 imported)]])).on
      (visible.commit blockReading) =
        (.error (.error (.runtime ⟨1, "a"⟩ (.undefinedVariable "a"))),
          { blockImported with context := .main }) := by
    have hbody : (Run.inSequence (worker 6).execute [importStatement, .print (.var 0 imported)]).on
        blockEntered =
          (.error (.error (.runtime ⟨1, "a"⟩ (.undefinedVariable "a"))), blockImported) := by
      rw [Run.inSequence, Run.on_bind, himport]
      rfl
    have hblock : (worker 7 (.execute (.block [importStatement, .print (.var 0 imported)]))).on
        (visible.commit blockReading) =
          (.error (.error (.runtime ⟨1, "a"⟩ (.undefinedVariable "a"))),
            { blockImported with context := .main }) := by
      have hwithin : (worker 7 (.execute (.block [importStatement, .print (.var 0 imported)]))).on
          (visible.commit blockReading) = (Run.within (.block 1)
            (Run.inSequence (worker 6).execute [importStatement, .print (.var 0 imported)])).on
              { blockEntered with context := .main } := rfl
      rw [hwithin]
      exact Run.on_within_of_kept hbody rfl
    have hunit : worker 8 (.interpret [.block [importStatement, .print (.var 0 imported)]]) =
        (worker 7 (.execute (.block [importStatement, .print (.var 0 imported)])) >>=
          fun _ => pure ()) := rfl
    rw [hunit, Run.on_bind, hblock]
  refine ⟨himport, rfl, rfl, hprint, ?_⟩
  rw [Entry.on_run_ok _ _ hp]
  exact congrArg (fun r => (Except.map (fun _ => none) r.1, r.2)) hrun

end Treewalk
