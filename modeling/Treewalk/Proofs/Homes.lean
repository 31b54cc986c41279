import Treewalk.Proofs.Agreement
import Treewalk.Proofs.Calls
import Treewalk.Proofs.Passages
import Treewalk.Proofs.Splicing

/-!
# Functions and the globals of their units

A function is made with the module tag of the unit that it is declared in, and a call runs its body
with the globals that the tag names. The tag goes wherever the function goes, so functions keep the
globals of their unit, with one exception. A function without tag is one of the main program; if a
module has come to bind it, the next import of that module takes it for a function of the module
and tags it as such. Up to the first import of this kind all functions have the globals of their
units, and that import leaves one that has not.
-/

namespace Treewalk

/-- The moments at which an import passes on a function without module tag. -/
def straying : Task → Session → Prop
  | .splice path, s => s.Stray path
  | _, _ => False

-- ---------------------------------------------------------------------------
-- The unit of a function
-- ---------------------------------------------------------------------------

/-- The top level that a chain of frames ends in is found in one way. -/
theorem Chain.top_unique {fs : Frames} (h : Chain fs top frame σ) (h' : Chain fs top' frame σ')
    (htop : fs.opener? top = none) (htop' : fs.opener? top' = none) : top = top' := by
  induction h generalizing σ' with
  | ends =>
    cases h' with
    | ends => rfl
    | opens hopener =>
      rw [htop] at hopener
      cases hopener
  | opens hopener hparent _ _ ih =>
    cases h' with
    | ends =>
      rw [htop'] at hopener
      cases hopener
    | opens _ hparent' _ hrest =>
      rw [hparent] at hparent'
      cases hparent'
      exact ih hrest

namespace Session

variable {s s' : Session}

/-- The closure was declared in a unit with the given global frame: its routine stands in the unit,
and its frame follows the scopes around it. -/
def Declares (s : Session) (units : List Line) (top : FrameId) (c : Closure) : Prop :=
  ∃ unit σ, s.Owns units unit top ∧ Inside unit σ (.routine c.routine) ∧
    Chain s.frames top c.frame σ

theorem Owns.opener (h : s.Owns units unit top) (hs : s.Grounded) :
    s.frames.opener? top = none := by
  obtain ⟨-, rfl⟩ | ⟨path, m, _, _, _, hm, rfl, -⟩ := h
  · exact hs.root.2
  · exact (hs.modules path m hm).2.2

theorem Declares.unique (h : s.Declares units top c) (h' : s.Declares units top' c)
    (hs : s.Grounded) : top = top' := by
  obtain ⟨unit, σ, howner, -, hchain⟩ := h
  obtain ⟨unit', σ', howner', -, hchain'⟩ := h'
  exact hchain.top_unique hchain' (howner.opener hs) (howner'.opener hs)

theorem Declares.iff (h : s.Declares units top c) (hs : s.Grounded) (other : FrameId) :
    s.Declares units other c ↔ other = top :=
  ⟨fun h' => h'.unique h hs, fun heq => heq ▸ h⟩

theorem Declares.mono (h : s.Declares units top c) (hgrows : s.Grows s') :
    s'.Declares units top c := by
  obtain ⟨unit, σ, howner, hinside, hchain⟩ := h
  exact ⟨unit, σ, howner.mono hgrows, hinside, hchain.mono hgrows.frames⟩

end Session

/-- Where tags are right, the tag of a function names the globals of its unit. -/
theorem Account.Function.declares {A : Account} (h : A.Function s c) (hstrict : A.strict) :
    s.Declares A.units (c.home.getD rootFrame) c := by
  obtain ⟨unit, top, σ, hknows, hinside, hchain, -, hhome⟩ := h
  rw [hhome hstrict, homeOf_getD]
  exact ⟨unit, σ, hknows.owner, hinside, hchain⟩

-- ---------------------------------------------------------------------------
-- Histories without such imports
-- ---------------------------------------------------------------------------

/-- The sessions between entries none of which comes to a straying import. -/
inductive Undisturbed : List Line → Session → Prop
  | start : Undisturbed [] (.start sources refusal clock)
  | run (entry : Entry) (fuel : Nat) : Undisturbed units s →
    (∀ p, entry.prepared s.nextId = .ok p → ∀ t' s',
      ComesTo straying fuel p.tree.task (s.commit p) t' s' → ¬ straying t' s') →
    Undisturbed (entry.units s ++ units) ((entry.run fuel).on s).2
  | told : Undisturbed units s → Undisturbed units { s with output := output, clock := clock }

namespace Undisturbed

theorem reachable (h : Undisturbed units s) : Reachable units s := by
  induction h with
  | start => exact .start
  | run entry fuel _ _ ih => exact ih.run entry fuel
  | told _ ih => exact ih.told

theorem accepted (h : Undisturbed units s) :
    (Account.mk units True).Accepts s ∧ s.context = .main := by
  induction h with
  | start => exact ⟨Account.accepts_start _ _ _, rfl⟩
  | told _ ih => exact ⟨ih.1.told _ _, ih.2⟩
  | @run units s entry fuel _ hclear ih =>
    obtain ⟨hs, hmain⟩ := ih
    cases hp : entry.prepared s.nextId with
    | error e =>
      rw [entry.on_run_error fuel hp, Entry.units, hp]
      exact ⟨hs, hmain⟩
    | ok p =>
      rw [entry.on_run_ok fuel hp, Entry.units, hp]
      have hrun : Account.Keeps _ _ _ _ := Contract.undisturbed
        (Account.inductive_contract fun _ _ _ h => h) Account.fault_exhausted
        (hs.entered hmain (entry.checked hp)) (hclear p hp)
      exact ⟨hrun.leaves.1, hrun.leaves.2.context.trans hmain⟩

end Undisturbed

-- ---------------------------------------------------------------------------
-- Calls and imports
-- ---------------------------------------------------------------------------

/-- The body of a closure runs with the globals that its tag names. -/
theorem beginsWith_body (closure : Closure) (site : Site) (arguments : List Value) (s : Session)
    (hbody : closure.routine.body = st :: rest) :
    ∃ s', BeginsWith (.invoke closure site arguments) s (.execute st) s' ∧
      s'.context.globals = closure.home.getD rootFrame := by
  refine ⟨s.enter closure arguments, fun w halt h => ?_, rfl⟩
  have hframe : (Run.newFrame closure.frame (.call closure.routine)).on s = (.ok s.frames.next,
      { s with frames := s.frames.addScope closure.frame (.call closure.routine) }) := rfl
  rw [Triple.halts_iff] at h ⊢
  refine Triple.step hframe (Triple.step (Run.on_bindParameters ..) ?_)
  refine Triple.bind (R := fun _ _ => False) (Triple.within ?_) fun _ _ h => h.elim
  rw [hbody]
  exact Triple.bind h fun _ _ h => h.elim

/-- After a straying import the innermost frame binds a function of the main program with the tag
of a module. -/
theorem Session.Stray.misplaced (hstray : s.Stray path) (hs : (Account.mk units True).Accepts s)
    (hlt : s.context.frame < s.frames.size) (hground : s.Grounded) :
    ∃ s' name identity c, (Run.splice path).on s = (.ok (), s') ∧
      s'.frames.getLocal? s'.context.frame name = some (.function identity c) ∧
      s'.Declares units rootFrame c ∧ c.home.getD rootFrame ≠ rootFrame := by
  obtain ⟨m, hm, ⟨name, v⟩, hentry, identity, c, rfl, hhome⟩ := hstray
  obtain ⟨s', hrun, hcontext, hbound⟩ := Run.splice_on hground hlt hm
  obtain ⟨v', hget, hadopted⟩ := hbound name _ hentry
  have hgrows : s.Grows s' := (((kept_grows s).splice s (.refl s)).result hrun).1
  have hdeclares : s.Declares units rootFrame c := by
    have := Account.Function.declares (hs.bindings m.frame _ hentry) trivial
    rwa [hhome] at this
  rw [← hcontext] at hget
  cases hadopted with
  | same hne => exact absurd hhome (hne identity c rfl)
  | tagged =>
    refine ⟨s', name, _, _, hrun, hget, hdeclares.mono hgrows, ?_⟩
    exact (hground.modules path m hm).1

/-- In every entry into a session without straying imports so far, up to and including the first
moment of such an import: a function that is called has the globals of the unit that it was declared
in, and of no other, and its body begins with them; all statements run with the globals of their own
units. A straying import leaves a function of the main program that is called with the globals of a
module. -/
theorem functions_keep_their_globals (hs : Undisturbed units s₀)
    (hp : Entry.prepared entry s₀.nextId = .ok p)
    (hm : ComesTo straying fuel p.tree.task (s₀.commit p) t s) :
    (∀ closure site arguments, t = .invoke closure site arguments →
      (∀ top, s.Declares (p.tree :: units) top closure ↔ top = closure.home.getD rootFrame) ∧
      ∀ st rest, closure.routine.body = st :: rest →
        ∃ s', BeginsWith t s (.execute st) s' ∧
          s'.context.globals = closure.home.getD rootFrame) ∧
    (∀ st, t = .execute st → ∃ unit σ, s.Owns (p.tree :: units) unit s.context.globals ∧
      Inside unit σ (.statement st) ∧ Chain s.frames s.context.globals s.context.frame σ) ∧
    ∀ path, t = .splice path → s.Stray path →
      ∃ s' name identity c, (Run.splice path).on s = (.ok (), s') ∧
        s'.frames.getLocal? s'.context.frame name = some (.function identity c) ∧
        (∀ top, s'.Declares (p.tree :: units) top c ↔ top = rootFrame) ∧
        c.home.getD rootFrame ≠ rootFrame := by
  obtain ⟨haccepts, hmain⟩ := hs.accepted
  have hpre := haccepts.entered hmain (entry.checked hp)
  obtain ⟨haccepts, hready⟩ := Account.comesTo (fun _ _ _ h => h) hpre hm
  have hground : s.Grounded := (kept_grounded.comesTo hs.reachable hp hm).1
  refine ⟨?_, ?_, ?_⟩
  · rintro closure site arguments rfl
    refine ⟨(Account.Function.declares hready.1 trivial).iff hground, ?_⟩
    exact fun st rest hbody => beginsWith_body closure site arguments s hbody
  · rintro st rfl
    obtain ⟨σ, unit, top, hknows, hinside, hchain, hglobals⟩ := hready
    obtain rfl := hglobals trivial
    exact ⟨unit, σ, hknows.owner, hinside, hchain⟩
  · rintro path rfl hstray
    obtain ⟨s', name, identity, c, hrun, hget, hdeclares, hne⟩ :=
      hstray.misplaced haccepts hready hground
    have hground' : s'.Grounded := ((kept_grounded.toKept.splice s hground).result hrun).1
    exact ⟨s', name, identity, c, hrun, hget, hdeclares.iff hground', hne⟩

def idle : Closure :=
  ⟨⟨⟨.identifier, "f", 1⟩, some [], []⟩, rootFrame, false, none⟩

def idling : Prepared Line :=
  ⟨.statements [.function idle.routine,
    .expression (.call (.var 0 ⟨.identifier, "f", 1⟩) ⟨.rightParen, ")", 1⟩ [])], [], 1⟩

def idlingCall : Session :=
  let s := (Session.start (fun _ => none) none (.still 0)).commit idling
  { s with frames := s.frames.define rootFrame "f" (.function 0 idle), nextIdentity := 1 }

/-- When the function is called, it has the globals of the main program. -/
theorem idle_keeps_its_globals :
    ComesTo straying 6 idling.tree.task
      ((Session.start (fun _ => none) none (.still 0)).commit idling)
      (.invoke idle ⟨1, ")"⟩ []) idlingCall ∧
    ∀ top, idlingCall.Declares [idling.tree] top idle ↔ top = rootFrame := by
  have hp : (Entry.unit "fun f()\x7b\x7df();").prepared 0 = .ok idling := by decide +kernel
  have hcall : ComesTo straying 5 (.execute (.expression (.call (.var 0 ⟨.identifier, "f", 1⟩)
      ⟨.rightParen, ")", 1⟩ []))) idlingCall (.invoke idle ⟨1, ")"⟩ []) idlingCall := by
    refine .first (fun w halt h => Run.on_bind_error h) (fun h => h) (.of_step (fun h => h) ?_)
    intro halt
    have hcallee : (stoppedWorker (stopAt straying (.invoke idle ⟨1, ")"⟩ []) idlingCall halt) 3
        (.evaluate (.var 0 ⟨.identifier, "f", 1⟩))).on idlingCall =
        (.ok (.function 0 idle), idlingCall) := by
      simp only [stoppedWorker]
      rw [Worker.unless_on_of_none (by simp [stopAt, straying])]
      rfl
    have hinvoke : ComesTo straying 3 (.callValue (.function 0 idle) ⟨1, ")"⟩ []) idlingCall
        (.invoke idle ⟨1, ")"⟩ []) idlingCall :=
      .first (fun w halt h => h) (fun h => h) .beginning
    rw [Triple.halts_iff]
    exact Triple.step hcallee (Triple.step rfl (Triple.halts_iff.1 (hinvoke halt)))
  have hm : ComesTo straying 6 idling.tree.task
      ((Session.start (fun _ => none) none (.still 0)).commit idling) (.invoke idle ⟨1, ")"⟩ [])
      idlingCall := by
    refine .of_step (fun h => h) fun halt => ?_
    have hdeclaration : (stoppedWorker (stopAt straying (.invoke idle ⟨1, ")"⟩ []) idlingCall halt)
        5 (.execute (.function idle.routine))).on
        ((Session.start (fun _ => none) none (.still 0)).commit idling) =
          (.ok .normal, idlingCall) := by
      simp only [stoppedWorker]
      rw [Worker.unless_on_of_none (by simp [stopAt, straying])]
      rfl
    rw [Triple.halts_iff]
    exact Triple.step hdeclaration (Triple.halts_iff.1 (Run.on_bind_error (hcall halt)))
  exact ⟨hm, ((functions_keep_their_globals .start hp hm).1 idle _ _ rfl).1⟩

-- ---------------------------------------------------------------------------
-- A function that is handed to a module
-- ---------------------------------------------------------------------------

/-- A function of a module that keeps the function that it is handed. -/
def keep : Closure :=
  ⟨⟨⟨.identifier, "s", 1⟩, some [⟨.identifier, "g", 1⟩],
    [.expression (.assign 8 ⟨.identifier, "c", 1⟩ (.var 7 ⟨.identifier, "g", 1⟩))]⟩,
    1, false, some 1⟩

def keeper : Prepared (List Stmt) :=
  ⟨[.var ⟨.identifier, "x", 1⟩ (some (.literal (.bool true))), .var ⟨.identifier, "c", 1⟩ none,
    .function keep.routine], [(7, 0)], 9⟩

def handed : Closure :=
  ⟨⟨⟨.identifier, "f", 1⟩, some [],
    [.returnValue ⟨.kwReturn, "return", 1⟩ (some (.var 0 ⟨.identifier, "x", 1⟩))]⟩,
    rootFrame, false, none⟩

/-- A main program that hands that function to the module, imports the module once more, and calls
the function under the name that the module has for it. -/
def handing : Prepared (List Stmt) :=
  ⟨[.importModule ⟨.kwImport, "import", 1⟩ ⟨.text "m", "\"m\"", 1⟩, .function handed.routine,
    .expression (.call (.var 1 ⟨.identifier, "s", 1⟩) ⟨.rightParen, ")", 1⟩
      [.var 2 ⟨.identifier, "f", 1⟩]),
    .importModule ⟨.kwImport, "import", 1⟩ ⟨.text "m", "\"m\"", 1⟩,
    .expression (.assign 4 ⟨.identifier, "x", 1⟩ (.literal .nil)),
    .print (.call (.var 5 ⟨.identifier, "c", 1⟩) ⟨.rightParen, ")", 1⟩ [])], [], 6⟩

def keeping : Session :=
  .start (fun path => if path = "m" then some "var x=true;var c;fun s(g)\x7bc=g;\x7d" else none)
    none (.still 0)

namespace Keeping

/-- The session with the module, when it has come to the given frames. -/
def reached (frames : Frames) (identity : Identity) : Session :=
  { keeping with
    frames := frames
    nextIdentity := identity
    nextId := 9
    distances := (∅ : Std.TreeMap NodeId Nat).insert 7 0
    modules := Table.empty.insert "m" ⟨1, .empty⟩
    started := ["m"] }

def loaded : Frames :=
  (((Frames.initial.addChild rootFrame).define 1 "x" (.bool true)).define 1 "c" .unset).define 1 "s"
    (.function 0 keep)

def imported : Frames :=
  ((loaded.define rootFrame "x" (.bool true)).define rootFrame "c" .unset).define rootFrame "s"
    (.function 0 keep)

def handedOver : Frames :=
  let declared := imported.define rootFrame "f" (.function 1 handed)
  ((declared.addScope 1 (.call keep.routine)).define 2 "g" (.function 1 handed)).define 1 "c"
    (.function 1 handed)

def returned : Frames :=
  (((handedOver.define rootFrame "x" (.bool true)).define rootFrame "c"
    (.function 2 { handed with home := some 1 })).define rootFrame "s"
    (.function 0 keep)).define rootFrame "x" .nil

def ended : Session :=
  { reached (returned.addScope rootFrame (.call handed.routine)) 3 with output := "true\n" }

theorem on_import : (worker 11 (.execute (.importModule ⟨.kwImport, "import", 1⟩
    ⟨.text "m", "\"m\"", 1⟩))).on (keeping.commit handing) = (.ok .normal, reached imported 1) := by
  have hp : Prepared.program "var x=true;var c;fun s(g)\x7bc=g;\x7d" 6 = .ok keeper := by
    decide +kernel
  have hbody : (worker 9 (.interpret keeper.tree)).on ((keeping.commit handing).load "m" keeper) =
      (.ok (), { reached loaded 1 with context := ⟨1, 1, ["m"]⟩ }) := by rfl
  have hsplice : (worker 9 (.splice "m")).on (reached loaded 1) =
      (.ok (), reached imported 1) := by rfl
  have hsource : (keeping.commit handing).sources "m" =
      some "var x=true;var c;fun s(g)\x7bc=g;\x7d" := by rfl
  have himport : (Run.importWith (worker 9) ⟨1, "import"⟩ "m").on (keeping.commit handing) =
      (.ok (), reached imported 1) := by
    rw [Run.on_firstImport rfl hsource hp hbody]
    exact hsplice
  have hexecute : worker 11 (.execute (.importModule ⟨.kwImport, "import", 1⟩
      ⟨.text "m", "\"m\"", 1⟩)) =
        (Run.importWith (worker 9) ⟨1, "import"⟩ "m" >>= fun _ => pure Flow.normal) := rfl
  rw [hexecute, Run.on_bind, himport]
  rfl

/-- The rest of the main program hands the function over, imports the module once more, changes its
own global, and prints what the function returns. -/
theorem on_rest : (Run.every (worker 11).execute handing.tree.tail).on (reached imported 1) =
    (.ok (), ended) := by
  have hhand : (Run.every (worker 11).execute (handing.tree.tail.take 2)).on (reached imported 1) =
      (.ok (), reached handedOver 2) := by rfl
  have himport : (Run.every (worker 11).execute ((handing.tree.tail.drop 2).take 2)).on
      (reached handedOver 2) = (.ok (), reached returned 3) := by rfl
  rw [show handing.tree.tail = handing.tree.tail.take 2 ++ ((handing.tree.tail.drop 2).take 2 ++
    handing.tree.tail.drop 4) from rfl]
  rw [Run.on_every_append hhand, Run.on_every_append himport]
  rfl

end Keeping

/-- The function of the main program has come back with the tag of the module: called, it reads the
global of the module, although its own has changed. -/
theorem handed_function_loses_its_globals :
    ∃ s, ((Entry.unit "import\"m\";fun f()\x7breturn x;\x7ds(f);import\"m\";x=nil;print c();").run
        12).on keeping = (.ok none, s) ∧
      s.output = "true\n" ∧ s.frames.getLocal? rootFrame "x" = some .nil ∧
      ∃ identity c, s.frames.getLocal? rootFrame "c" = some (.function identity c) ∧
        s.Declares [.statements handing.tree] rootFrame c ∧ c.home.getD rootFrame ≠ rootFrame := by
  have hp : (Entry.unit
      "import\"m\";fun f()\x7breturn x;\x7ds(f);import\"m\";x=nil;print c();").prepared 0 =
      .ok (handing.mapTree .statements) := by decide +kernel
  have hrun : (worker 12 (.interpret handing.tree)).on (keeping.commit handing) =
      (.ok (), Keeping.ended) := by
    have hfirst : worker 12 (.interpret handing.tree) = (worker 11 (.execute (.importModule
        ⟨.kwImport, "import", 1⟩ ⟨.text "m", "\"m\"", 1⟩)) >>= fun _ =>
          Run.every (worker 11).execute handing.tree.tail) := rfl
    rw [hfirst, Run.on_bind, Keeping.on_import]
    exact Keeping.on_rest
  have hentry : ((Entry.unit
      "import\"m\";fun f()\x7breturn x;\x7ds(f);import\"m\";x=nil;print c();").run 12).on keeping =
      (.ok none, Keeping.ended) := by
    rw [Entry.on_run_ok _ _ hp]
    exact congrArg (fun r => (Except.map (fun _ => none) r.1, r.2)) hrun
  have hinside : Inside (.statements handing.tree) [] (.routine handed.routine) := by
    have hwhole : Inside (.statements handing.tree) [] (.statements handing.tree) := .whole
    have hrest : Inside (.statements handing.tree) [] (.statements handing.tree.tail) :=
      hwhole.part (List.mem_cons_of_mem _ List.mem_cons_self)
    have hdeclaration : Inside (.statements handing.tree) []
        (.statement (.function handed.routine)) := hrest.part List.mem_cons_self
    exact hdeclaration.part List.mem_cons_self
  have hdeclares : Keeping.ended.Declares [.statements handing.tree] rootFrame
      { handed with home := some 1 } :=
    ⟨_, [], .inl ⟨List.mem_cons_self, rfl⟩, hinside, .ends (by decide)⟩
  exact ⟨Keeping.ended, hentry, rfl, rfl, 2, { handed with home := some 1 }, rfl,
    hdeclares, by decide⟩

end Treewalk
