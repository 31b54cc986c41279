import Treewalk.Proofs.Supplied
import Treewalk.Proofs.Tandem

/-!
# Unset variables are not observed

A variable without initial value behaves as one that is `nil`, everywhere and for good: its value
may be passed on, kept in objects and arrays, captured, exported and returned. Two workers that
carry out the same tasks, but for initial values, go in tandem; each task keeps that, so whole runs
do. The second worker needs a larger allowance, because the initial value is itself evaluated.
-/

namespace Treewalk

def Flow.filled : Flow → Flow
  | .returning value => .returning value.filled
  | flow => flow

/-- Flows with one filled form. -/
inductive Flow.Twins : Flow → Flow → Prop
  | normal : Twins .normal .normal
  | breaking : Twins .breaking .breaking
  | returning (h : Value.filled v = Value.filled v') : Twins (.returning v) (.returning v')

theorem Flow.twins {flow flow' : Flow} (h : flow.filled = flow'.filled) : flow.Twins flow' := by
  cases flow <;> cases flow' <;> simp only [filled, reduceCtorEq, returning.injEq] at h
  · exact .normal
  · exact .breaking
  · exact .returning h

theorem Value.isTruthy_eq {v v' : Value} (h : v.filled = v'.filled) : v.isTruthy = v'.isTruthy := by
  rw [← isTruthy_filled, h, isTruthy_filled]

/-- What the first worker carries out, the second carries out in tandem, also where initial values
are supplied on either side. -/
structure Partners (w w' : Worker) : Prop where
  evaluate : ∀ e, Tandem Value.filled (w.evaluate e) (w'.evaluate e)
  callValue : ∀ {callee callee' : Value} {arguments arguments' : List Value} (site : Site),
    callee.filled = callee'.filled → arguments.map Value.filled = arguments'.map Value.filled →
    Tandem Value.filled (w.callValue callee site arguments) (w'.callValue callee' site arguments')
  construct : ∀ {c c' : Class} {arguments arguments' : List Value} (site : Site),
    c.filled = c'.filled → arguments.map Value.filled = arguments'.map Value.filled →
    Tandem Value.filled (w.construct c site arguments) (w'.construct c' site arguments')
  invoke : ∀ {c c' : Closure} {arguments arguments' : List Value} (site : Site),
    c.filled = c'.filled → arguments.map Value.filled = arguments'.map Value.filled →
    Tandem Value.filled (w.invoke c site arguments) (w'.invoke c' site arguments')
  execute : ∀ {st st' : Stmt}, st.filled = st'.filled →
    Tandem Flow.filled (w.execute st) (w'.execute st')
  loop : ∀ {body body' : Stmt} (condition : Expr), body.filled = body'.filled →
    Tandem Flow.filled (w.loop condition body) (w'.loop condition body')
  interpret : ∀ {body body' : List Stmt}, Stmt.filledAll body = Stmt.filledAll body' →
    Tandem id (w.interpret body) (w'.interpret body')
  importModule : ∀ (site : Site) (path : String),
    Tandem id (w.importModule site path) (w'.importModule site path)
  splice : ∀ path, Tandem id (w.splice path) (w'.splice path)
  unset : Tandem Value.filled (pure .unset) (w'.evaluate (.literal .nil))
  supplied : Tandem Value.filled (w.evaluate (.literal .nil)) (pure .unset)

namespace Tandem

theorem inSequence {action action' : Stmt → Run Flow}
    (h : ∀ {st st'}, Stmt.filled st = Stmt.filled st' →
      Tandem Flow.filled (action st) (action' st')) :
    ∀ {body body' : List Stmt}, Stmt.filledAll body = Stmt.filledAll body' →
      Tandem Flow.filled (Run.inSequence action body) (Run.inSequence action' body')
  | [], [], _ => pure rfl
  | st :: rest, st' :: rest', hbody => by
    obtain ⟨hst, hrest⟩ := List.cons.inj hbody
    refine (h hst).bind fun flow flow' hflow => ?_
    cases Flow.twins hflow with
    | normal => exact inSequence h hrest
    | breaking => exact pure rfl
    | returning _ => exact pure hflow

theorem every {action action' : Stmt → Run Flow}
    (h : ∀ {st st'}, Stmt.filled st = Stmt.filled st' →
      Tandem Flow.filled (action st) (action' st')) :
    ∀ {body body' : List Stmt}, Stmt.filledAll body = Stmt.filledAll body' →
      Tandem id (Run.every action body) (Run.every action' body')
  | [], [], _ => pure rfl
  | st :: rest, st' :: rest', hbody => by
    obtain ⟨hst, hrest⟩ := List.cons.inj hbody
    exact (h hst).bind fun _ _ _ => every h hrest

end Tandem

namespace Partners

variable {w w' : Worker}

theorem evaluateWith (hw : Partners w w') (e : Expr) :
    Tandem Value.filled (Run.evaluateWith w e) (Run.evaluateWith w' e) := by
  cases e with
  | literal value => exact .pure rfl
  | group inner => exact hw.evaluate inner
  | unary op right =>
    refine (hw.evaluate right).bind fun v v' hv => .ofResult ?_
    rw [← Operator.unary_filled, ← Operator.unary_filled, hv]
  | binary op left right =>
    refine (hw.evaluate left).bind fun v v' hv => (hw.evaluate right).bind fun u u' hu => ?_
    refine .get_bind fun s s' hs => .ofResult ?_
    rw [← Operator.binary_filled, ← Operator.binary_filled, hs.arrays, hv, hu]
  | logical op left right =>
    refine (hw.evaluate left).bind fun v v' hv => ?_
    have hdecides : Run.decides op v = Run.decides op v' := by
      rw [Run.decides, Run.decides, Value.isTruthy_eq hv]
    rw [hdecides]
    split
    · exact .pure hv
    · exact hw.evaluate right
  | conditional condition yes no =>
    refine (hw.evaluate condition).bind fun v v' hv => ?_
    rw [Value.isTruthy_eq hv]
    split
    · exact hw.evaluate yes
    · exact hw.evaluate no
  | var id name => exact .lookUp id name
  | this id keyword => exact .lookUp id keyword
  | assign id name value =>
    refine (hw.evaluate value).bind fun v v' hv => ?_
    exact (Tandem.assign id name hv).bind_same fun _ => .pure hv
  | call callee paren arguments =>
    refine (hw.evaluate callee).bind fun v v' hv => ?_
    exact (Tandem.each hw.evaluate arguments).bind fun vs vs' hvs => hw.callValue _ hv hvs
  | get object name =>
    refine (hw.evaluate object).bind fun v v' hv => (Tandem.member hv name).bind fun u u' hu => ?_
    cases Value.twins hu with
    | @function c c' i hc =>
      have hgetter : c.routine.isGetter = c'.routine.isGetter := by
        rw [Routine.isGetter, Routine.isGetter, (Routine.filled_eq (Closure.filled_eq hc).1).2.1]
      dsimp only
      rw [hgetter]
      split
      · exact hw.invoke _ hc rfl
      · exact .pure hu
    | inert h h' =>
      split
      · exact h.elim
      · split
        · exact h'.elim
        · exact .pure hu
    | native | classObject _ | object _ => exact .pure hu
  | set object name value =>
    refine (hw.evaluate object).bind fun v v' hv => ?_
    have hobject : v.objectId? = v'.objectId? := by
      rw [← Value.objectId?_filled, hv, Value.objectId?_filled]
    rw [hobject]
    cases v'.objectId? with
    | none => exact .fail _ _
    | some i =>
      refine (hw.evaluate value).bind fun u u' hu => ?_
      exact (Tandem.setField i name.lexeme hu).bind_same fun _ => .pure hu
  | array elements =>
    refine (Tandem.each hw.evaluate elements).bind fun vs vs' hvs => ?_
    exact (Tandem.newArray hvs).bind_same fun _ => .pure rfl
  | index target bracket position =>
    refine (hw.evaluate target).bind fun v v' hv => (hw.evaluate position).bind fun u u' hu => ?_
    refine .get_bind fun s s' hs => .ofResult ?_
    rw [← Operator.index_filled, ← Operator.index_filled, hs.arrays, hv, hu]

theorem callValueWith (hw : Partners w w') (site : Site) {v v' : Value} {vs vs' : List Value}
    (hv : v.filled = v'.filled) (hvs : vs.map Value.filled = vs'.map Value.filled) :
    Tandem Value.filled (Run.callValueWith w v site vs) (Run.callValueWith w' v' site vs') := by
  have harity : v.arity? = v'.arity? := by rw [← Value.arity?_filled, hv, Value.arity?_filled]
  have hcount : vs.length = vs'.length := by simpa using congrArg List.length hvs
  unfold Run.callValueWith
  rw [harity, hcount]
  cases hcalled : v'.arity? with
  | none => exact .fail _ _
  | some arity =>
    dsimp only
    split
    · exact .fail _ _
    · cases Value.twins hv with
      | function hc => exact hw.invoke site hc hvs
      | classObject hc => exact hw.construct site hc hvs
      | @native f =>
        refine Tandem.time.bind_same fun now => .get_bind fun s s' hs => .ofResult ?_
        rw [← Native.call_filled, ← Native.call_filled, hs.arrays, hvs]
      | object hc => exact .fail _ _
      | inert _ h' =>
        rw [h'.arity?] at hcalled
        cases hcalled

theorem constructWith (hw : Partners w w') (site : Site) {c c' : Class} {vs vs' : List Value}
    (hc : c.filled = c'.filled) (hvs : vs.map Value.filled = vs'.map Value.filled) :
    Tandem Value.filled (Run.constructWith w c site vs) (Run.constructWith w' c' site vs') := by
  refine Tandem.newObject.bind_same fun i => ?_
  have hmade : (Value.object i c).filled = (Value.object i c').filled := by
    rw [Value.filled, hc, Value.filled]
  have hfound := congrArg (·.get? "init") (Class.filled_eq hc).2.2.1
  simp only [Table.get?_map] at hfound
  obtain ⟨hx, hx'⟩ | ⟨m, m', hx, hx', hm⟩ := both_of_map_eq hfound
  · simp only [hx, hx']
    exact .pure hmade
  · simp only [hx, hx']
    refine (Tandem.bindReceiver hm hmade).bind fun b b' hb => ?_
    exact (hw.invoke site hb hvs).bind fun _ _ _ => .pure hmade

theorem invokeWith (hw : Partners w w') (site : Site) {c c' : Closure} {vs vs' : List Value}
    (hc : c.filled = c'.filled) (hvs : vs.map Value.filled = vs'.map Value.filled) :
    Tandem Value.filled (Run.invokeWith w c site vs) (Run.invokeWith w' c' site vs') := by
  obtain ⟨hroutine, hframe, hinitializer, hhome⟩ := Closure.filled_eq hc
  obtain ⟨-, hparams, hbody⟩ := Routine.filled_eq hroutine
  unfold Run.invokeWith
  rw [hframe, hinitializer, hhome, Routine.parameters, Routine.parameters, hparams]
  refine (Tandem.newFrame _ _ _).bind_same fun frame => ?_
  refine (Tandem.bindParameters frame _ hvs).bind_same fun _ => ?_
  refine (Tandem.within _ (.inSequence hw.execute hbody)).bind fun flow flow' hflow => ?_
  split
  · exact .receiver site hc
  · cases Flow.twins hflow with
    | normal | breaking => exact .pure rfl
    | returning hv => exact .pure hv

theorem executeWith (hw : Partners w w') {st st' : Stmt} (h : st.filled = st'.filled) :
    Tandem Flow.filled (Run.executeWith w st) (Run.executeWith w' st') := by
  have declare {m m' : Run Value} (name : String) (hm : Tandem Value.filled m m') :
      Tandem Flow.filled (do let v ← m; Run.defineHere name v; return .normal)
        (do let v ← m'; Run.defineHere name v; return .normal) :=
    hm.bind fun _ _ hv => (Tandem.defineHere name hv).bind_same fun _ => .pure rfl
  -- Both statements have one filled form, which tells for each what is below it.
  have hst := st.fills
  have hst' := st'.fills
  rw [h] at hst
  generalize st'.filled = full at hst hst'
  cases hst with
  | expression =>
    cases hst'
    exact (hw.evaluate _).bind fun _ _ _ => .pure rfl
  | print =>
    cases hst'
    refine (hw.evaluate _).bind fun v v' hv => ?_
    exact (Tandem.textOf hv).bind_same fun text => (Tandem.printLine text).bind_same fun _ =>
      .pure rfl
  | unset =>
    cases hst' with
    | unset => exact declare _ (.pure rfl)
    | var => exact declare _ hw.unset
  | var =>
    cases hst' with
    | unset => exact declare _ hw.supplied
    | var => exact declare _ (hw.evaluate _)
  | block hbody =>
    cases hst' with
    | block hbody' =>
      refine .get_bind fun s s' hs => ?_
      rw [hs.context]
      refine (Tandem.newFrame _ _ _).bind_same fun frame => .within _ ?_
      exact .inSequence hw.execute (hbody.trans hbody'.symm)
  | ifThen hyes =>
    cases hst' with
    | ifThen hyes' =>
      refine (hw.evaluate _).bind fun v v' hv => ?_
      rw [Value.isTruthy_eq hv]
      split
      · exact hw.execute (hyes.trans hyes'.symm)
      · exact .pure rfl
  | ifElse hyes hno =>
    cases hst' with
    | ifElse hyes' hno' =>
      refine (hw.evaluate _).bind fun v v' hv => ?_
      rw [Value.isTruthy_eq hv]
      split
      · exact hw.execute (hyes.trans hyes'.symm)
      · exact hw.execute (hno.trans hno'.symm)
  | whileLoop hbody =>
    cases hst' with
    | whileLoop hbody' => exact hw.loop _ (hbody.trans hbody'.symm)
  | breakLoop =>
    cases hst'
    exact .pure rfl
  | function hroutine =>
    cases hst' with
    | function hroutine' =>
      have hsame := hroutine.trans hroutine'.symm
      refine (Tandem.close hsame false).bind fun c c' hc => ?_
      rw [(Routine.filled_eq hsame).1]
      exact declare _ (.functionValue hc)
  | classDecl hmethods hothers =>
    cases hst' with
    | classDecl hmethods' hothers' =>
      refine (Tandem.declareClass _ (hmethods.trans hmethods'.symm)
        (hothers.trans hothers'.symm)).bind_same fun _ => .pure rfl
  | @returnValue keyword value =>
    cases hst'
    cases value with
    | none => exact .pure rfl
    | some e => exact (hw.evaluate e).bind fun v v' hv => .pure (congrArg Flow.returning hv)
  | @importModule keyword path =>
    cases hst'
    simp only [Run.executeWith]
    split
    · exact (hw.importModule _ _).bind_same fun _ => .pure rfl
    · exact (Tandem.fail _ _).bind_same fun _ => .pure rfl
  | @exportDecl declaration full keyword hdeclaration =>
    cases hst' with
    | @exportDecl declaration' _ _ hdeclaration' =>
      have hsame := hdeclaration.trans hdeclaration'.symm
      have hdeclared : declaration.declared? = declaration'.declared? := by
        rw [← Stmt.declared?_filled, hsame, Stmt.declared?_filled]
      refine (hw.execute hsame).bind fun _ _ _ => ?_
      rw [hdeclared]
      cases declaration'.declared? with
      | none => exact .fail _ _
      | some name =>
        refine .get_bind fun s s' hs => (Tandem.recordExport _ ?_).bind_same fun _ => .pure rfl
        have hfound := congrArg (·.getLocal? s'.context.frame name.lexeme) hs.frames
        simp only [Frames.getLocal?_filled] at hfound
        rw [hs.context]
        obtain ⟨hx, hx'⟩ | ⟨v, v', hx, hx', hv⟩ := both_of_map_eq hfound
        · rw [hx, hx']
        · rw [hx, hx']
          exact hv

theorem loopWith (hw : Partners w w') (condition : Expr) {body body' : Stmt}
    (h : body.filled = body'.filled) :
    Tandem Flow.filled (Run.loopWith w condition body) (Run.loopWith w' condition body') := by
  refine (hw.evaluate condition).bind fun v v' hv => ?_
  rw [Value.isTruthy_eq hv]
  split
  · refine (hw.execute h).bind fun flow flow' hflow => ?_
    cases Flow.twins hflow with
    | normal => exact hw.loop condition h
    | breaking => exact .pure rfl
    | returning _ => exact .pure hflow
  · exact .pure rfl

theorem importWith (hw : Partners w w') (site : Site) (path : String) :
    Tandem id (Run.importWith w site path) (Run.importWith w' site path) := by
  refine .get_bind fun s s' hs => ?_
  have hloaded : s.modules.contains path = s'.modules.contains path := by
    rw [← Table.contains_map Module.filled, hs.modules, Table.contains_map]
  rw [hloaded]
  split
  · exact hw.splice path
  · have hsource := hs.sources path s'.nextId
    unfold Alike Session.moduleAt at hsource
    rw [hs.nextId]
    obtain ⟨hx, hx'⟩ | ⟨x, x', hx, hx', hxx⟩ := both_of_map_eq hsource
    · rw [Option.map_eq_none_iff] at hx hx'
      simp only [hx, hx']
      exact .fail _ _
    · obtain ⟨source, hsource, rfl⟩ := Option.map_eq_some_iff.1 hx
      obtain ⟨source', hsource', rfl⟩ := Option.map_eq_some_iff.1 hx'
      simp only [hsource, hsource']
      obtain ⟨e, hp, hp'⟩ | ⟨p, p', hp, hp', hpp⟩ := both_of_except_eq hxx
      · simp only [hp, hp']
        exact .raise _
      · simp only [hp, hp']
        refine (Tandem.commit hpp).bind fun body body' hbody => ?_
        refine Tandem.newModuleFrame.bind_same fun frame => ?_
        refine (Tandem.register path frame).bind_same fun _ => ?_
        exact (Tandem.within _ (hw.interpret hbody)).bind_same fun _ => hw.splice path

/-- One task goes in tandem if the tasks within it do. -/
theorem step (hw : Partners w w') : Partners w.step w'.step where
  evaluate := hw.evaluateWith
  callValue site := hw.callValueWith site
  construct site := hw.constructWith site
  invoke site := hw.invokeWith site
  execute := hw.executeWith
  loop condition := hw.loopWith condition
  interpret := .every hw.execute
  importModule := hw.importWith
  splice := .splice
  unset := .pure rfl
  supplied := .pure rfl

end Partners

-- ---------------------------------------------------------------------------
-- Whole runs
-- ---------------------------------------------------------------------------

/-- Nothing that was printed is taken back in the course of a run. -/
theorem kept_printsOn (s : Session) : Kept s.PrintsOn where
  change {s₁ s₂} h hs := by
    refine hs.trans ?_
    cases h with
    | printed text => exact ⟨text ++ "\n", String.append_assoc ..⟩
    | _ => exact .refl s₁
  enter hs := hs
  load hs _ _ _ := hs
  back _ _ hs' := hs'

theorem worker_printsOn (fuel : Nat) (t : Task) (s : Session) :
    s.PrintsOn ((worker fuel t).on s).2 :=
  ((kept_printsOn s).after fuel t (.refl s)).1

/-- A worker goes in tandem with any that has a larger allowance. -/
theorem worker_partners : ∀ {n m : Nat}, n < m → Partners (worker n) (worker m)
  | 0, _ + 1, _ =>
    { evaluate := fun _ => .exhausted (worker_printsOn _ _)
      callValue := fun _ _ _ => .exhausted (worker_printsOn _ _)
      construct := fun _ _ _ => .exhausted (worker_printsOn _ _)
      invoke := fun _ _ _ => .exhausted (worker_printsOn _ _)
      execute := fun _ => .exhausted (worker_printsOn _ _)
      loop := fun _ _ => .exhausted (worker_printsOn _ _)
      interpret := fun _ => .exhausted (worker_printsOn _ _)
      importModule := fun _ _ => .exhausted (worker_printsOn _ _)
      splice := fun _ => .exhausted (worker_printsOn _ _)
      unset := .pure rfl
      supplied := .exhausted fun s => .refl s }
  | _ + 1, _ + 1, h => (worker_partners (Nat.lt_of_succ_lt_succ h)).step

/-- A line as a computation of what there is to show. -/
def Line.run (l : Line) (w : Worker) : Run (Option Value) :=
  l.shown <$> w l.task

theorem Partners.line (hw : Partners w w') {l l' : Line} (h : l.filled = l'.filled) :
    Tandem (Option.map Value.filled) (l.run w) (l'.run w') := by
  cases l with
  | statements body =>
    cases l' with
    | expression e' => cases h
    | statements body' => exact (hw.interpret (Line.statements.inj h)).map fun _ _ _ => rfl
  | expression e =>
    cases l' with
    | statements body' => cases h
    | expression e' =>
      obtain rfl := Line.expression.inj h
      exact (hw.evaluate e).map fun _ _ hv => congrArg some hv

-- ---------------------------------------------------------------------------
-- Entries
-- ---------------------------------------------------------------------------

/-- An entry of the same kind, with `= nil` put into some declarations of its source. -/
inductive SuppliedEntry : Entry → Entry → Prop
  | unit : SuppliedSource source source' → SuppliedEntry (.unit source) (.unit source')
  | expression : SuppliedSource source source' →
    SuppliedEntry (.expression source) (.expression source')
  | line : SuppliedSource source source' → SuppliedEntry (.line source) (.line source')

/-- Entries that are prepared alike, from every node on. -/
def Entry.Alike (entry entry' : Entry) : Prop :=
  ∀ start, Treewalk.Alike (Except.map (Prepared.mapTree Line.filled)) (entry.prepared start)
    (entry'.prepared start)

theorem SuppliedEntry.alike (h : SuppliedEntry entry entry') : entry.Alike entry' := by
  intro start
  cases h with
  | unit hsource =>
    have hmap (x : Except Error (Prepared (List Stmt))) :
        Except.map (Prepared.mapTree Line.filled) ((·.mapTree .statements) <$> x) =
          Except.map (Prepared.mapTree .statements)
            (Except.map (Prepared.mapTree Stmt.filledAll) x) := by
      cases x <;> rfl
    show Except.map _ (_ <$> _) = Except.map _ (_ <$> _)
    rw [hmap, hmap, Prepared.program_alike hsource start]
  | expression hsource =>
    show Except.map _ (_ <$> _) = Except.map _ (_ <$> _)
    rw [Prepared.loneExpression_alike hsource start]
  | line hsource => exact Prepared.line_alike hsource start

theorem Entry.on_run (entry : Entry) (fuel : Nat) (s : Session) :
    (entry.run fuel).on s =
      match entry.prepared s.nextId with
      | .ok p => (p.tree.run (worker fuel)).on (s.commit p)
      | .error e => (.error (.error e), s) := by
  cases hp : entry.prepared s.nextId with
  | error e => exact entry.on_run_error fuel hp
  | ok p =>
    rw [entry.on_run_ok fuel hp]
    exact (Run.on_map ..).symm

theorem Entry.Alike.tandem (h : Entry.Alike entry entry') (hlt : n < m) :
    Tandem (Option.map Value.filled) (entry.run n) (entry'.run m) where
  runs {s s'} hs := by
    rw [Entry.on_run, Entry.on_run, hs.nextId]
    obtain ⟨e, hp, hp'⟩ | ⟨p, p', hp, hp', hpp⟩ := both_of_except_eq (h s'.nextId)
    · rw [hp, hp']
      exact .halt _ hs
    · rw [hp, hp']
      exact ((worker_partners hlt).line (congrArg Prepared.tree hpp :)).runs (hs.commit hpp)
  prints s := by
    rw [Entry.on_run]
    cases entry'.prepared s.nextId with
    | error e => exact .refl s
    | ok p => exact ((worker_partners hlt).line (rfl : p.tree.filled = _)).prints (s.commit p)

namespace Entry

theorem Alike.refl (entry : Entry) : entry.Alike entry :=
  fun _ => rfl

theorem Alike.symm (h : Entry.Alike entry entry') : entry'.Alike entry :=
  fun start => (h start).symm

/-- With an allowance that is large enough, the entry ends with `r` and leaves `t`. -/
def Ends (entry : Entry) (s : Session) (r : Except Error (Option Value)) (t : Session) : Prop :=
  ∃ fuel, (entry.run fuel).on s = (r.mapError Halt.error, t)

end Entry

theorem Outcomes.ended {form : α → β} {r : Except Error α}
    (h : Outcomes form (r.mapError Halt.error, t) x) :
    ∃ (r' : Except Error α) (t' : Session),
      x = (r'.mapError Halt.error, t') ∧ r.map form = r'.map form ∧ t.Alike t' := by
  cases r with
  | ok a =>
    cases h with
    | @ok _ a' _ t' ha ht => exact ⟨.ok a', t', rfl, congrArg Except.ok ha, ht⟩
  | error e =>
    cases h with
    | @halt _ t' _ ht => exact ⟨.error e, t', rfl, rfl, ht⟩

theorem mapError_injective {r r' : Except Error α}
    (h : r.mapError Halt.error = r'.mapError Halt.error) : r = r' := by
  cases r <;> cases r' <;> cases h <;> rfl

namespace Entry.Alike

/-- With every larger allowance, the second entry ends as the first has ended. -/
theorem follows {r : Except Error (Option Value)} (h : Entry.Alike entry entry')
    (hs : s.Alike s') (hrun : (entry.run n).on s = (r.mapError Halt.error, t)) (hlt : n < m) :
    ∃ (r' : Except Error (Option Value)) (t' : Session),
      (entry'.run m).on s' = (r'.mapError Halt.error, t') ∧
        r.map (Option.map Value.filled) = r'.map (Option.map Value.filled) ∧ t.Alike t' := by
  have houtcomes := (h.tandem hlt).runs hs
  rw [hrun] at houtcomes
  exact houtcomes.ended

theorem ends (h : Entry.Alike entry entry') (hs : s.Alike s') :
    (∃ r t, entry.Ends s r t) → ∃ r' t', entry'.Ends s' r' t' := by
  rintro ⟨r, t, n, hrun⟩
  obtain ⟨r', t', hrun', -⟩ := h.follows hs hrun (Nat.lt_succ_self n)
  exact ⟨r', t', n + 1, hrun'⟩

theorem ends_alike (h : Entry.Alike entry entry') (hs : s.Alike s') (hends : entry.Ends s r t)
    (hends' : entry'.Ends s' r' t') :
    r.map (Option.map Value.filled) = r'.map (Option.map Value.filled) ∧ t.Alike t' := by
  obtain ⟨n, hrun⟩ := hends
  obtain ⟨m, hrun'⟩ := hends'
  -- Both are followed by the second entry with an allowance that is larger than either.
  obtain ⟨r₁, t₁, h₁, hr₁, ht₁⟩ := h.follows hs hrun (show n < n + m + 1 by omega)
  obtain ⟨r₂, t₂, h₂, hr₂, ht₂⟩ :=
    (refl entry').follows (.refl s') hrun' (show m < n + m + 1 by omega)
  obtain ⟨hr, rfl⟩ := Prod.mk.inj (h₁.symm.trans h₂)
  obtain rfl := mapError_injective hr
  exact ⟨hr₁.trans hr₂.symm, ht₁.trans ht₂.symm⟩

theorem printsOn (h : Entry.Alike entry entry') (hs : s.Alike s') (n : Nat) :
    ((entry.run n).on s).2.PrintsOn ((entry'.run (n + 1)).on s').2 := by
  have houtcomes := (h.tandem (Nat.lt_succ_self n)).runs hs
  generalize (entry.run n).on s = x at houtcomes ⊢
  generalize (entry'.run (n + 1)).on s' = x' at houtcomes ⊢
  cases houtcomes with
  | ok _ ht => exact ht.printsOn
  | halt _ ht => exact ht.printsOn
  | exhausted hout => exact hout

end Entry.Alike

-- ---------------------------------------------------------------------------
-- Histories
-- ---------------------------------------------------------------------------

/-- What an entry has returned, if anything. -/
def answers : Except Error (Option Value) → List Value
  | .ok (some value) => [value]
  | _ => []

/-- Values of which nothing that can be asked tells the one list from the other: neither of a value
alone, nor of two values together. Texts are those with the arrays of the one and of the other
session. -/
structure SameAnswers (as as' : Arrays) (vs vs' : List Value) : Prop where
  texts : vs.map as.text? = vs'.map as'.text?
  isTruthy : vs.map Value.isTruthy = vs'.map Value.isTruthy
  typeName : vs.map Value.typeName = vs'.map Value.typeName
  arity? : vs.map Value.arity? = vs'.map Value.arity?
  isEqual : (vs.map fun v => vs.map v.isEqual) = vs'.map fun v => vs'.map v.isEqual

/-- Sessions between entries that have had the same sources but for initial values, with the values
that they have returned so far, latest first. Time goes on for both, and what was printed may be
taken away from both. -/
inductive TwinHistories : List Value → Session → List Value → Session → Prop
  | start (h : ∀ path, Option.Rel SuppliedSource (sources path) (sources' path)) :
    TwinHistories [] (.start sources refusal clock) [] (.start sources' refusal clock)
  | run (entry entry' : Entry) : TwinHistories vs s vs' s' → SuppliedEntry entry entry' →
    entry.Ends s r t → entry'.Ends s' r' t' →
    TwinHistories (answers r ++ vs) t (answers r' ++ vs') t'
  | told : TwinHistories vs s vs' s' →
    TwinHistories vs { s with output := output, clock := clock }
      vs' { s' with output := output, clock := clock }

theorem answers_filled {r r' : Except Error (Option Value)}
    (h : r.map (Option.map Value.filled) = r'.map (Option.map Value.filled)) :
    (answers r).map Value.filled = (answers r').map Value.filled := by
  obtain ⟨e, rfl, rfl⟩ | ⟨a, a', rfl, rfl, ha⟩ := both_of_except_eq h
  · rfl
  · obtain ⟨rfl, rfl⟩ | ⟨v, v', rfl, rfl, hv⟩ := both_of_map_eq ha
    · rfl
    · exact congrArg (fun v => [v]) hv

theorem map_eq_of_filled {f f' g : Value → β} (hf : ∀ v, g v.filled = f v)
    (hf' : ∀ v, g v.filled = f' v) {vs vs' : List Value}
    (h : vs.map Value.filled = vs'.map Value.filled) : vs.map f = vs'.map f' := by
  rw [← show g ∘ Value.filled = f from funext hf, ← show g ∘ Value.filled = f' from funext hf',
    ← List.map_map, ← List.map_map, h]

theorem sameAnswers {as as' : Arrays} (has : as.filled = as'.filled)
    (h : vs.map Value.filled = vs'.map Value.filled) : SameAnswers as as' vs vs' where
  texts := map_eq_of_filled as.text?_filled (fun v => by rw [has, as'.text?_filled]) h
  isTruthy := map_eq_of_filled Value.isTruthy_filled Value.isTruthy_filled h
  typeName := map_eq_of_filled Value.typeName_filled Value.typeName_filled h
  arity? := map_eq_of_filled Value.arity?_filled Value.arity?_filled h
  isEqual := by
    have table (us : List Value) : (us.map fun v => us.map v.isEqual) =
        (us.map Value.filled).map fun v => (us.map Value.filled).map v.isEqual := by
      simp [Function.comp_def]
    rw [table vs, h, ← table vs']

theorem start_alike (h : ∀ path, Option.Rel SuppliedSource (sources path) (sources' path)) :
    (Session.start sources refusal clock).Alike (.start sources' refusal clock) where
  filled := rfl
  sources path start := by
    have hpath := h path
    show Option.map _ (Option.map _ (sources path)) = Option.map _ (Option.map _ (sources' path))
    generalize sources path = x at hpath ⊢
    generalize sources' path = x' at hpath ⊢
    cases hpath with
    | none => rfl
    | some hsource => exact congrArg some (Prepared.program_alike hsource start)

/-- What twin histories come to is alike. -/
theorem TwinHistories.alike (h : TwinHistories vs s vs' s') :
    s.Alike s' ∧ vs.map Value.filled = vs'.map Value.filled := by
  induction h with
  | start hsources => exact ⟨start_alike hsources, rfl⟩
  | run entry entry' _ hentry hends hends' ih =>
    obtain ⟨hs, hvs⟩ := ih
    obtain ⟨hr, ht⟩ := hentry.alike.ends_alike hs hends hends'
    rw [List.map_append, List.map_append, answers_filled hr, hvs]
    exact ⟨ht, rfl⟩
  | told _ ih => exact ⟨ih.1.told _ _, ih.2⟩

/-- That variables without initial value hold something else than `nil` is not observed. Put
`= nil` into any declarations `var x;` of what is entered into a session and of its modules. Then,
whatever has been entered before, an entry ends if and only if it ended without. It fails with the
same error or succeeds as before; by then the same has been printed; and of the values returned so
far, nothing that can be asked has changed. An entry that never ends prints what it printed before,
too. -/
theorem unset_is_not_observed (h : TwinHistories vs s vs' s')
    (hentry : SuppliedEntry entry entry') :
    ((∃ r t, entry.Ends s r t) ↔ ∃ r t, entry'.Ends s' r t) ∧
    (∀ r t r' t', entry.Ends s r t → entry'.Ends s' r' t' →
      r.map Option.isSome = r'.map Option.isSome ∧ t.output = t'.output ∧
        SameAnswers t.arrays t'.arrays (answers r ++ vs) (answers r' ++ vs')) ∧
    ∀ n, ∃ m, ((entry.run n).on s).2.PrintsOn ((entry'.run m).on s').2 ∧
      ((entry'.run n).on s').2.PrintsOn ((entry.run m).on s).2 := by
  obtain ⟨hs, hvs⟩ := h.alike
  have halike := hentry.alike
  refine ⟨⟨halike.ends hs, halike.symm.ends hs.symm⟩, ?_, fun n => ?_⟩
  · intro r t r' t' hends hends'
    obtain ⟨hr, ht⟩ := halike.ends_alike hs hends hends'
    refine ⟨?_, ht.output, sameAnswers ht.arrays ?_⟩
    · obtain ⟨e, rfl, rfl⟩ | ⟨a, a', rfl, rfl, ha⟩ := both_of_except_eq hr
      · rfl
      · have hshown : a.isSome = a'.isSome := by simpa using congrArg Option.isSome ha
        exact congrArg Except.ok hshown
    · rw [List.map_append, List.map_append, answers_filled hr, hvs]
  · exact ⟨n + 1, halike.printsOn hs n, halike.symm.printsOn hs.symm n⟩

-- A module that exports a variable without initial value, and a unit that compares it with one of
-- its own.

def unsetExport (path : String) : Option String :=
  if path = "m" then some "export var c;" else none

def nilExport (path : String) : Option String :=
  if path = "m" then some "export var c=nil;" else none

def comparing : Prepared Line :=
  ⟨.statements [.importModule ⟨.kwImport, "import", 1⟩ ⟨.text "m", "\"m\"", 1⟩,
    .var ⟨.identifier, "x", 1⟩ none,
    .print (.binary ⟨.equalEqual, "==", 1⟩ (.var 0 ⟨.identifier, "c", 1⟩)
      (.var 1 ⟨.identifier, "x", 1⟩))], [], 2⟩

theorem suppliedSource_export : SuppliedSource "export var c;" "export var c=nil;" := by
  have hitems : Lexer.items (Text.Utf8.encode "export var c;") =
      [.ok ⟨.kwExport, "export", 1⟩, .ok ⟨.kwVar, "var", 1⟩, .ok ⟨.identifier, "c", 1⟩,
        .ok ⟨.semicolon, ";", 1⟩, .ok ⟨.endOfInput, "", 1⟩] := by decide +kernel
  have hitems' : Lexer.items (Text.Utf8.encode "export var c=nil;") =
      [.ok ⟨.kwExport, "export", 1⟩, .ok ⟨.kwVar, "var", 1⟩, .ok ⟨.identifier, "c", 1⟩,
        .ok ⟨.equal, "=", 1⟩, .ok ⟨.kwNil, "nil", 1⟩, .ok ⟨.semicolon, ";", 1⟩,
        .ok ⟨.endOfInput, "", 1⟩] := by decide +kernel
  rw [SuppliedSource, hitems, hitems']
  exact .keep _ (.supply ⟨_, rfl, rfl⟩ ⟨_, rfl, rfl⟩ ⟨_, rfl, rfl⟩ ⟨_, rfl, rfl⟩ ⟨_, rfl, rfl⟩
    (.refl _ _))

theorem suppliedSource_comparing :
    SuppliedSource "import\"m\";var x;print c==x;" "import\"m\";var x=nil;print c==x;" := by
  have hitems : Lexer.items (Text.Utf8.encode "import\"m\";var x;print c==x;") =
      [.ok ⟨.kwImport, "import", 1⟩, .ok ⟨.text "m", "\"m\"", 1⟩, .ok ⟨.semicolon, ";", 1⟩,
        .ok ⟨.kwVar, "var", 1⟩, .ok ⟨.identifier, "x", 1⟩, .ok ⟨.semicolon, ";", 1⟩,
        .ok ⟨.kwPrint, "print", 1⟩, .ok ⟨.identifier, "c", 1⟩, .ok ⟨.equalEqual, "==", 1⟩,
        .ok ⟨.identifier, "x", 1⟩, .ok ⟨.semicolon, ";", 1⟩, .ok ⟨.endOfInput, "", 1⟩] := by
    decide +kernel
  have hitems' : Lexer.items (Text.Utf8.encode "import\"m\";var x=nil;print c==x;") =
      [.ok ⟨.kwImport, "import", 1⟩, .ok ⟨.text "m", "\"m\"", 1⟩, .ok ⟨.semicolon, ";", 1⟩,
        .ok ⟨.kwVar, "var", 1⟩, .ok ⟨.identifier, "x", 1⟩, .ok ⟨.equal, "=", 1⟩,
        .ok ⟨.kwNil, "nil", 1⟩, .ok ⟨.semicolon, ";", 1⟩,
        .ok ⟨.kwPrint, "print", 1⟩, .ok ⟨.identifier, "c", 1⟩, .ok ⟨.equalEqual, "==", 1⟩,
        .ok ⟨.identifier, "x", 1⟩, .ok ⟨.semicolon, ";", 1⟩, .ok ⟨.endOfInput, "", 1⟩] := by
    decide +kernel
  rw [SuppliedSource, hitems, hitems']
  exact .keep _ (.keep _ (.keep _ (.supply ⟨_, rfl, rfl⟩ ⟨_, rfl, rfl⟩ ⟨_, rfl, rfl⟩
    ⟨_, rfl, rfl⟩ ⟨_, rfl, rfl⟩ (.refl _ _))))

theorem comparing_ends : ∃ t, (Entry.unit "import\"m\";var x;print c==x;").Ends
    (.start unsetExport none (.still 0)) (.ok none) t ∧ t.output = "true\n" := by
  have hp : (Entry.unit "import\"m\";var x;print c==x;").prepared 0 = .ok comparing := by
    decide +kernel
  have hends : ((worker 8 comparing.tree.task).on
        ((Session.start unsetExport none (.still 0)).commit comparing)).1.isOk = true ∧
      ((worker 8 comparing.tree.task).on
        ((Session.start unsetExport none (.still 0)).commit comparing)).2.output = "true\n" := by
    decide +kernel
  generalize hrun : (worker 8 comparing.tree.task).on
    ((Session.start unsetExport none (.still 0)).commit comparing) = run at hends
  obtain ⟨result, after⟩ := run
  obtain ⟨hok, houtput⟩ := hends
  cases result with
  | error halt => cases hok
  | ok =>
    refine ⟨after, ⟨8, ?_⟩, houtput⟩
    rw [Entry.on_run_ok (s := .start unsetExport none (.still 0)) _ _ hp, hrun]
    rfl

/-- With initial values supplied in the module and in the unit, the unit still ends, and the two
variables are still equal. -/
theorem unset_export_equals_nil :
    (∃ t, (Entry.unit "import\"m\";var x;print c==x;").Ends (.start unsetExport none (.still 0))
      (.ok none) t ∧ t.output = "true\n") ∧
    (∃ r t, (Entry.unit "import\"m\";var x=nil;print c==x;").Ends
      (.start nilExport none (.still 0)) r t) ∧
    ∀ r t, (Entry.unit "import\"m\";var x=nil;print c==x;").Ends
        (.start nilExport none (.still 0)) r t →
      .ok false = r.map Option.isSome ∧ t.output = "true\n" := by
  have hmodules : ∀ path, Option.Rel SuppliedSource (unsetExport path) (nilExport path) := by
    intro path
    unfold unsetExport nilExport
    split
    · exact .some suppliedSource_export
    · exact .none
  obtain ⟨t, hends, houtput⟩ := comparing_ends
  obtain ⟨hiff, hsame, -⟩ := unset_is_not_observed (.start hmodules)
    (.unit suppliedSource_comparing)
  refine ⟨⟨t, hends, houtput⟩, hiff.1 ⟨_, t, hends⟩, fun r' t' hends' => ?_⟩
  obtain ⟨hshown, hprinted, -⟩ := hsame _ _ _ _ hends hends'
  exact ⟨hshown, hprinted ▸ houtput⟩

end Treewalk
