import Treewalk.Proofs.Refusals

/-!
# Numbers of nodes in a session

The sources that come to a session are read one after the other, those that are entered and those of
the modules that these import. Each is read with numbers from where the one before left off, whether
that one could be read or not, so no two nodes of all the trees have the same number. The walks over
the trees note no more than one distance for a node, and what is noted stays.

Here account is kept of all that is read in a session.
-/

namespace Treewalk

-- ---------------------------------------------------------------------------
-- Sources that are read
-- ---------------------------------------------------------------------------

/-- Reads a source with new numbers for its nodes from `start` on. Gives the number that comes next,
also if there is a mistake. -/
def readLine (read : List Token → NodeId → Except Error α × NodeId) (line : α → Line)
    (source : String) (start : NodeId) : Except Error Line × NodeId :=
  match Lexer.scan (Text.Utf8.encode source) with
  | .ok tokens => (line <$> (read tokens start).1, (read tokens start).2)
  | .error e => (.error e, start)

/-- The identities of the nodes, if the source could be read. -/
def idsOf : Except Error Line → List NodeId
  | .ok l => l.ids
  | .error _ => []

section
variable {read : List Token → NodeId → Except Error α × NodeId} {line : α → Line}

theorem ReadsNew.fresh_ids (h : ReadsNew read line) (source : String) (start : NodeId) :
    Fresh (idsOf (readLine read line source start).1) start
      (readLine read line source start).2 := by
  unfold readLine
  cases Lexer.scan (Text.Utf8.encode source) with
  | error e => exact .nil (Nat.le_refl start)
  | ok tokens =>
    dsimp only
    cases hread : (read tokens start).1 with
    | error e => exact .nil (h.le tokens start)
    | ok tree => exact h.fresh (Prod.ext hread rfl)

theorem readLine_of_ofSource {walk : α → Except Error (List Scope.Note)} (line : α → Line)
    (h : Prepared.ofSource read walk source start = .ok p) :
    readLine read line source start = (.ok (line p.tree), p.nextId) := by
  simp only [Prepared.ofSource, bind_eq_ok, pure_eq_ok] at h
  obtain ⟨tokens, hscan, tree, htree, notes, -, rfl⟩ := h
  rw [readLine, hscan]
  dsimp only
  rw [htree]
  rfl

/-- Reading leaves nothing behind in the session but the numbers that it used up. -/
theorem Run.on_readUnscoped_snd (line : α → Line) (source : String) (s : Session) :
    ((readUnscoped read source).on s).2 =
      { s with nextId := (readLine read line source s.nextId).2 } := by
  unfold readLine
  cases hscan : Lexer.scan (Text.Utf8.encode source) with
  | ok tokens => rw [on_readUnscoped hscan rfl]
  | error e =>
    rw [readUnscoped, on_bind, hscan]
    rfl

theorem Run.on_submit_snd (source : String) (s : Session) :
    ((submit read line source).on s).2 =
      match readLine read line source s.nextId with
      | (.ok l, next) => ((noteLine l).on { s with nextId := next }).2
      | (.error _, next) => { s with nextId := next } := by
  unfold readLine
  cases hscan : Lexer.scan (Text.Utf8.encode source) with
  | error e =>
    rw [submit, on_bind, readUnscoped, on_bind, hscan]
    rfl
  | ok tokens =>
    rw [submit, on_bind, on_readUnscoped hscan rfl]
    dsimp only
    cases (read tokens s.nextId).1 with
    | error e => rfl
    | ok tree =>
      show ((noteLine (line tree) >>= _).on _).2 = ((noteLine (line tree)).on _).2
      rw [on_bind]
      rcases (noteLine (line tree)).on _ with ⟨_ | _, _⟩ <;> rfl

end

namespace Entry

def read : Entry → NodeId → Except Error Line × NodeId
  | .unit source => readLine Parser.program .statements source
  | .expression source => readLine Parser.loneExpression .expression source
  | .line source => readLine Parser.line id source

/-- Reads an entry in the session, and does no more with it. -/
def readOnly : Entry → Run Line
  | .unit source => .statements <$> Run.readUnscoped Parser.program source
  | .expression source => .expression <$> Run.readUnscoped Parser.loneExpression source
  | .line source => Run.readUnscoped Parser.line source

theorem fresh_ids (entry : Entry) (start : NodeId) :
    Fresh (idsOf (entry.read start).1) start (entry.read start).2 := by
  cases entry with
  | unit source => exact program_readsNew.fresh_ids source start
  | expression source => exact loneExpression_readsNew.fresh_ids source start
  | line source => exact line_readsNew.fresh_ids source start

/-- What is prepared and runs is what is read. -/
theorem read_of_prepared (entry : Entry) (h : entry.prepared start = .ok p) :
    entry.read start = (.ok p.tree, p.nextId) := by
  cases entry with
  | unit source =>
    obtain ⟨p, hp, rfl⟩ := map_eq_ok.1 h
    exact readLine_of_ofSource .statements hp
  | expression source =>
    obtain ⟨p, hp, rfl⟩ := map_eq_ok.1 h
    exact readLine_of_ofSource .expression hp
  | line source => exact readLine_of_ofSource id h

theorem on_readOnly_snd (entry : Entry) (s : Session) :
    (entry.readOnly.on s).2 = { s with nextId := (entry.read s.nextId).2 } := by
  cases entry with
  | unit source =>
    rw [readOnly, Run.on_map]
    exact Run.on_readUnscoped_snd .statements source s
  | expression source =>
    rw [readOnly, Run.on_map]
    exact Run.on_readUnscoped_snd .expression source s
  | line source =>
    rw [readOnly]
    exact Run.on_readUnscoped_snd id source s

theorem on_submit_snd (entry : Entry) (s : Session) :
    (entry.submit.on s).2 =
      match entry.read s.nextId with
      | (.ok l, next) => ((Run.noteLine l).on { s with nextId := next }).2
      | (.error _, next) => { s with nextId := next } := by
  cases entry with
  | unit source =>
    rw [submit, Run.on_map]
    exact Run.on_submit_snd source s
  | expression source =>
    rw [submit, Run.on_map]
    exact Run.on_submit_snd source s
  | line source => exact Run.on_submit_snd source s

end Entry

-- ---------------------------------------------------------------------------
-- The account
-- ---------------------------------------------------------------------------

/-- The walk over a tree notes these distances, in this order, and no more for a node than there are
of it. If it meets a mistake, these are the ones before. -/
structure Walk (l : Line) (notes : List Scope.Note) : Prop where
  nodes : (notes.map Prod.fst).Subperm l.ids
  accepted : Prepared.walkLine l = .ok notes' → notes' = notes
  leaves : ∀ s, ((Run.noteLine l).on s).2 = s.noted notes

theorem exists_walk (l : Line) : ∃ notes, Walk l notes := by
  obtain ⟨notes, hnodes, h⟩ := noteLine_writes l
  refine ⟨notes, hnodes, fun haccepted => ?_, fun s => ?_⟩
  · rw [haccepted] at h
    exact h.1
  · cases hwalk : Prepared.walkLine l with
    | ok own =>
      rw [hwalk] at h
      rw [h.2]
    | error e =>
      rw [hwalk] at h
      rw [h]

/-- A source that was read in a session. -/
structure Reading where
  entry : Entry
  /-- The number with which counting began. -/
  start : NodeId
  /-- The path of the module, if the source was imported. -/
  path : Option String
  /-- The distances that the walk over it noted, if there was one. -/
  notes : List Scope.Note

namespace Reading

/-- The tree, or why there is none. -/
def result (r : Reading) : Except Error Line :=
  (r.entry.read r.start).1

def next (r : Reading) : NodeId :=
  (r.entry.read r.start).2

def ids (r : Reading) : List NodeId :=
  idsOf r.result

/-- The path of the module that was started then: the source was imported and passed all checks. -/
def started? (r : Reading) : Option String :=
  if (r.entry.prepared r.start).isOk then r.path else none

/-- The entry, if the source was entered. -/
def entered? (r : Reading) : Option Entry :=
  if r.path.isNone then some r.entry else none

/-- The notes are those of the walk over the tree, if there was one. -/
def Walked (r : Reading) : Prop :=
  r.notes = [] ∨ ∃ l, r.result = .ok l ∧ Walk l r.notes

/-- The source is that of a module. -/
def OfModule (sources : String → Option String) (r : Reading) : Prop :=
  ∃ path source, r.path = some path ∧ sources path = some source ∧ r.entry = .unit source

theorem started?_entered (entry : Entry) (start : NodeId) (notes : List Scope.Note) :
    (Reading.mk entry start none notes).started? = none :=
  ite_self none

theorem fresh (r : Reading) : Fresh r.ids r.start r.next :=
  r.entry.fresh_ids r.start

theorem Walked.nodes {r : Reading} (h : r.Walked) : (r.notes.map Prod.fst).Subperm r.ids := by
  obtain h | ⟨l, hresult, hwalk⟩ := h
  · rw [h]
    exact List.nil_subperm
  · rw [ids, hresult]
    exact hwalk.nodes

end Reading

/-- Each source was read from the number on that came next behind the one before. -/
def Consecutive : NodeId → List Reading → NodeId → Prop
  | low, [], high => low = high
  | low, r :: rest, high => r.start = low ∧ Consecutive r.next rest high

theorem Consecutive.concat (h : Consecutive low readings r.start) :
    Consecutive low (readings ++ [r]) r.next := by
  induction readings generalizing low with
  | nil => exact ⟨h.symm, rfl⟩
  | cons first rest ih => exact ⟨h.1, ih h.2⟩

theorem Consecutive.fresh (h : Consecutive low readings high) :
    Fresh (readings.flatMap Reading.ids) low high := by
  induction readings generalizing low with
  | nil => exact .nil (Nat.le_of_eq h)
  | cons r rest ih =>
    obtain ⟨rfl, h⟩ := h
    exact r.fresh.append (ih h)

theorem notes_subperm_ids {readings : List Reading} (h : ∀ r ∈ readings, r.Walked) :
    ((readings.flatMap Reading.notes).map Prod.fst).Subperm (readings.flatMap Reading.ids) := by
  induction readings with
  | nil => exact .refl []
  | cons r rest ih =>
    rw [List.flatMap_cons, List.flatMap_cons, List.map_append]
    have hr := h r (List.mem_cons_self ..)
    exact hr.nodes.append (ih fun r' hr' => h r' (List.mem_cons_of_mem _ hr'))

/-- The session has read these sources, in this order: they used up its numbers, it knows the
distances that their walks noted, and it has started those that are modules and were accepted. -/
structure Session.HasRead (s : Session) (readings : List Reading) : Prop where
  numbered : Consecutive 0 readings s.nextId
  walked : ∀ r ∈ readings, r.Walked
  distances : s.distances = (readings.flatMap Reading.notes).foldl
    (fun known (node, distance) => known.insert node distance) ∅
  started : s.started = (readings.filterMap Reading.started?).reverse

namespace Session.HasRead

variable {s s' : Session} {readings : List Reading}

theorem nothing (sources : String → Option String) (refusal : Option String) (clock : Clock) :
    (Session.start sources refusal clock).HasRead [] :=
  ⟨rfl, fun _ h => (nomatch h), rfl, rfl⟩

/-- The account depends on nothing else. -/
theorem congr (h : s.HasRead readings) (hnext : s'.nextId = s.nextId)
    (hdistances : s'.distances = s.distances) (hstarted : s'.started = s.started) :
    s'.HasRead readings :=
  ⟨hnext ▸ h.numbered, h.walked, hdistances.trans h.distances, hstarted.trans h.started⟩

theorem concat (h : s.HasRead readings) {r : Reading} (hstart : r.start = s.nextId)
    (hwalked : r.Walked) (hnext : s'.nextId = r.next)
    (hdistances : s'.distances = (s.noted r.notes).distances)
    (hstarted : s'.started = r.started?.toList ++ s.started) :
    s'.HasRead (readings ++ [r]) where
  numbered := by
    rw [hnext]
    exact Consecutive.concat (hstart ▸ h.numbered)
  walked r' hr' := by
    obtain hr' | hr' := List.mem_append.1 hr'
    · exact h.walked r' hr'
    · obtain rfl := List.mem_singleton.1 hr'
      exact hwalked
  distances := by
    rw [hdistances, Session.noted, h.distances, List.flatMap_append, List.flatMap_singleton,
      List.foldl_append]
  started := by
    rw [hstarted, h.started, List.filterMap_append, List.reverse_append]
    cases hr : r.started? <;> simp [hr]

/-- No two nodes have the same number. -/
theorem fresh (h : s.HasRead readings) : Fresh (readings.flatMap Reading.ids) 0 s.nextId :=
  h.numbered.fresh

theorem notes_nodup (h : s.HasRead readings) :
    ((readings.flatMap Reading.notes).map Prod.fst).Nodup := by
  obtain ⟨nodes, hperm, hsub⟩ := notes_subperm_ids h.walked
  exact hperm.nodup_iff.1 (hsub.nodup h.fresh.nodup)

/-- What was noted is known, and nothing else. -/
theorem distance_iff (h : s.HasRead readings) (node : NodeId) (d : Nat) :
    s.distances[node]? = some d ↔ (node, d) ∈ readings.flatMap Reading.notes := by
  rw [h.distances]
  refine ⟨fun hd => ?_, fun hmem => foldl_insert_of_mem h.notes_nodup hmem⟩
  by_cases hnode : node ∈ (readings.flatMap Reading.notes).map Prod.fst
  · obtain ⟨⟨_, d'⟩, hmem, rfl⟩ := List.mem_map.1 hnode
    rw [foldl_insert_of_mem h.notes_nodup hmem] at hd
    cases hd
    exact hmem
  · rw [foldl_insert_of_not_mem hnode] at hd
    cases hd

end Session.HasRead

-- ---------------------------------------------------------------------------
-- Sources that are submitted
-- ---------------------------------------------------------------------------

/-- A source that is submitted is read, and the tree, if there is one, is walked over. -/
theorem Entry.exists_reading (entry : Entry) (s : Session) : ∃ notes, ∀ path,
    Reading.Walked ⟨entry, s.nextId, path, notes⟩ ∧
    (entry.submit.on s).2 = { s with nextId := (entry.read s.nextId).2 }.noted notes := by
  rcases hread : entry.read s.nextId with ⟨e | l, next⟩
  · refine ⟨[], fun path => ⟨.inl rfl, ?_⟩⟩
    rw [entry.on_submit_snd, hread]
    rfl
  · obtain ⟨notes, hwalk⟩ := exists_walk l
    refine ⟨notes, fun path => ⟨.inr ⟨l, ?_, hwalk⟩, ?_⟩⟩
    · rw [Reading.result, hread]
    · rw [entry.on_submit_snd, hread]
      exact hwalk.leaves _

/-- The session has read these sources, and behind them only those of modules. -/
def Session.HasImported (s : Session) (sources : String → Option String)
    (readings : List Reading) : Prop :=
  s.sources = sources ∧
    ∃ modules, (∀ r ∈ modules, r.OfModule sources) ∧ s.HasRead (readings ++ modules)

namespace Session.HasImported

variable {s s' : Session} {sources : String → Option String} {readings : List Reading}

theorem concat (h : s.HasImported sources readings) (hsource : s.sources path = some source)
    {notes : List Scope.Note} {r : Reading} (hr : r = ⟨.unit source, s.nextId, some path, notes⟩)
    (hwalked : r.Walked) (hsources : s'.sources = s.sources) (hnext : s'.nextId = r.next)
    (hdistances : s'.distances = (s.noted notes).distances)
    (hstarted : s'.started = r.started?.toList ++ s.started) :
    s'.HasImported sources readings := by
  obtain ⟨hknown, modules, hmodules, hread⟩ := h
  subst hr
  refine ⟨hsources.trans hknown, modules ++ [⟨.unit source, s.nextId, some path, notes⟩],
    fun r hr => ?_, ?_⟩
  · obtain hr | hr := List.mem_append.1 hr
    · exact hmodules r hr
    · obtain rfl := List.mem_singleton.1 hr
      exact ⟨path, source, rfl, hknown ▸ hsource, rfl⟩
  · rw [← List.append_assoc]
    exact hread.concat rfl hwalked hnext hdistances hstarted

/-- A module that is refused where it is prepared in the session has been read there. -/
theorem refused (h : s.HasImported sources readings) (hsource : s.sources path = some source)
    (hp : Prepared.program source s.nextId = .error e) :
    ((Run.submit Parser.program .statements source).on s).2.HasImported sources readings := by
  obtain ⟨notes, hreading⟩ := (Entry.unit source).exists_reading s
  obtain ⟨hwalked, hon⟩ := hreading (some path)
  rw [Entry.submit, Run.on_map] at hon
  have hrefused : (Reading.mk (.unit source) s.nextId (some path) notes).started? = none := by
    simp [Reading.started?, Entry.prepared, hp, Except.isOk, Except.toBool]
  refine h.concat hsource rfl hwalked ?_ ?_ ?_ ?_
  all_goals rw [show ((Run.submit Parser.program .statements source).on s).2 = _ from hon]
  · rfl
  · rfl
  · rfl
  · rw [hrefused]
    rfl

theorem load (h : s.HasImported sources readings) (hsource : s.sources path = some source)
    (hp : Prepared.program source s.nextId = .ok p) :
    (s.load path p).HasImported sources readings := by
  obtain ⟨notes, hreading⟩ := (Entry.unit source).exists_reading s
  obtain ⟨hwalked, hon⟩ := hreading (some path)
  have hsubmits := submits_program source s
  rw [hp] at hsubmits
  cases hsubmits with
  | ok hm =>
    rw [Entry.submit, Run.on_map, hm] at hon
    replace hon : s.commit p = _ := hon
    have hstarted :
        (Reading.mk (.unit source) s.nextId (some path) notes).started? = some path := by
      simp [Reading.started?, Entry.prepared, hp, Except.isOk, Except.toBool]
    refine h.concat hsource rfl hwalked rfl ?_ ?_ ?_
    · exact congrArg Session.nextId hon
    · show (s.commit p).distances = _
      rw [hon]
      rfl
    · rw [hstarted]
      rfl

theorem congr (h : s.HasImported sources readings) (hsources : s'.sources = s.sources)
    (hnext : s'.nextId = s.nextId) (hdistances : s'.distances = s.distances)
    (hstarted : s'.started = s.started) : s'.HasImported sources readings := by
  obtain ⟨hknown, modules, hmodules, hread⟩ := h
  exact ⟨hsources.trans hknown, modules, hmodules, hread.congr hnext hdistances hstarted⟩

theorem kept (sources : String → Option String) (readings : List Reading) :
    Kept fun s => s.HasImported sources readings where
  change h hs := by cases h <;> exact hs.congr rfl rfl rfl rfl
  enter hs := hs.congr rfl rfl rfl rfl
  load hs _ hsource hp := hs.load hsource hp
  back _ _ hs' := hs'.congr rfl rfl rfl rfl

end Session.HasImported

-- ---------------------------------------------------------------------------
-- Uses of a session
-- ---------------------------------------------------------------------------

/-- Where sources are prepared. -/
inductive Way where
  /-- Apart from the session, which takes in what was accepted. -/
  | apart
  /-- In the session itself, where sources that are refused use up numbers too. -/
  | inPlace

namespace Way

def submit : Way → Entry → Run Line
  | .apart, entry => Run.prepare entry.prepared
  | .inPlace, entry => entry.submit

def worker : Way → Nat → Worker
  | .apart => Treewalk.worker
  | .inPlace => workerInPlace

def run : Way → Nat → Entry → Run (Option Value)
  | .apart => Entry.run
  | .inPlace => Entry.runInPlace

/-- An entry is submitted, and then runs unless it was refused. -/
theorem on_run (way : Way) (fuel : Nat) (entry : Entry) (s : Session) :
    ((way.run fuel entry).on s).2 = ((way.submit entry).on s).2 ∨
      ∃ t, ((way.run fuel entry).on s).2 =
        ((way.worker fuel t).on ((way.submit entry).on s).2).2 := by
  cases way with
  | apart =>
    cases hp : entry.prepared s.nextId with
    | error e =>
      left
      simp only [run, submit, Run.on_prepare, hp, entry.on_run_error fuel hp]
    | ok p =>
      right
      refine ⟨p.tree.task, ?_⟩
      simp only [run, submit, worker, Run.on_prepare, hp, entry.on_run_ok fuel hp]
  | inPlace =>
    show ((entry.submit >>= _).on s).2 = _ ∨ ∃ t, ((entry.submit >>= _).on s).2 = _
    rw [Run.on_bind]
    rcases hsubmit : entry.submit.on s with ⟨h | l, s'⟩
    · left
      simp only [submit, hsubmit]
    · right
      refine ⟨l.task, ?_⟩
      simp only [submit, worker, hsubmit, Run.on_map]

end Way

/-- What a session can be asked to do, between which time goes on. -/
inductive Use where
  | run (fuel : Nat) (entry : Entry)
  /-- A source is read and walked over, and does not run. -/
  | submit (entry : Entry)
  /-- A source is read, and no more. -/
  | read (entry : Entry)
  /-- A task that is no source, such as the call of a value. -/
  | carryOut (fuel : Nat) (t : Task)
  | told (clock : Clock)

/-- The source that is entered. -/
def Use.entry? : Use → Option Entry
  | .run _ entry | .submit entry | .read entry => some entry
  | .carryOut _ _ | .told _ => none

namespace Way

def use (way : Way) (s : Session) : Use → Session
  | .run fuel entry => ((way.run fuel entry).on s).2
  | .submit entry => ((way.submit entry).on s).2
  | .read entry => (entry.readOnly.on s).2
  | .carryOut fuel t => ((way.worker fuel t).on s).2
  | .told clock => { s with clock := clock }

/-- The session behind these uses, one after the other. -/
def uses (way : Way) (s : Session) (history : List Use) : Session :=
  history.foldl way.use s

theorem imported (way : Way) {s : Session} (h : s.HasImported sources readings) (fuel : Nat)
    (t : Task) : ((way.worker fuel t).on s).2.HasImported sources readings := by
  have hkept := Session.HasImported.kept sources readings
  cases way with
  | apart => exact (hkept.after fuel t h).1
  | inPlace => exact hkept.afterInPlace (fun hs hsource hp => hs.refused hsource hp) fuel t h

/-- The account of what was entered: all of it, where sources are prepared in the session, else
what was not refused. All the rest is modules. -/
structure Accounts (way : Way) (sources : String → Option String) (entries : List Entry)
    (readings : List Reading) : Prop where
  entered : (readings.filterMap Reading.entered?).Sublist entries
  all : way = .inPlace → readings.filterMap Reading.entered? = entries
  imported : ∀ r ∈ readings, r.path = none ∨ r.OfModule sources

namespace Accounts

variable {way : Way} {sources : String → Option String} {entries : List Entry}
  {readings : List Reading}

theorem nil : way.Accounts sources [] [] :=
  ⟨.slnil, fun _ => rfl, fun _ h => (nomatch h)⟩

theorem one (entry : Entry) (start : NodeId) (notes : List Scope.Note) :
    way.Accounts sources [entry] [⟨entry, start, none, notes⟩] :=
  ⟨.refl _, fun _ => rfl, fun _ h => .inl (List.mem_singleton.1 h ▸ rfl)⟩

theorem refused (entry : Entry) : Way.apart.Accounts sources [entry] [] :=
  ⟨List.nil_sublist _, fun h => (nomatch h), fun _ h => (nomatch h)⟩

theorem modules (h : ∀ r ∈ readings, r.OfModule sources) : way.Accounts sources [] readings := by
  have hnone : readings.filterMap Reading.entered? = [] := by
    refine List.filterMap_eq_nil_iff.2 fun r hr => ?_
    obtain ⟨path, source, hpath, -, -⟩ := h r hr
    rw [Reading.entered?, hpath]
    rfl
  exact ⟨hnone ▸ .slnil, fun _ => hnone, fun r hr => .inr (h r hr)⟩

theorem append (h : way.Accounts sources entries readings)
    (h' : way.Accounts sources entries' readings') :
    way.Accounts sources (entries ++ entries') (readings ++ readings') where
  entered := by
    rw [List.filterMap_append]
    exact h.entered.append h'.entered
  all hway := by rw [List.filterMap_append, h.all hway, h'.all hway]
  imported r hr := (List.mem_append.1 hr).elim (h.imported r) (h'.imported r)

end Accounts

variable {s : Session} {readings : List Reading}

/-- The session has read more, which accounts for these entries. -/
def Further (way : Way) (s : Session) (entries : List Entry) (readings : List Reading)
    (s' : Session) : Prop :=
  s'.sources = s.sources ∧
    ∃ more, way.Accounts s.sources entries more ∧ s'.HasRead (readings ++ more)

theorem further_submit (way : Way) (h : s.HasRead readings) (entry : Entry) :
    way.Further s [entry] readings ((way.submit entry).on s).2 := by
  obtain ⟨notes, hreading⟩ := entry.exists_reading s
  obtain ⟨hwalked, hon⟩ := hreading none
  have hread {s' : Session} (hs' : s' = (entry.submit.on s).2) :
      way.Further s [entry] readings s' := by
    refine ⟨by rw [hs', hon]; rfl, [⟨entry, s.nextId, none, notes⟩], .one entry s.nextId notes, ?_⟩
    rw [hs', hon]
    refine h.concat rfl hwalked rfl rfl ?_
    rw [Reading.started?_entered]
    rfl
  cases way with
  | inPlace => exact hread rfl
  | apart =>
    have hsubmits := entry.submits s
    rw [submit, Run.on_prepare]
    cases hp : entry.prepared s.nextId with
    | error e => exact ⟨rfl, [], .refused entry, (List.append_nil readings).symm ▸ h⟩
    | ok p =>
      rw [hp] at hsubmits
      cases hsubmits with
      | ok hm => exact hread (congrArg Prod.snd hm).symm

theorem further_worker (way : Way) (h : way.Further s entries readings s') (fuel : Nat) (t : Task) :
    way.Further s entries readings ((way.worker fuel t).on s').2 := by
  obtain ⟨hsources, more, haccounts, hread⟩ := h
  have himported : s'.HasImported s.sources (readings ++ more) :=
    ⟨hsources, [], fun _ h => (nomatch h), (List.append_nil _).symm ▸ hread⟩
  obtain ⟨hsources', modules, hmodules, hread'⟩ := way.imported himported fuel t
  refine ⟨hsources', more ++ modules, ?_, List.append_assoc .. ▸ hread'⟩
  have happend := haccounts.append (.modules hmodules)
  rwa [List.append_nil] at happend

theorem further_use (way : Way) (h : s.HasRead readings) (u : Use) :
    way.Further s u.entry?.toList readings (way.use s u) := by
  have hnothing : way.Further s [] readings s :=
    ⟨rfl, [], .nil, (List.append_nil readings).symm ▸ h⟩
  cases u with
  | run fuel entry =>
    have hsubmit := way.further_submit h entry
    obtain hon | ⟨t, hon⟩ := way.on_run fuel entry s
    · rw [use, hon]
      exact hsubmit
    · rw [use, hon]
      exact way.further_worker hsubmit fuel t
  | submit entry => exact way.further_submit h entry
  | read entry =>
    rw [use, entry.on_readOnly_snd]
    refine ⟨rfl, [⟨entry, s.nextId, none, []⟩], .one entry s.nextId [], ?_⟩
    refine h.concat rfl (.inl rfl) rfl rfl ?_
    rw [Reading.started?_entered]
    rfl
  | carryOut fuel t => exact way.further_worker hnothing fuel t
  | told clock =>
    obtain ⟨-, more, haccounts, hread⟩ := hnothing
    exact ⟨rfl, more, haccounts, hread.congr rfl rfl rfl⟩

theorem further_uses (way : Way) (h : s.HasRead readings) (history : List Use) :
    way.Further s (history.filterMap Use.entry?) readings (way.uses s history) := by
  induction history generalizing s readings with
  | nil => exact ⟨rfl, [], .nil, (List.append_nil readings).symm ▸ h⟩
  | cons u history ih =>
    obtain ⟨hsources, own, hown, hread⟩ := way.further_use h u
    obtain ⟨hsources', more, hmore, hread'⟩ := ih hread
    refine ⟨hsources'.trans hsources, own ++ more, ?_, List.append_assoc .. ▸ hread'⟩
    have hentries : (u :: history).filterMap Use.entry? =
        u.entry?.toList ++ history.filterMap Use.entry? := by
      rw [List.filterMap_cons]
      cases u.entry? <;> rfl
    exact hentries ▸ hown.append (hsources ▸ hmore)

end Way

/-- Let a session be used in any way, with sources prepared apart or in the session, marks and all.
It reads the sources that are entered, and between them those of the modules that are imported, each
with numbers from where the one before left off, whether that one was read, refused or given up
midway. So all nodes that refer to variables, in all trees that it reads, have different numbers.
The walks note at most one distance for a node, and none for a node that is not there; the session
knows just what they noted, and knows it ever after. The trees that run are those that were read. -/
theorem nodes_are_numbered_apart (way : Way) (sources : String → Option String)
    (refusal : Option String) (clock : Clock) (history : List Use) :
    ∃ readings : List Reading,
      way.Accounts sources (history.filterMap Use.entry?) readings ∧
      (way.uses (.start sources refusal clock) history).HasRead readings ∧
      (readings.flatMap Reading.ids).Nodup ∧
      (((readings.flatMap Reading.notes).map Prod.fst).Nodup ∧
        ((readings.flatMap Reading.notes).map Prod.fst) ⊆ readings.flatMap Reading.ids) ∧
      (∀ (node : NodeId) (d : Nat),
        (way.uses (.start sources refusal clock) history).distances[node]? = some d ↔
          (node, d) ∈ readings.flatMap Reading.notes) ∧
      (∀ (later : List Use) (node : NodeId) (d : Nat),
        (way.uses (.start sources refusal clock) history).distances[node]? = some d →
          (way.uses (.start sources refusal clock) (history ++ later)).distances[node]? = some d) ∧
      ∀ entry start p, Entry.prepared entry start = .ok p →
        entry.read start = (.ok p.tree, p.nextId) := by
  obtain ⟨-, readings, haccounts, hread⟩ :=
    way.further_uses (.nothing sources refusal clock) history
  rw [List.nil_append] at hread
  refine ⟨readings, haccounts, hread, hread.fresh.nodup, ⟨hread.notes_nodup, ?_⟩,
    hread.distance_iff, fun later node d hd => ?_, fun entry start p => entry.read_of_prepared⟩
  · exact (notes_subperm_ids hread.walked).subset
  · obtain ⟨-, more, -, hmore⟩ := way.further_uses hread later
    rw [Way.uses, List.foldl_append]
    refine (hmore.distance_iff node d).2 ?_
    rw [List.flatMap_append]
    exact List.mem_append_left _ ((hread.distance_iff node d).1 hd)

-- The target is read as a variable first, and the number of that node, 7, is given up. Where the
-- source turns out to be no expression, all its numbers are.
example : (idsOf ((Entry.expression "a = b + c").read 7).1,
    ((Entry.expression "a = b + c").read 7).2) = ([8, 9, 10], 11) := by decide +kernel

example : (idsOf ((Entry.expression "a = b + c )").read 7).1,
    ((Entry.expression "a = b + c )").read 7).2) = ([], 11) := by decide +kernel

end Treewalk
