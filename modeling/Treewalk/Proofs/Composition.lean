import Treewalk.Proofs.Noting
import Treewalk.Proofs.Sameness

/-!
# Units compose

Statements that stand in one unit may as well be entered as two units, the second after the first
has ended. The walk carries nothing from one statement at the top level to the next. That the
distances of the second part are noted before the first part runs, or only behind it, makes no
difference: nothing that runs by then holds a node of the second part.
-/

namespace Treewalk

open Renamings (plain)

-- ---------------------------------------------------------------------------
-- The walk
-- ---------------------------------------------------------------------------

namespace Scope

theorem length_enter (name : String) (ready : Bool) (scopes : Scopes) :
    (enter name ready scopes).length = scopes.length := by
  cases scopes <;> rfl

/-- As many scopes are open behind a statement as before it. -/
theorem walkStmt_length : ∀ (s : Stmt) {around : Surroundings} {scopes after : Scopes}
    {notes : List Note}, walkStmt around scopes s = .ok (after, notes) →
    after.length = scopes.length
  | .expression _, _, _, _, _, h | .print _, _, _, _, _, h => by
    simp only [walkStmt, bind_eq_ok, pure_eq_ok] at h
    obtain ⟨_, _, h⟩ := h
    rw [(Prod.mk.inj h).1]
  | .var _ _, _, _, _, _, h | .function _, _, _, _, _, h => by
    simp only [walkStmt, bind_eq_ok, pure_eq_ok] at h
    obtain ⟨_, _, h⟩ := h
    simp only [← (Prod.mk.inj h).1, length_enter]
  | .block _, _, _, _, _, h => by
    simp only [walkStmt, bind_eq_ok, pure_eq_ok] at h
    obtain ⟨_, _, h⟩ := h
    rw [(Prod.mk.inj h).1]
  | .ifElse _ yes none, _, _, _, _, h => by
    simp only [walkStmt, bind_eq_ok, pure_eq_ok] at h
    obtain ⟨_, _, _, hyes, h⟩ := h
    rw [← (Prod.mk.inj h).1, walkStmt_length yes hyes]
  | .ifElse _ yes (some no), _, _, _, _, h => by
    simp only [walkStmt, bind_eq_ok, pure_eq_ok] at h
    obtain ⟨_, _, _, hyes, _, hno, h⟩ := h
    rw [← (Prod.mk.inj h).1, walkStmt_length no hno, walkStmt_length yes hyes]
  | .whileLoop _ body, _, _, _, _, h => by
    simp only [walkStmt, bind_eq_ok, pure_eq_ok] at h
    obtain ⟨_, _, _, hbody, h⟩ := h
    rw [← (Prod.mk.inj h).1, walkStmt_length body hbody]
  | .breakLoop _, _, _, _, _, h => by
    simp only [walkStmt] at h
    split at h <;> cases h
    rfl
  | .classDecl _ _ _, _, _, _, _, h => by
    simp only [walkStmt, bind_eq_ok, pure_eq_ok] at h
    obtain ⟨_, _, _, _, h⟩ := h
    rw [← (Prod.mk.inj h).1, length_enter]
  | .returnValue _ _, _, _, _, _, h => by
    simp only [walkStmt] at h
    split at h
    · simp only [bind_eq_ok, pure_eq_ok] at h
      obtain ⟨_, _, h⟩ := h
      rw [(Prod.mk.inj h).1]
    · cases h
  | .importModule _ _, _, _, _, _, h => by
    cases h
    rfl
  | .exportDecl _ declaration, _, _, _, _, h => walkStmt_length declaration h

theorem walkStmts_length {body : List Stmt} {around : Surroundings} {scopes after : Scopes}
    {notes : List Note} (h : walkStmts around scopes body = .ok (after, notes)) :
    after.length = scopes.length := by
  induction body generalizing scopes notes with
  | nil =>
    cases h
    rfl
  | cons s rest ih =>
    simp only [walkStmts, bind_eq_ok, pure_eq_ok] at h
    obtain ⟨⟨behind, _⟩, hs, ⟨last, _⟩, hrest, h⟩ := h
    obtain rfl := (Prod.mk.inj h).1
    rw [ih hrest, walkStmt_length s hs]

theorem walkStmts_append_eq_ok {body rest : List Stmt} :
    walkStmts around scopes (body ++ rest) = .ok (last, notes) ↔
      ∃ after own more, walkStmts around scopes body = .ok (after, own) ∧
        walkStmts around after rest = .ok (last, more) ∧ notes = own ++ more := by
  induction body generalizing scopes last notes with
  | nil => simp [walkStmts, pure_eq_ok]
  | cons s body ih =>
    simp only [List.cons_append, walkStmts, bind_eq_ok, pure_eq_ok, Prod.exists, Prod.mk.injEq, ih]
    constructor
    · rintro ⟨behind, first, hs, _, _, ⟨after, own, more, hbody, hrest, rfl⟩, rfl, rfl⟩
      exact ⟨after, first ++ own, more, ⟨behind, first, hs, after, own, hbody, rfl, rfl⟩, hrest,
        (List.append_assoc ..).symm⟩
    · rintro ⟨_, _, more, ⟨behind, first, hs, after, own, hbody, rfl, rfl⟩, hrest, rfl⟩
      exact ⟨behind, first, hs, _, _, ⟨after, own, more, hbody, hrest, rfl⟩, rfl,
        (List.append_assoc ..).symm⟩

/-- At the top level no scope is open, before each statement and behind it. -/
theorem program_append_eq_ok {body rest : List Stmt} :
    program (body ++ rest) = .ok notes ↔
      ∃ own more, program body = .ok own ∧ program rest = .ok more ∧ notes = own ++ more := by
  simp only [program, bind_eq_ok, pure_eq_ok, Prod.exists, walkStmts_append_eq_ok]
  constructor
  · rintro ⟨last, _, ⟨after, own, more, hbody, hrest, rfl⟩, rfl⟩
    obtain rfl : after = [] := List.eq_nil_of_length_eq_zero (walkStmts_length hbody)
    exact ⟨own, more, ⟨_, own, hbody, rfl⟩, ⟨last, more, hrest, rfl⟩, rfl⟩
  · rintro ⟨own, more, ⟨after, _, hbody, rfl⟩, ⟨last, _, hrest, rfl⟩, rfl⟩
    obtain rfl : after = [] := List.eq_nil_of_length_eq_zero (walkStmts_length hbody)
    exact ⟨last, _, ⟨_, _, _, hbody, hrest, rfl⟩, rfl⟩

end Scope

-- ---------------------------------------------------------------------------
-- Units that are trees
-- ---------------------------------------------------------------------------

/-- The session when the nodes before `next` have been read. -/
def Session.readTo (s : Session) (next : NodeId) : Session :=
  { s with nextId := next }

namespace Run

/-- Analyses the scopes of a unit that has been read, and runs it. -/
def statements (fuel : Nat) (body : List Stmt) : Run Unit := do
  let notes ← ofExcept (Scope.program body)
  let body ← commit ⟨body, notes, (← get).nextId⟩
  executeUnit fuel body

/-- The second unit runs if the first does not stop. -/
def unitsInTurn (fuel : Nat) (body rest : List Stmt) : Run Unit := do
  statements fuel body
  statements fuel rest

theorem on_statements (h : Scope.program body = .ok notes) (fuel : Nat) (s : Session) :
    (statements fuel body).on s = (worker fuel (.interpret body)).on (s.noted notes) := by
  rw [statements, h]
  rfl

/-- A source runs as the tree that it is read as. -/
theorem on_unit (h : Prepared.program source s.nextId = .ok p) (fuel : Nat) :
    (unit fuel source).on s = (statements fuel p.tree).on (s.readTo p.nextId) := by
  obtain ⟨_, _, _, hwalk⟩ := ofSource_eq_ok h
  rw [on_statements hwalk, unit, on_bind, on_prepare, h]
  rfl

theorem worker_append (fuel : Nat) (body rest : List Stmt) :
    worker fuel (.interpret (body ++ rest)) =
      worker fuel (.interpret body) >>= fun _ => worker fuel (.interpret rest) := by
  cases fuel with
  | zero => rfl
  | succ fuel => exact every_append _ _ _

end Run

-- ---------------------------------------------------------------------------
-- Notes before and behind
-- ---------------------------------------------------------------------------

theorem Stmt.idsOfAll_append (body rest : List Stmt) :
    Stmt.idsOfAll (body ++ rest) = Stmt.idsOfAll body ++ Stmt.idsOfAll rest := by
  induction body with
  | nil => rfl
  | cons s body ih => rw [List.cons_append, Stmt.idsOfAll, ih, Stmt.idsOfAll, List.append_assoc]

theorem noted_congr {s s' : Session} {node : NodeId} (notes : List Scope.Note)
    (h : s'.distances[node]? = s.distances[node]?) :
    (s'.noted notes).distances[node]? = (s.noted notes).distances[node]? := by
  have hnoted : ∀ s : Session, s.noted notes = s.commit ⟨(), notes, s.nextId⟩ := fun _ => rfl
  rw [hnoted, hnoted, getElem?_commit, getElem?_commit, h]
  rfl

namespace Likeness

/-- A tree is alike itself, once its nodes are known. -/
theorem allLike_self {names : Renaming → Prop} {N : Pairing} (h1 : names 1) {body : List Stmt}
    (h : ∀ node ∈ Stmt.idsOfAll body, ∃ d, N node node d) :
    Stmt.AllLike names N plain body body := by
  have hlike := Stmt.allLike_numbered (f := id) (g := id) h1 body h
  rwa [Stmt.numberedAll_id] at hlike

variable {W : World} {s t t' : Session} {A B : List Stmt} {a b : List Scope.Note} {next : NodeId}

/-- Before the first part runs, the notes for the second may be there or be missing. -/
theorem Holds.ahead (hs : (same (Stmt.idsOfAll B)).Holds W plain s s)
    (hfresh : Fresh (Stmt.idsOfAll A ++ Stmt.idsOfAll B) s.nextId next)
    (ha : Scope.program A = .ok a) (hb : Scope.program B = .ok b)
    (ht : t = (s.readTo next).noted a) :
    ∃ W', (same (Stmt.idsOfAll B)).Holds W' plain (t.noted b) t ∧
      Stmt.AllLike (same (Stmt.idsOfAll B)).names W'.noted plain A A := by
  have hnotB : ∀ node ∉ Stmt.idsOfAll B, (t.noted b).distances[node]? = t.distances[node]? :=
    fun node hnode => noted_of_notMem (fun n hn => program_notes hb hn) hnode t
  have hnotA : ∀ node ∉ Stmt.idsOfAll A, t.distances[node]? = s.distances[node]? :=
    fun node hnode => ht ▸ noted_of_notMem (fun n hn => program_notes ha hn) hnode _
  have hold : ∀ node, node < s.nextId ∨ next ≤ node →
      node ∉ Stmt.idsOfAll A ∧ node ∉ Stmt.idsOfAll B := by
    intro node hnode
    rw [← not_or, ← List.mem_append]
    intro hmem
    obtain ⟨hlow, hhigh⟩ := hfresh.range node hmem
    exact hnode.elim (Nat.not_lt.2 hlow) (Nat.not_le.2 hhigh)
  have hapart : ∀ node ∈ Stmt.idsOfAll A, node ∉ Stmt.idsOfAll B := fun node hmem hmem' =>
    (List.nodup_append.1 hfresh.nodup).2.2 node hmem node hmem' rfl
  let N : Pairing := fun i j d =>
    W.noted i j d ∨ i = j ∧ i ∈ Stmt.idsOfAll A ∧ t.distances[i]? = d
  have hnotes : (same (Stmt.idsOfAll B)).Notes N (t.noted b).nextId t.nextId
      (t.noted b).distances t.distances := by
    have hnext : (t.noted b).nextId = next ∧ t.nextId = next := by
      rw [ht]
      exact ⟨rfl, rfl⟩
    rw [hnext.1, hnext.2]
    refine ⟨rfl, ?_, fun i hi => ?_, fun i hi => ?_, ?_⟩
    · rintro i j d (hij | ⟨rfl, hi, hd⟩)
      · obtain ⟨hnodes, hi, -, hd, -⟩ := hs.notes.noted i j d hij
        obtain rfl : i = j := hnodes
        obtain ⟨hiA, hiB⟩ := hold i (.inl hi)
        have hlt := Nat.lt_of_lt_of_le hi hfresh.le
        rw [hnotB i hiB, hnotA i hiA]
        exact ⟨rfl, hlt, hlt, hd, hd⟩
      · have hlt := (hfresh.range i (List.mem_append_left _ hi)).2
        rw [hnotB i (hapart i hi)]
        exact ⟨rfl, hlt, hlt, hd, hd⟩
    · rw [hnotB i (hold i (.inr hi)).2, hnotA i (hold i (.inr hi)).1]
      exact hs.notes.unnoted i (Nat.le_trans hfresh.le hi)
    · rw [hnotA i (hold i (.inr hi)).1]
      exact hs.notes.unnoted i (Nat.le_trans hfresh.le hi)
    · rintro i j ⟨rfl, hi⟩
      exact (hnotB i hi).symm
  have hself : Stmt.AllLike (same (Stmt.idsOfAll B)).names N plain A A :=
    allLike_self Translation.identity.names_one fun node hnode =>
      ⟨t.distances[node]?, .inr ⟨rfl, hnode, rfl⟩⟩
  subst ht
  exact ⟨{ W with noted := N }, hs.learn (fun _ _ _ hij => .inl hij) hnotes, hself⟩

/-- Once the notes for the second part are there in both sessions, nothing differs. -/
theorem Holds.behind (ht : (same (Stmt.idsOfAll B)).Holds W plain t t')
    (hb : Scope.program B = .ok b) (hlt : ∀ node ∈ Stmt.idsOfAll B, node < t.nextId)
    (hnoted : ∀ node ∈ Stmt.idsOfAll B, (t'.noted b).distances[node]? = t.distances[node]?) :
    ∃ W', (same []).Holds W' plain t (t'.noted b) ∧
      Stmt.AllLike (same []).names W'.noted plain B B := by
  have hall : ∀ node : NodeId, (t'.noted b).distances[node]? = t.distances[node]? := by
    intro node
    by_cases hnode : node ∈ Stmt.idsOfAll B
    · exact hnoted node hnode
    · rw [noted_of_notMem (fun n hn => program_notes hb hn) hnode]
      exact ht.notes.agreed node node ⟨rfl, hnode⟩
  let N : Pairing := fun i j d =>
    W.noted i j d ∨ i = j ∧ i ∈ Stmt.idsOfAll B ∧ t.distances[i]? = d
  have hnext : t.nextId = t'.nextId := ht.notes.nextId
  have hnotes : (same (Stmt.idsOfAll B)).Notes N t.nextId t'.nextId t.distances
      (t'.noted b).distances := by
    refine ⟨hnext, ?_, ht.notes.unnoted, fun i hi => ?_, ?_⟩
    · rintro i j d (hij | ⟨rfl, hi, hd⟩)
      · obtain ⟨hnodes, hi, hj, hd, -⟩ := ht.notes.noted i j d hij
        obtain rfl : i = j := hnodes
        exact ⟨rfl, hi, hj, hd, (hall i).trans hd⟩
      · exact ⟨rfl, hlt i hi, hnext ▸ hlt i hi, hd, (hall i).trans hd⟩
    · rw [hall]
      exact ht.notes.unnoted i (hnext ▸ hi)
    · rintro i j ⟨rfl, -⟩
      exact hall i
  have hholds : (same (Stmt.idsOfAll B)).Holds { W with noted := N } plain t (t'.noted b) :=
    ht.learn (fun _ _ _ hij => .inl hij) hnotes
  have hself : Stmt.AllLike (same []).names N plain B B :=
    allLike_self Translation.identity.names_one fun node hnode =>
      ⟨t.distances[node]?, .inr ⟨rfl, hnode, rfl⟩⟩
  exact ⟨_, hholds.settle fun node _ => hall node, hself⟩

theorem Outcomes.same_result {ids : List NodeId} {m m' : Except Halt Unit × Session}
    (h : (same ids).Outcomes W plain (fun _ _ _ => True) m m') :
    m'.1 = m.1 ∧ ∃ W', (same ids).Holds W' plain m.2 m'.2 := by
  cases h with
  | ok _ ht _ => exact ⟨rfl, _, ht⟩
  | halt _ ht hhalt => exact ⟨by rw [hhalt.eq fun _ hρ => hρ], _, ht⟩

end Likeness

-- ---------------------------------------------------------------------------
-- One unit or two
-- ---------------------------------------------------------------------------

/-- Runs with the same result, which leave sessions that are the same but for the distances of
these nodes. No later visit to the sessions shows a difference, either. -/
structure SameRuns (ids : List NodeId) (m m' : Except Halt Unit × Session) : Prop where
  result : m'.1 = m.1
  session : m.2.SameBut ids m'.2
  later : ∀ visits, (m'.2.visited visits).1 = (m.2.visited visits).1 ∧
    (m.2.visited visits).2.SameBut ids (m'.2.visited visits).2

theorem Likeness.Outcomes.sameRuns {ids : List NodeId} {m m' : Except Halt Unit × Session}
    (h : (Likeness.same ids).Outcomes W plain (fun _ _ _ => True) m m') : SameRuns ids m m' := by
  obtain ⟨hresult, W', ht⟩ := h.same_result
  exact ⟨hresult, ht.sameBut, ht.visited_eq⟩

theorem Session.SameBut.output {s s' : Session} (h : s.SameBut ids s') : s'.output = s.output := by
  rw [← h.others]

theorem Session.SameBut.mono {s s' : Session} (h : s.SameBut ids s') (hids : ids ⊆ ids') :
    s.SameBut ids' s' :=
  ⟨h.others, fun node hnode => h.distances node fun hmem => hnode (hids hmem)⟩

theorem SameRuns.mono {m m' : Except Halt Unit × Session} (h : SameRuns ids m m')
    (hids : ids ⊆ ids') : SameRuns ids' m m' :=
  ⟨h.result, h.session.mono hids, fun visits => ⟨(h.later visits).1, (h.later visits).2.mono hids⟩⟩

theorem SameRuns.prints {m m' : Except Halt Unit × Session} (h : SameRuns ids m m')
    (hm : m.1.isOk = true ∧ m.2.output = text) : m'.1.isOk = true ∧ m'.2.output = text := by
  rw [h.result, h.session.output]
  exact hm

/-- The first part runs in the same way, whether or not the second is noted by then; so does the
second, in the session that the first leaves. -/
theorem sameRuns_append (hs : Reachable units s) {A B : List Stmt}
    (hfresh : Fresh (Stmt.idsOfAll A ++ Stmt.idsOfAll B) s.nextId next)
    (ha : Scope.program A = .ok a) (hb : Scope.program B = .ok b) (fuel : Nat) :
    SameRuns (Stmt.idsOfAll B)
        ((Run.statements fuel (A ++ B)).on (s.readTo next))
        ((Run.unitsInTurn fuel A B).on (s.readTo next)) ∧
      (((Run.statements fuel A).on (s.readTo next)).1 = .ok () →
        SameRuns []
          ((Run.statements fuel (A ++ B)).on (s.readTo next))
          ((Run.unitsInTurn fuel A B).on
            (s.readTo next))) := by
  have hab : Scope.program (A ++ B) = .ok (a ++ b) :=
    Scope.program_append_eq_ok.2 ⟨a, b, ha, hb, rfl⟩
  obtain ⟨W, hself⟩ := Likeness.holds_same hs (Stmt.idsOfAll B)
  obtain ⟨W₁, h₁, hA⟩ := hself.ahead hfresh ha hb rfl
  generalize ht : (s.readTo next).noted a = t at h₁
  rw [Run.on_statements hab, Session.noted_append, ht, Run.worker_append, Run.unitsInTurn,
    Run.on_bind, Run.on_bind, Run.on_statements ha, ht]
  have hfirst := ((Likeness.same (Stmt.idsOfAll B)).paired_worker fuel).interpret h₁ hA
  have hlater := (worker_later fuel (.interpret A) (t.noted b)).grows
  have hlater' := (worker_later fuel (.interpret A) t).grows
  have hnext : t.nextId = next := by rw [← ht]; rfl
  unfold Likeness.Joint Worker.interpret at hfirst
  generalize (worker fuel (.interpret A)).on (t.noted b) = m at hfirst hlater ⊢
  generalize (worker fuel (.interpret A)).on t = m' at hfirst hlater' ⊢
  cases hfirst with
  | halt _ hu hhalt =>
    exact ⟨(Likeness.Outcomes.halt (.refl _) hu hhalt).sameRuns, fun h => by cases h⟩
  | @ok _ u u' _ _ _ hu _ =>
    have hlt : ∀ node ∈ Stmt.idsOfAll B, node < next := fun node hnode =>
      (hfresh.range node (List.mem_append_right _ hnode)).2
    have hle : next ≤ u.nextId := hnext ▸ hlater.nextId
    obtain ⟨W₂, h₂, hB⟩ := hu.behind hb (fun node hnode => Nat.lt_of_lt_of_le (hlt node hnode) hle)
      fun node hnode => by
        rw [hlater.distances node (hnext.symm ▸ hlt node hnode)]
        exact noted_congr b (hlater'.distances node (hnext.symm ▸ hlt node hnode))
    have hsecond := (((Likeness.same []).paired_worker fuel).interpret h₂ hB).sameRuns
    dsimp only
    rw [Run.on_statements hb]
    exact ⟨hsecond.mono (List.nil_subset _), fun _ => hsecond⟩

/-- Units compose. From whichever session, and for any statements that have nodes of their own: the
walk accepts them in one unit if and only if it accepts each part as a unit. Then it is the same to
run them in one unit, or to run the first part as a unit and, if that does not stop, the second as
the next: the result is the same, and so is the session, output included, but for distances of nodes
of the second part that nothing refers to. There are no such distances if the first part does not
stop, and in no case does a later visit show a difference. A unit that is entered as a source is run
as the statements that it is read as. -/
theorem units_compose (fuel : Nat) (hs : Reachable units s) (A B : List Stmt)
    (hfresh : Fresh (Stmt.idsOfAll (A ++ B)) s.nextId next) :
    ((∃ notes, Scope.program (A ++ B) = .ok notes) ↔
      (∃ notes, Scope.program A = .ok notes) ∧ ∃ notes, Scope.program B = .ok notes) ∧
    ((∃ notes, Scope.program (A ++ B) = .ok notes) →
      SameRuns (Stmt.idsOfAll B)
        ((Run.statements fuel (A ++ B)).on (s.readTo next))
        ((Run.unitsInTurn fuel A B).on (s.readTo next)) ∧
      (((Run.statements fuel A).on (s.readTo next)).1 = .ok () →
        SameRuns []
          ((Run.statements fuel (A ++ B)).on (s.readTo next))
          ((Run.unitsInTurn fuel A B).on (s.readTo next)))) ∧
    ∀ source p, Prepared.program source s.nextId = .ok p →
      (Run.unit fuel source).on s = (Run.statements fuel p.tree).on (s.readTo p.nextId) := by
  refine ⟨?_, ?_, fun source p hp => Run.on_unit hp fuel⟩
  · simp only [Scope.program_append_eq_ok]
    constructor
    · rintro ⟨_, a, b, ha, hb, -⟩
      exact ⟨⟨a, ha⟩, b, hb⟩
    · rintro ⟨⟨a, ha⟩, b, hb⟩
      exact ⟨a ++ b, a, b, ha, hb, rfl⟩
  · rintro ⟨_, hboth⟩
    obtain ⟨a, b, ha, hb, -⟩ := Scope.program_append_eq_ok.1 hboth
    rw [Stmt.idsOfAll_append] at hfresh
    exact sameRuns_append hs hfresh ha hb fuel

-- A function, and a block that calls it.

def givingBack : List Stmt :=
  [.function ⟨⟨.identifier, "f", 1⟩, some [⟨.identifier, "a", 1⟩],
    [.returnValue ⟨.kwReturn, "return", 1⟩ (some (.var 0 ⟨.identifier, "a", 1⟩))]⟩]

def callingBack : List Stmt :=
  [.block [.var ⟨.identifier, "b", 1⟩ (some (.literal (.text "t"))),
    .print (.call (.var 1 ⟨.identifier, "f", 1⟩) ⟨.rightParen, ")", 1⟩
      [.var 2 ⟨.identifier, "b", 1⟩])]]

def withoutModules : Session :=
  .start (fun _ => none) none (.still 0)

theorem joined_prints :
    ((Run.statements 8 (givingBack ++ callingBack)).on
        (withoutModules.readTo (3 : Nat))).1.isOk = true ∧
    ((Run.statements 8 (givingBack ++ callingBack)).on
        (withoutModules.readTo (3 : Nat))).2.output = "t\n" := by
  decide +kernel

/-- The block finds the function in the unit before its own, as it does in its own. -/
theorem block_calls_function_of_unit_before :
    ((Run.unitsInTurn 8 givingBack callingBack).on
        (withoutModules.readTo (3 : Nat))).1.isOk = true ∧
    ((Run.unitsInTurn 8 givingBack callingBack).on
        (withoutModules.readTo (3 : Nat))).2.output = "t\n" := by
  have hs : Reachable [] withoutModules := .start
  have hfresh : Fresh (Stmt.idsOfAll (givingBack ++ callingBack)) 0 3 :=
    ⟨by decide, by decide, by decide⟩
  have haccepted : Scope.program (givingBack ++ callingBack) = .ok [(0, 0), (2, 0)] := by
    decide +kernel
  obtain ⟨-, hsame, -⟩ := units_compose 8 hs givingBack callingBack hfresh
  exact (hsame ⟨_, haccepted⟩).1.prints joined_prints

end Treewalk
