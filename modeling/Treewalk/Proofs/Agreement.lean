import Treewalk.Proofs.Mistakes
import Treewalk.Proofs.Running

/-!
# Scopes and frames agree

A new session is as it should be, and every entry leaves it so, whatever the entry ends in. Hence
at every moment of every entry the frames around the running code follow the scopes around it. A
node that was resolved finds the frame of the scope of its name at the noted distance, and finds
the name bound there if it reads it.
-/

namespace Treewalk

namespace Account

variable {A : Account} {s s' : Session}

-- ---------------------------------------------------------------------------
-- Between entries
-- ---------------------------------------------------------------------------

def add (A : Account) (unit : Line) : Account :=
  { A with units := unit :: A.units }

theorem Knows.add (h : A.Knows s unit' top) (unit : Line) : (A.add unit).Knows s unit' top :=
  ⟨h.owner.imp_left fun h => ⟨List.mem_cons_of_mem _ h.1, h.2⟩, h.noted⟩

theorem Declared.add {inner : Stack → Stack} (h : A.Declared s inner c) (unit : Line) :
    (A.add unit).Declared s inner c := by
  obtain ⟨unit', top, σ, hknows, hdeclared⟩ := h
  exact ⟨unit', top, σ, hknows.add unit, hdeclared⟩

theorem Classed.add {c : Class} (h : A.Classed s c) (unit : Line) : (A.add unit).Classed s c := by
  refine ⟨h.methods.mono fun _ hm => Declared.add hm unit, ?_⟩
  obtain ⟨unit', top, σ, name, methods, classMethods, frame, home, hknows, hmade⟩ := h.declared
  exact ⟨unit', top, σ, name, methods, classMethods, frame, home, hknows.add unit, hmade⟩

theorem Holds.add (h : A.Holds s v) (unit : Line) : (A.add unit).Holds s v :=
  Value.All.mono (fun _ hc => Declared.add hc unit) (fun _ _ hc => hc.add unit) (fun _ h => h) h

theorem Accepts.add (h : A.Accepts s) (unit : Line) : (A.add unit).Accepts s where
  bindings frame := (h.bindings frame).mono fun _ hv => Holds.add hv unit
  fields object table ht := (h.fields object table ht).mono fun _ hv => Holds.add hv unit
  elements id v hv := Holds.add (h.elements id v hv) unit
  exports := h.exports.mono fun _ hm => hm.mono fun _ hv => Holds.add hv unit
  distances := h.distances
  root := h.root

theorem accepts_start (sources : String → Option String) (refusal : Option String) (clock : Clock) :
    A.Accepts (.start sources refusal clock) where
  bindings frame := Frames.initial_bindings .empty (fun _ _ ht => ht.insert trivial) frame
  fields _ _ ht := by simp [Session.start] at ht
  elements id v hv := by simp [Session.start, Arrays.elements, Arrays.empty] at hv
  exports := .empty
  distances id d hd := by simp [Session.start] at hd
  root := Frames.root_lt_initial

/-- What an entry asks for can rely on the account that has its unit. -/
theorem Accepts.entered {p : Prepared Line} (hs : A.Accepts s) (hmain : s.context = .main)
    (hp : Checked s.nextId p) : (A.add p.tree).contract.pre p.tree.task (s.commit p) := by
  have hs' : (A.add p.tree).Accepts s := hs.add p.tree
  have hcontext : (s.commit p).context = .main := hmain
  have hstands : (A.add p.tree).Stands (s.commit p) [] p.tree.piece := by
    refine ⟨p.tree, rootFrame, ⟨.inl ⟨List.mem_cons_self, rfl⟩, noted_commit hs' hp⟩,
      .whole, ?_, ?_⟩
    · rw [hcontext]
      exact .ends hs.root
    · exact fun _ => by rw [hcontext]; rfl
  refine ⟨hs'.commit hp, ?_⟩
  generalize p.tree = l at hstands ⊢
  cases l with
  | statements body => exact ⟨[], hstands⟩
  | expression e => exact ⟨[], hstands⟩

theorem Keeps.leaves {m : Run α} (h : A.Keeps m s Q) :
    A.Accepts (m.on s).2 ∧ s.Later (m.on s).2 := by
  rcases hr : m.on s with ⟨_ | _, s'⟩
  · obtain ⟨hs', hlater, -⟩ := Triple.halt h hr
    exact ⟨hs', hlater⟩
  · obtain ⟨hs', hlater, -⟩ := Triple.result h hr
    exact ⟨hs', hlater⟩

-- ---------------------------------------------------------------------------
-- Whole runs
-- ---------------------------------------------------------------------------

theorem inductive_contract
    (havoid : A.strict → ∀ path s, s.Stray path → avoid (.splice path) s) :
    A.contract.Inductive avoid := by
  intro w hw t s hpre hnot
  refine step_keeps hw t hpre.1 hpre.2 ?_
  rintro hstrict path rfl hstray
  exact hnot (havoid hstrict path s hstray)

theorem fault_exhausted (t : Task) (s : Session) (h : A.contract.pre t s) :
    A.contract.fault t s .exhausted s :=
  ⟨h.1, .refl s, fun ⟨_, _, _, heq⟩ => (nomatch heq)⟩

theorem run_keeps (fuel : Nat) (h : A.contract.pre t s) (hstrict : ¬ A.strict) :
    A.Keeps (worker fuel t) s (A.Answers t) := by
  have hstep : A.contract.Inductive nowhere := inductive_contract fun h => absurd h hstrict
  exact Contract.honoured hstep fault_exhausted fuel t s h

/-- What the account says holds at every moment before the first that is avoided. -/
theorem comesTo (havoid : A.strict → ∀ path s, s.Stray path → avoid (.splice path) s)
    (hpre : A.contract.pre t s) (h : ComesTo avoid fuel t s t' s') : A.contract.pre t' s' := by
  refine Contract.comesTo (inductive_contract havoid) fault_exhausted
    (.error (.runtime ⟨0, ""⟩ (.unbound "" 0))) ?_ hpre h
  rintro _ _ _ ⟨-, -, hhalt⟩
  exact hhalt ⟨_, .unbound "" 0, trivial, rfl⟩

end Account

/-- Between entries everything is as it should be, whatever the entries ended in. -/
theorem Reachable.accepted (h : Reachable units s) :
    (Account.mk units False).Accepts s ∧ s.context = .main := by
  induction h with
  | start => exact ⟨Account.accepts_start _ _ _, rfl⟩
  | told _ ih => exact ⟨ih.1.told _ _, ih.2⟩
  | @run units s entry fuel _ ih =>
    obtain ⟨hs, hmain⟩ := ih
    cases hp : entry.prepared s.nextId with
    | error e =>
      rw [entry.on_run_error fuel hp, Entry.units, hp]
      exact ⟨hs, hmain⟩
    | ok p =>
      rw [entry.on_run_ok fuel hp, Entry.units, hp]
      obtain ⟨hs', hlater⟩ :=
        (Account.run_keeps fuel (hs.entered hmain (entry.checked hp)) id).leaves
      exact ⟨hs', hlater.context.trans hmain⟩

/-- No entry stops because a resolved name is not bound, or because an initializer has no
receiver. -/
theorem Reachable.run_bound (hs : Reachable units s) (entry : Entry) (fuel : Nat) (site : Site)
    (hinternal : fault.Internal) :
    ((entry.run fuel).on s).1 ≠ .error (.error (.runtime site fault)) := by
  obtain ⟨haccepts, hmain⟩ := hs.accepted
  intro hrun
  cases hp : entry.prepared s.nextId with
  | error e =>
    rw [entry.on_run_error fuel hp] at hrun
    cases hrun
    cases entry.prepared_refused s.nextId _ hp
  | ok p =>
    rw [entry.on_run_ok fuel hp] at hrun
    have hkeeps := Account.run_keeps fuel (haccepts.entered hmain (entry.checked hp)) id
    rcases hr : (worker fuel p.tree.task).on (s.commit p) with ⟨halt | _, s'⟩
    · rw [hr] at hrun
      cases hrun
      exact (Triple.halt hkeeps hr).2.2 ⟨_, _, hinternal, rfl⟩
    · rw [hr] at hrun
      cases hrun

/-- Whenever a node with a noted distance is evaluated, in any entry into any session, the frames
from the innermost outwards are those of the scopes around the node, up to the top level of its
unit. So the frame at the noted distance is there, was made for the scope of the name, and binds the
name if the node reads it. No entry stops because a resolved name is not bound. -/
theorem resolved_names_are_bound (hs : Reachable units s₀) (entry : Entry) (fuel : Nat) :
    (∀ site name d,
      ((entry.run fuel).on s₀).1 ≠ .error (.error (.runtime site (.unbound name d)))) ∧
    ∀ p, entry.prepared s₀.nextId = .ok p →
      ∀ e s, ComesTo nowhere fuel p.tree.task (s₀.commit p) (.evaluate e) s →
      ∀ node name d, e.refers? = some (node, name) → s.distances[node]? = some d →
      ∃ unit top σ scope frame,
        s.Owns (p.tree :: units) unit top ∧ Inside unit σ (.expression e) ∧
        Chain s.frames top s.context.frame σ ∧
        Scope.distance? σ.names name.lexeme = some d ∧ σ[d]? = some scope ∧
        s.frames.ancestor? s.context.frame d = some frame ∧
        s.frames.opener? frame = some scope.opener ∧
        (e.reads? = some name → (s.frames.getLocal? frame name.lexeme).isSome) := by
  obtain ⟨haccepts, hmain⟩ := hs.accepted
  refine ⟨fun site name d => hs.run_bound entry fuel site trivial, ?_⟩
  intro p hp e s hm node name d hr hd
  have hpre := haccepts.entered hmain (entry.checked hp)
  obtain ⟨-, σ, hstands⟩ := Account.comesTo (fun (h : False) _ _ _ => h.elim) hpre hm
  obtain ⟨hdistance, scope, frame, hscope, hframe, hopener, hbound⟩ := hstands.found hr hd
  obtain ⟨unit, top, hknows, hinside, hchain, -⟩ := hstands
  exact ⟨unit, top, σ, scope, frame, hknows.owner, hinside, hchain, hdistance, hscope, hframe,
    hopener, hbound⟩

/-- A block that reads the variable that it declares, as it is before it runs. -/
def ownReader : Prepared Line :=
  ⟨.statements [.block [.var ⟨.identifier, "a", 1⟩ (some (.literal .nil)),
    .expression (.var 0 ⟨.identifier, "a", 1⟩)]], [(0, 0)], 1⟩

def ownReading : Session :=
  let s := Session.start (fun _ => none) none (.still 0)
  { s.commit ownReader with
    frames := s.frames.addScope rootFrame
      (.block [.var ⟨.identifier, "a", 1⟩ (some (.literal .nil)),
      .expression (.var 0 ⟨.identifier, "a", 1⟩)])
    context := ⟨1, rootFrame, []⟩ }

def ownRead : Session :=
  { ownReading with frames := ownReading.frames.define 1 "a" .nil }

/-- The variable of the block is found, and bound, in the frame of the block. -/
theorem own_variable_is_bound :
    ComesTo nowhere 5 ownReader.tree.task
      ((Session.start (fun _ => none) none (.still 0)).commit ownReader)
      (.evaluate (.var 0 ⟨.identifier, "a", 1⟩)) ownRead ∧
    ∃ scope frame, ownRead.frames.ancestor? ownRead.context.frame 0 = some frame ∧
      ownRead.frames.opener? frame = some (Open.opener scope) ∧
      (ownRead.frames.getLocal? frame "a").isSome := by
  have hp : (Entry.unit "\x7b var a = nil; a; \x7d").prepared 0 = .ok ownReader := by decide +kernel
  have hm : ComesTo nowhere 5 ownReader.tree.task
      ((Session.start (fun _ => none) none (.still 0)).commit ownReader)
      (.evaluate (.var 0 ⟨.identifier, "a", 1⟩)) ownRead := by
    refine .first (fun w halt h => Run.on_bind_error h) (fun h => h) (.of_step (fun h => h) ?_)
    intro halt
    -- The declaration is no moment to stop at, and runs to its end.
    have hvar : (stoppedWorker (stopAt nowhere (.evaluate (.var 0 ⟨.identifier, "a", 1⟩))
        ownRead halt) 3 (.execute (.var ⟨.identifier, "a", 1⟩ (some (.literal .nil))))).on
        ownReading = (.ok .normal, ownRead) := by
      simp only [stoppedWorker]
      rw [Worker.unless_on_of_none (by simp [stopAt, nowhere])]
      simp only [Worker.step, Run.executeWith, Run.on_bind]
      rw [Worker.unless_on_of_none (by simp [stopAt, nowhere])]
      rfl
    have hread : ComesTo nowhere 3 (.execute (.expression (.var 0 ⟨.identifier, "a", 1⟩))) ownRead
        (.evaluate (.var 0 ⟨.identifier, "a", 1⟩)) ownRead :=
      .first (fun w halt h => Run.on_bind_error h) (fun h => h) .beginning
    rw [Triple.halts_iff]
    refine Triple.step (Run.on_get _) (Triple.step rfl (Triple.within (Triple.step hvar ?_)))
    exact Triple.halts_iff.1 (Run.on_bind_error (hread halt))
  refine ⟨hm, ?_⟩
  obtain ⟨unit, top, σ, scope, frame, -, -, -, -, -, hframe, hopener, hbound⟩ :=
    (resolved_names_are_bound .start _ 5).2 _ hp _ _ hm 0 ⟨.identifier, "a", 1⟩ 0 rfl rfl
  exact ⟨scope, frame, hframe, hopener, hbound rfl⟩

end Treewalk
