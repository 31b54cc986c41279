import Treewalk.Proofs.Agreement
import Treewalk.Proofs.Starts

/-!
# Where `break` and `return` lead

The walk of the scopes lets a `break` stand only in a loop of its own function, and a `return` only
in a function. What a statement ends in follows from where its `break`s and `return`s stand. So a
statement of a unit's top level ends normally, and the body of a function ends normally or returns.
A `break` that is carried out leaves statement after statement, up to the innermost loop around it
in its own function, and that loop then ends normally.
-/

namespace Treewalk

-- ---------------------------------------------------------------------------
-- Where they may stand
-- ---------------------------------------------------------------------------

mutual

/-- Every `break` of the statement stands in a loop, unless the statement itself does, and every
`return` in a function. Functions in the statement are another matter. -/
def Stmt.Disciplined (inFunction inLoop : Bool) : Stmt → Prop
  | .block body => Stmt.AllDisciplined inFunction inLoop body
  | .ifElse _ yes none => yes.Disciplined inFunction inLoop
  | .ifElse _ yes (some no) =>
    yes.Disciplined inFunction inLoop ∧ no.Disciplined inFunction inLoop
  | .whileLoop _ body => body.Disciplined inFunction true
  | .breakLoop _ => inLoop = true
  | .returnValue _ _ => inFunction = true
  | .exportDecl _ declaration => declaration.Disciplined inFunction inLoop
  | _ => True

def Stmt.AllDisciplined (inFunction inLoop : Bool) : List Stmt → Prop
  | [] => True
  | s :: rest => s.Disciplined inFunction inLoop ∧ Stmt.AllDisciplined inFunction inLoop rest

end

theorem Stmt.allDisciplined_iff {body : List Stmt} :
    Stmt.AllDisciplined inFunction inLoop body ↔
      ∀ st ∈ body, st.Disciplined inFunction inLoop := by
  induction body with
  | nil => simp [Stmt.AllDisciplined]
  | cons st rest ih => simp [Stmt.AllDisciplined, ih]

mutual

theorem walkStmt_disciplined :
    ∀ (st : Stmt), Scope.walkStmt around scopes st = .ok walked →
      st.Disciplined around.inFunction around.inLoop
  | .block body, h => by
    simp only [Scope.walkStmt, bind_eq_ok] at h
    obtain ⟨inner, hbody, -⟩ := h
    exact walkStmts_disciplined body hbody
  | .ifElse condition yes none, h => by
    simp only [Scope.walkStmt, bind_eq_ok] at h
    obtain ⟨_, _, behind, hyes, -⟩ := h
    exact walkStmt_disciplined yes hyes
  | .ifElse condition yes (some no), h => by
    simp only [Scope.walkStmt, bind_eq_ok] at h
    obtain ⟨_, _, behind, hyes, last, hno, -⟩ := h
    exact ⟨walkStmt_disciplined yes hyes, walkStmt_disciplined no hno⟩
  | .whileLoop condition body, h => by
    simp only [Scope.walkStmt, bind_eq_ok] at h
    obtain ⟨_, _, behind, hbody, -⟩ := h
    have hinside : body.Disciplined { around with inLoop := true }.inFunction true :=
      walkStmt_disciplined body hbody
    exact hinside
  | .breakLoop keyword, h => by
    simp only [Scope.walkStmt] at h
    split at h
    · assumption
    · cases h
  | .returnValue keyword value, h => by
    simp only [Scope.walkStmt] at h
    split at h
    · assumption
    · cases h
  | .exportDecl keyword declaration, h => by
    simp only [Scope.walkStmt] at h
    exact walkStmt_disciplined declaration h
  | .expression _, _ | .print _, _ | .var _ _, _ | .function _, _ | .classDecl _ _ _, _
  | .importModule _ _, _ => trivial

theorem walkStmts_disciplined :
    ∀ (body : List Stmt), Scope.walkStmts around scopes body = .ok walked →
      Stmt.AllDisciplined around.inFunction around.inLoop body
  | [], _ => trivial
  | st :: rest, h => by
    simp only [Scope.walkStmts, bind_eq_ok] at h
    obtain ⟨behind, hst, last, hrest, -⟩ := h
    exact ⟨walkStmt_disciplined st hst, walkStmts_disciplined rest hrest⟩

end

theorem Checked.disciplined (h : Checked start p) (hbody : p.tree = .statements body) :
    Stmt.AllDisciplined false false body := by
  have hwalked := h.walked
  rw [hbody] at hwalked
  simp only [Prepared.walkLine, Scope.program, bind_eq_ok] at hwalked
  obtain ⟨behind, hwalk, -⟩ := hwalked
  exact walkStmts_disciplined body hwalk

theorem Analysed.disciplined (h : Analysed notes σ (.routine r)) :
    Stmt.AllDisciplined true false r.body := by
  obtain ⟨own, ⟨around, hwalk⟩, -⟩ := h.walked
  obtain ⟨name, params, body⟩ := r
  simp only [Piece.walk, Scope.walkRoutine, bind_eq_ok] at hwalk
  obtain ⟨behind, hbody, -⟩ := hwalk
  exact walkStmts_disciplined body hbody

-- ---------------------------------------------------------------------------
-- What statements end in
-- ---------------------------------------------------------------------------

/-- The flow is one that may end a statement there. -/
def Flow.Fits (inFunction inLoop : Bool) : Flow → Prop
  | .normal => True
  | .breaking => inLoop = true
  | .returning _ => inFunction = true

/-- Statements end as their `break`s and `return`s stand, and no loop ends in a `break`. -/
def flows : Contract where
  pre _ _ := True
  post
    | .execute st, _, flow, _ => ∀ inFunction inLoop, st.Disciplined inFunction inLoop →
      flow.Fits inFunction inLoop
    | .loop _ body, _, flow, _ => flow ≠ .breaking ∧ ∀ inFunction inLoop,
      body.Disciplined inFunction true → flow.Fits inFunction inLoop
    | _, _, _, _ => True
  fault _ _ _ _ := True

/-- The computation gives such a flow, if any. -/
abbrev EndsIn (inFunction inLoop : Bool) (m : Run Flow) : Prop :=
  ∀ s, Triple m s (fun flow _ => flow.Fits inFunction inLoop) fun _ _ => True

theorem EndsIn.pure (h : flow.Fits inFunction inLoop) : EndsIn inFunction inLoop (pure flow) :=
  fun _ => Triple.pure h

theorem EndsIn.fail : EndsIn inFunction inLoop (Run.fail site fault) :=
  fun _ => Triple.fail trivial

theorem EndsIn.bind {m : Run α} {f : α → Run Flow} (h : ∀ a, EndsIn inFunction inLoop (f a)) :
    EndsIn inFunction inLoop (m >>= f) :=
  fun _ => Triple.bind (R := fun _ _ => True) (.of_forall (fun _ _ => trivial) fun _ _ => trivial)
    fun a s' _ => h a s'

theorem EndsIn.within {m : Run Flow} (h : EndsIn inFunction inLoop m) :
    EndsIn inFunction inLoop (Run.within c m) :=
  fun _ => Triple.within (h _)

theorem EndsIn.inSequence {action : Stmt → Run Flow} {body : List Stmt}
    (h : ∀ st ∈ body, EndsIn inFunction inLoop (action st)) :
    EndsIn inFunction inLoop (Run.inSequence action body) := by
  induction body with
  | nil => exact .pure trivial
  | cons st rest ih =>
    intro s
    refine Triple.bind (h st List.mem_cons_self s) fun flow s' hflow => ?_
    cases flow with
    | normal => exact ih (fun st hst => h st (List.mem_cons_of_mem _ hst)) s'
    | breaking => exact Triple.pure hflow
    | returning value => exact Triple.pure hflow

variable {w : Worker}

theorem executes_endsIn (hw : w.Honours flows) (h : st.Disciplined inFunction inLoop) :
    EndsIn inFunction inLoop (w.execute st) :=
  fun s => (hw (.execute st) s trivial).mono (fun _ _ hflow => hflow _ _ h) fun _ _ _ => trivial

theorem executeWith_endsIn (hw : w.Honours flows) (st : Stmt)
    (h : st.Disciplined inFunction inLoop) : EndsIn inFunction inLoop (Run.executeWith w st) := by
  cases st with
  | block body =>
    have hbody := Stmt.allDisciplined_iff.1 h
    exact .bind fun outer => .bind fun frame => .within
      (.inSequence fun st hst => executes_endsIn hw (hbody st hst))
  | ifElse condition yes no =>
    refine .bind fun value => ?_
    cases no with
    | none =>
      split
      · exact executes_endsIn hw h
      · exact .pure trivial
    | some no =>
      split
      · exact executes_endsIn hw h.1
      · exact executes_endsIn hw h.2
  | whileLoop condition body =>
    intro s
    exact (hw (.loop condition body) s trivial).mono (fun _ _ hflow => hflow.2 _ _ h)
      fun _ _ _ => trivial
  | breakLoop keyword => exact .pure h
  | returnValue keyword value =>
    cases value with
    | none => exact .pure h
    | some e => exact .bind fun _ => .pure h
  | var name initial =>
    cases initial with
    | none => exact .bind fun _ => .bind fun _ => .pure trivial
    | some e => exact .bind fun _ => .bind fun _ => .pure trivial
  | importModule keyword path =>
    simp only [Run.executeWith]
    split
    · exact .bind fun _ => .pure trivial
    · exact .bind fun _ => .pure trivial
  | exportDecl keyword declaration =>
    refine .bind fun _ => ?_
    split
    · exact .bind fun _ => .bind fun _ => .pure trivial
    · exact .fail
  | expression e => exact .bind fun _ => .pure trivial
  | print e => exact .bind fun _ => .bind fun _ => .bind fun _ => .pure trivial
  | function routine => exact .bind fun _ => .bind fun _ => .bind fun _ => .pure trivial
  | classDecl name methods classMethods => exact .bind fun _ => .pure trivial

theorem loopWith_post (hw : w.Honours flows) (condition : Expr) (body : Stmt) (s : Session) :
    Triple (Run.loopWith w condition body) s (flows.post (.loop condition body) s)
      (fun _ _ => True) := by
  have hnormal {s' : Session} : flows.post (.loop condition body) s .normal s' :=
    ⟨nofun, fun _ _ _ => trivial⟩
  refine Triple.bind (R := fun _ _ => True) (hw (.evaluate condition) s trivial)
    fun value s₁ _ => ?_
  split
  · refine Triple.bind (hw (.execute body) s₁ trivial) fun flow s₂ hflow => ?_
    cases flow with
    | normal => exact hw (.loop condition body) s₂ trivial
    | breaking => exact Triple.pure hnormal
    | returning value =>
      exact Triple.pure ⟨nofun, fun inFunction inLoop hbody => hflow inFunction true hbody⟩
  · exact Triple.pure hnormal

theorem flows_inductive : flows.Inductive nowhere := by
  intro w hw t s _ _
  cases t with
  | execute st =>
    unfold Triple
    rcases hr : (w.step (.execute st)).on s with ⟨_ | flow, s'⟩
    · trivial
    · intro inFunction inLoop hst
      exact (executeWith_endsIn hw st hst s).result hr
  | loop condition body => exact loopWith_post hw condition body s
  | _ => exact .of_forall (fun _ _ => trivial) fun _ _ => trivial

theorem worker_flows (fuel : Nat) : (worker fuel).Honours flows :=
  Contract.honoured flows_inductive (fun _ _ _ => trivial) fuel

-- ---------------------------------------------------------------------------
-- The way of a `break`
-- ---------------------------------------------------------------------------

theorem asking_inSequence {body : List Stmt}
    (hask : Asking (fun w => Run.inSequence w.execute body) w s (.execute st') s')
    (hst' : (w (.execute st')).on s' = (.ok .breaking, x)) :
    (Run.inSequence w.execute body).on s = (.ok .breaking, x) := by
  induction body generalizing s with
  | nil => exact hask.const.elim
  | cons st rest ih =>
    have hfirst : Quietly (fun _ => True) (fun w => w (.execute st)) s := .ask trivial
    simp only [Run.inSequence, Run.on_bind]
    rcases hask.bind_cases hfirst with hask | ⟨flow, s₁, hst, hask⟩
    · obtain ⟨heq, rfl⟩ := Asking.ask_iff.1 hask
      cases heq
      rw [hst']
      rfl
    · rw [hst]
      cases flow with
      | normal => exact ih hask
      | breaking => exact hask.const.elim
      | returning value => exact hask.const.elim

/-- A statement in which a statement ends in a `break` ends in it too, unless it is an export. -/
theorem execute_breaking (hask : (worker n).Asks (.execute st) s (.execute st') s')
    (hexport : ∀ keyword declaration, st ≠ .exportDecl keyword declaration)
    (hst' : (worker n (.execute st')).on s' = (.ok .breaking, x)) :
    (worker (n + 1) (.execute st)).on s = (.ok .breaking, { x with context := s.context }) := by
  have hmay := hask.mayAsk
  cases st with
  | block body =>
    let inner : Session := { s with
      frames := s.frames.addScope s.context.frame (.block body)
      context := (Region.block s.frames.next).enter s.context }
    have hbody : Asking (fun w => Run.inSequence w.execute body) (worker n) inner
        (.execute st') s' := hask
    have hrun := asking_inSequence hbody hst'
    have hkept := (Run.inSequence_later n body inner).context
    rw [hrun] at hkept
    exact Run.on_within_of_kept (r := .block s.frames.next)
      (s := { s with frames := s.frames.addScope s.context.frame (.block body) }) hrun hkept
  | ifElse condition yes no =>
    have hcondition : Quietly (fun _ => True) (fun w => w (.evaluate condition)) s := .ask trivial
    rcases hask.bind_cases hcondition with hask | ⟨value, s₁, hvalue, hask⟩
    · cases (Asking.ask_iff.1 hask).1
    · -- The branch is the last thing that is carried out, in the context of the whole.
      have hbranch (branch : Stmt)
          (hask : Asking (fun w => w (.execute branch)) (worker n) s₁ (.execute st') s') :
          (worker n (.execute branch)).on s₁ =
            (.ok .breaking, { x with context := s.context }) := by
        obtain ⟨heq, rfl⟩ := Asking.ask_iff.1 hask
        cases heq
        have hlater := (worker_later n (.evaluate condition) s).context
        have hlater' := (worker_later n (.execute st') s₁).context
        rw [hvalue] at hlater
        rw [hst'] at hlater'
        rw [hst', ← hlater, ← hlater']
      have hvalue' : ((worker n).evaluate condition).on s = (.ok value, s₁) := hvalue
      change (Run.executeWith (worker n) (.ifElse condition yes no)).on s = _
      simp only [Run.executeWith, Run.on_bind, hvalue']
      by_cases htruthy : value.isTruthy = true
      · simp only [htruthy, if_true] at hask ⊢
        exact hbranch yes hask
      · simp only [htruthy, if_false, Bool.false_eq_true] at hask ⊢
        cases no with
        | none => exact hask.const.elim
        | some other => exact hbranch other hask
  | exportDecl keyword declaration => exact absurd rfl (hexport keyword declaration)
  | importModule keyword path =>
    obtain ⟨site, path, heq⟩ := hmay
    cases heq
  | whileLoop condition body => cases hmay
  | _ =>
    obtain ⟨e, heq⟩ := hmay
    cases heq

/-- What a loop asks for beyond its condition: its body, or its next round. -/
theorem loop_asks (hask : (worker n).Asks (.loop condition body) s t' s')
    (ht' : t' ≠ .evaluate condition) :
    ∃ value s₁, (worker n (.evaluate condition)).on s = (.ok value, s₁) ∧ value.isTruthy = true ∧
      ((t' = .execute body ∧ s' = s₁) ∨
        ∃ s₂, (worker n (.execute body)).on s₁ = (.ok .normal, s₂) ∧
          t' = .loop condition body ∧ s' = s₂) := by
  have hcondition : Quietly (fun _ => True) (fun w => w (.evaluate condition)) s := .ask trivial
  rcases hask.bind_cases hcondition with hask | ⟨value, s₁, hvalue, hask⟩
  · exact absurd (Asking.ask_iff.1 hask).1.symm ht'
  · by_cases htruthy : value.isTruthy = true
    · refine ⟨value, s₁, hvalue, htruthy, ?_⟩
      simp only [htruthy, if_true] at hask
      have hbody : Quietly (fun _ => True) (fun w => w (.execute body)) s₁ := .ask trivial
      rcases hask.bind_cases hbody with hask | ⟨flow, s₂, hflow, hask⟩
      · obtain ⟨rfl, rfl⟩ := Asking.ask_iff.1 hask
        exact .inl ⟨rfl, rfl⟩
      · cases flow with
        | normal =>
          obtain ⟨rfl, rfl⟩ := Asking.ask_iff.1 hask
          exact .inr ⟨_, hflow, rfl, rfl⟩
        | breaking => exact hask.const.elim
        | returning value => exact hask.const.elim
    · simp only [htruthy, Bool.false_eq_true, if_false] at hask
      exact hask.const.elim

theorem loop_on (hvalue : (worker n (.evaluate condition)).on s = (.ok value, s₁))
    (htruthy : value.isTruthy = true) :
    (worker (n + 1) (.loop condition body)).on s =
      match (worker n (.execute body)).on s₁ with
      | (.ok .normal, s₂) => (worker n (.loop condition body)).on s₂
      | (.ok .breaking, s₂) => (.ok .normal, s₂)
      | (.ok (.returning v), s₂) => (.ok (.returning v), s₂)
      | (.error halt, s₂) => (.error halt, s₂) := by
  change (Run.loopWith (worker n) condition body).on s = _
  simp only [Run.loopWith, Run.on_bind, hvalue, htruthy, if_true]
  rcases (worker n (.execute body)).on s₁ with ⟨_ | flow, s₂⟩
  · rfl
  · cases flow <;> rfl

/-- A loop takes the `break` of its body. -/
theorem loop_takes_break {s' x : Session}
    (hask : (worker n).Asks (.loop condition body) s (.execute body) s')
    (hbody : (worker n (.execute body)).on s' = (.ok .breaking, { x with context := s'.context })) :
    (worker (n + 1) (.loop condition body)).on s =
      (.ok .normal, { x with context := s.context }) := by
  obtain ⟨value, s₁, hvalue, htruthy, ⟨-, rfl⟩ | ⟨s₂, -, heq, -⟩⟩ := loop_asks hask nofun
  · have hlater := (worker_later n (.evaluate condition) s).context
    rw [hvalue] at hlater
    rw [loop_on hvalue htruthy, hbody, ← hlater]
  · cases heq

theorem loop_next (hask : (worker n).Asks (.loop condition body) s (.loop condition body) s') :
    (worker (n + 1) (.loop condition body)).on s = (worker n (.loop condition body)).on s' := by
  obtain ⟨value, s₁, hvalue, htruthy, ⟨heq, -⟩ | ⟨s₂, hbody, -, rfl⟩⟩ := loop_asks hask nofun
  · cases heq
  · rw [loop_on hvalue htruthy, hbody]

-- Who may ask for a statement, for a round of a loop, and for a top level.

theorem Task.mayAsk_execute {t : Task} (h : t.MayAsk (.execute st₁)) :
    (∃ st, t = .execute st) ∨ (∃ condition, t = .loop condition st₁) ∨
      (∃ body, t = .interpret body ∧ st₁ ∈ body) ∨
      ∃ closure site arguments, t = .invoke closure site arguments ∧
        st₁ ∈ closure.routine.body := by
  cases t <;> simp_all [Task.MayAsk]

theorem Task.mayAsk_loop {t : Task} (h : t.MayAsk (.loop condition body)) :
    t = .execute (.whileLoop condition body) ∨ t = .loop condition body := by
  cases t with
  | execute st => cases st <;> simp_all [Task.MayAsk, Stmt.MayAsk]
  | _ => simp_all [Task.MayAsk]

def isStatement : Task → Prop :=
  fun t => ∃ st, t = .execute st

/-- Exports are of declarations, and `break` and `return` stand where they may. -/
def Task.Sound : Task → Prop
  | .interpret body => Stmt.AllDisciplined false false body
  | .invoke closure _ _ => Stmt.AllDisciplined true false closure.routine.body
  | .execute st => st.Proper
  | _ => True

/-- The statement ends in the `break` that is carried out in `v`, and stands in no loop that would
take it. -/
structure Breaks (n : Nat) (st : Stmt) (s : Session) (m : Nat) (keyword : Token) (v : Session) :
    Prop where
  leads : Leads isStatement n (.execute st) s m (.execute (.breakLoop keyword)) v
  breaking : (worker n (.execute st)).on s = (.ok .breaking, { v with context := s.context })
  exposed : ∀ inFunction, ¬ st.Disciplined inFunction false

theorem Breaks.outwards (h : Breaks n st₁ s₁ m keyword v)
    (hask : (worker n).Asks (.execute st) s (.execute st₁) s₁) (hproper : st.Proper) :
    Breaks (n + 1) st s m keyword v where
  leads := .inside ⟨st, rfl⟩ hask h.leads
  breaking := by
    have hexport : ∀ keyword declaration, st ≠ .exportDecl keyword declaration := by
      rintro keyword declaration rfl
      obtain rfl : st₁ = declaration := by cases hask.mayAsk; rfl
      cases st₁ with
      | var _ _ | function _ | classDecl _ _ _ => exact h.exposed true trivial
      | _ => cases hproper.1
    exact (execute_breaking hask hexport h.breaking :)
  exposed inFunction hst := by
    refine h.exposed inFunction ?_
    have hmay := hask.mayAsk
    cases st with
    | block body =>
      obtain ⟨st, hmem, heq⟩ := hmay
      cases heq
      exact Stmt.allDisciplined_iff.1 hst st₁ hmem
    | ifElse condition yes no =>
      obtain heq | heq | ⟨other, rfl, heq⟩ := hmay
      · cases heq
      · cases heq
        cases no with
        | none => exact hst
        | some no => exact hst.1
      · cases heq
        exact hst.2
    | exportDecl keyword declaration =>
      cases hmay
      exact hst
    | whileLoop condition body => cases hmay
    | importModule keyword path =>
      obtain ⟨_, _, heq⟩ := hmay
      cases heq
    | _ =>
      obtain ⟨_, heq⟩ := hmay
      cases heq

/-- The `break` that is carried out in `v` is that of the body of a loop, and the loop ends
there. -/
structure BreakTaken (n : Nat) (t : Task) (s : Session) (m : Nat) (keyword : Token) (v : Session)
    (condition : Expr) (body : Stmt) (j : Nat) (u : Session) : Prop where
  loop : Leads anyhow n t s (j + 1) (.loop condition body) u
  inside : ∃ u₁, (worker j).Asks (.loop condition body) u (.execute body) u₁ ∧
    Leads isStatement j (.execute body) u₁ m (.execute (.breakLoop keyword)) v
  ends : (worker (j + 1) (.loop condition body)).on u =
    (.ok .normal, { v with context := u.context })

theorem break_taken (h : Leads anyhow n t s (m + 1) (.execute (.breakLoop keyword)) v)
    (hsound : ∀ j t' s', Leads anyhow n t s (j + 1) t' s' → t'.Sound) :
    (∃ st, t = .execute st ∧ Breaks n st s (m + 1) keyword v) ∨
      ∃ condition body j u, BreakTaken n t s (m + 1) keyword v condition body j u := by
  generalize hk : m + 1 = k at h ⊢
  generalize ht : Task.execute (.breakLoop keyword) = t' at h
  induction h with
  | here =>
    subst hk ht
    exact .inl ⟨_, rfl, .here, rfl, nofun⟩
  | @inside t n s t₁ s₁ k t' v _ hask hrest ih =>
    subst ht
    rcases ih (fun j t' s' hin => hsound j t' s' (.inside trivial hask hin)) hk rfl with
      ⟨st₁, rfl, hbreaks⟩ | ⟨condition, body, j, u, htaken⟩
    · have hsound' := hsound n t s .here
      rcases Task.mayAsk_execute hask.mayAsk with ⟨st, rfl⟩ | ⟨condition, rfl⟩ |
        ⟨body, rfl, hmem⟩ | ⟨closure, site, arguments, rfl, hmem⟩
      · exact .inl ⟨st, rfl, hbreaks.outwards hask hsound'⟩
      · exact .inr ⟨condition, st₁, n, s, .here, ⟨s₁, hask, hbreaks.leads⟩,
          loop_takes_break hask hbreaks.breaking⟩
      · exact (hbreaks.exposed _ (Stmt.allDisciplined_iff.1 hsound' st₁ hmem)).elim
      · exact (hbreaks.exposed _ (Stmt.allDisciplined_iff.1 hsound' st₁ hmem)).elim
    · obtain ⟨hloop, hbody, hends⟩ := htaken
      exact .inr ⟨condition, body, j, u, .inside trivial hask hloop, hbody, hends⟩

/-- The rounds of a loop belong to a loop statement, which ends as each of them does. -/
theorem Leads.whileLoop (h : Leads anyhow n t s j (.loop condition body) u) :
    (t = .loop condition body ∧
      Leads (· = .loop condition body) n (.loop condition body) s j (.loop condition body) u ∧
      (worker n (.loop condition body)).on s = (worker j (.loop condition body)).on u) ∨
    ∃ i u₀, Leads anyhow n t s (i + 1) (.execute (.whileLoop condition body)) u₀ ∧
      Leads (· = .loop condition body) i (.loop condition body) u₀ j (.loop condition body) u ∧
      (worker (i + 1) (.execute (.whileLoop condition body))).on u₀ =
        (worker j (.loop condition body)).on u := by
  obtain ⟨t', ht⟩ : ∃ t', t' = Task.loop condition body := ⟨_, rfl⟩
  rw [← ht] at h
  induction h with
  | here =>
    subst ht
    exact .inl ⟨rfl, .here, rfl⟩
  | @inside t n s t₁ s₁ j t' u _ hask hrest ih =>
    subst ht
    rcases ih rfl with ⟨rfl, hrounds, hsame⟩ | ⟨i, u₀, hloop, hrounds, hsame⟩
    · rcases Task.mayAsk_loop hask.mayAsk with rfl | rfl
      · obtain ⟨-, rfl⟩ := Asking.ask_iff.1
          (show Asking (fun w => w (.loop condition body)) (worker n) s _ _ from hask)
        exact .inr ⟨n, s, .here, hrounds, hsame⟩
      · exact .inl ⟨rfl, .inside rfl hask hrounds, (loop_next hask).trans hsame⟩
    · exact .inr ⟨i, u₀, .inside trivial hask hloop, hrounds, hsame⟩

/-- All tasks of an entry are about code that was accepted. -/
theorem Leads.sound (hs : Reachable units s₀) (hp : Entry.prepared entry s₀.nextId = .ok p)
    (hin : Leads anyhow fuel p.tree.task (s₀.commit p) (m + 1) t s) : t.Sound := by
  obtain ⟨haccepts, hmain⟩ := hs.accepted
  have hpre := haccepts.entered hmain (entry.checked hp)
  have hat := (Account.comesTo (fun (h : False) _ _ _ => h.elim) hpre hin.comesTo).2
  cases t with
  | interpret body =>
    rcases hin.interpret with ⟨-, heq, -⟩ | ⟨-, path, s₁, q, -, hfirst, rfl, -⟩
    · refine (entry.checked hp).disciplined ?_
      generalize p.tree = tree at heq ⊢
      cases tree <;> cases heq
      rfl
    · obtain ⟨source, -, hq⟩ := hfirst.ready
      exact (program_checked hq).disciplined rfl
  | invoke closure site arguments =>
    obtain ⟨⟨unit, top, σ, hknows, hinside, -⟩, -⟩ := hat
    obtain ⟨notes, hunit, -⟩ := hknows.noted
    exact (hinside.analysed hunit).disciplined
  | execute st =>
    obtain ⟨σ, unit, top, hknows, hinside, -⟩ := hat
    obtain ⟨notes, hunit, -⟩ := hknows.noted
    exact (hinside.analysed hunit).proper.1
  | _ => trivial

/-- In every run of accepted code: the statements of a top level, if they end, end normally; the
bodies of functions end normally or return; so do loops. A `break` that is carried out stands in the
body of a loop, with statements only between the two, and the loop statement ends normally in the
session that the `break` was carried out in, back in its own context. -/
theorem exits_stay_inside (hs : Reachable units s₀)
    (hp : Entry.prepared entry s₀.nextId = .ok p)
    (hin : Leads anyhow fuel p.tree.task (s₀.commit p) (m + 1) t s) :
    (∀ body, t = .interpret body → ∀ st ∈ body, ∀ k v flow v',
      (worker k (.execute st)).on v = (.ok flow, v') → flow = .normal) ∧
    (∀ closure site arguments, t = .invoke closure site arguments → ∀ k v flow v',
      (Run.inSequence (worker k).execute closure.routine.body).on v = (.ok flow, v') →
        flow ≠ .breaking) ∧
    (∀ condition body, t = .execute (.whileLoop condition body) → ∀ k v flow v',
      (worker k (.execute (.whileLoop condition body))).on v = (.ok flow, v') →
        flow ≠ .breaking) ∧
    ∀ keyword, t = .execute (.breakLoop keyword) → ∃ condition body i u₀,
      Leads anyhow fuel p.tree.task (s₀.commit p) (i + 1)
        (.execute (.whileLoop condition body)) u₀ ∧
      (∃ j u u₁, Leads (· = .loop condition body) i (.loop condition body) u₀
          (j + 1) (.loop condition body) u ∧
        (worker j).Asks (.loop condition body) u (.execute body) u₁ ∧
        Leads isStatement j (.execute body) u₁ (m + 1) (.execute (.breakLoop keyword)) s) ∧
      (worker (i + 1) (.execute (.whileLoop condition body))).on u₀ =
        (.ok .normal, { s with context := u₀.context }) := by
  have hsound : t.Sound := hin.sound hs hp
  refine ⟨?_, ?_, ?_, ?_⟩
  · rintro body rfl st hst k v flow v' hrun
    have hfits : flow.Fits false false :=
      ((worker_flows k (.execute st) v trivial).result hrun) _ _
        (Stmt.allDisciplined_iff.1 hsound st hst)
    cases flow with
    | normal => rfl
    | breaking => cases hfits
    | returning value => cases hfits
  · rintro closure site arguments rfl k v flow v' hrun rfl
    have hbody : EndsIn true false (Run.inSequence (worker k).execute closure.routine.body) :=
      .inSequence fun st hst =>
        executes_endsIn (worker_flows k) (Stmt.allDisciplined_iff.1 hsound st hst)
    cases (hbody v).result hrun
  · rintro condition body rfl k v flow v' hrun
    cases k with
    | zero => cases hrun
    | succ k => exact ((worker_flows k (.loop condition body) v trivial).result hrun).1
  · rintro keyword rfl
    have hnodes (j : Nat) (t' : Task) (s' : Session)
        (h : Leads anyhow fuel p.tree.task (s₀.commit p) (j + 1) t' s') : t'.Sound := h.sound hs hp
    have hroot (st : Stmt) : p.tree.task ≠ .execute st := by
      cases p.tree <;> nofun
    have hroot' (condition : Expr) (body : Stmt) : p.tree.task ≠ .loop condition body := by
      cases p.tree <;> nofun
    obtain ⟨st, heq, -⟩ | ⟨condition, body, j, u, hloop, ⟨u₁, hask, hleads⟩, hends⟩ :=
      break_taken hin hnodes
    · exact absurd heq (hroot st)
    · obtain ⟨heq, -⟩ | ⟨i, u₀, hwhile, hrounds, hsame⟩ := hloop.whileLoop
      · exact absurd heq (hroot' condition body)
      · refine ⟨condition, body, i, u₀, hwhile, ⟨j, u, u₁, hrounds, hask, hleads⟩, ?_⟩
        have hcontext := (worker_later (i + 1) (.execute (.whileLoop condition body)) u₀).context
        rw [hsame, hends] at hcontext
        rw [hsame, hends, ← hcontext]

/-- A loop whose first round ends in a `break`. -/
def breaker : Stmt :=
  .whileLoop (.literal (.bool true)) (.block [.breakLoop ⟨.kwBreak, "break", 1⟩])

def breakingOut : Prepared Line :=
  ⟨.statements [breaker], [], 0⟩

def beforeBreak : Session :=
  (Session.start (fun _ => none) none (.still 0)).commit breakingOut

/-- The session in which the `break` is carried out. -/
def atBreak : Session :=
  { beforeBreak with
    frames := beforeBreak.frames.addScope rootFrame (.block [.breakLoop ⟨.kwBreak, "break", 1⟩])
    context := ⟨beforeBreak.frames.next, rootFrame, []⟩ }

theorem leads_break : Leads anyhow 6 breakingOut.tree.task beforeBreak 2
    (.execute (.breakLoop ⟨.kwBreak, "break", 1⟩)) atBreak := by
  have hloop : BeginsWith (.interpret [breaker]) beforeBreak (.execute breaker) beforeBreak :=
    fun _ _ h => Run.on_bind_error h
  have hround : BeginsWith (.execute breaker) beforeBreak (.loop (.literal (.bool true))
      (.block [.breakLoop ⟨.kwBreak, "break", 1⟩])) beforeBreak := fun _ _ h => h
  have hbody : (worker 3).Asks (.loop (.literal (.bool true))
      (.block [.breakLoop ⟨.kwBreak, "break", 1⟩])) beforeBreak
      (.execute (.block [.breakLoop ⟨.kwBreak, "break", 1⟩])) beforeBreak := by
    intro halt
    have hvalue : ((worker 3).unless (stopAt nowhere (.execute (.block
        [.breakLoop ⟨.kwBreak, "break", 1⟩])) beforeBreak halt)
          (.evaluate (.literal (.bool true)))).on
        beforeBreak = (.ok (.bool true), beforeBreak) := by
      rw [Worker.unless_on_of_none (stopAt_elsewhere fun h => by cases h.1)]
      rfl
    refine (congrArg Prod.fst (Run.on_bind _ _ _)).trans ?_
    rw [hvalue]
    exact Run.on_bind_error (by rw [Worker.unless_on_of_some stopAt_here])
  have hbreak : BeginsWith (.execute (.block [.breakLoop ⟨.kwBreak, "break", 1⟩])) beforeBreak
      (.execute (.breakLoop ⟨.kwBreak, "break", 1⟩)) atBreak := by
    intro w halt h
    have hinner : ((Run.inSequence w.execute [.breakLoop ⟨.kwBreak, "break", 1⟩]).on atBreak).1 =
        .error halt := Run.on_bind_error h
    exact hinner
  exact .inside trivial (hloop.asks _) (.inside trivial (hround.asks _) (.inside trivial hbody
    (.inside trivial (hbreak.asks _) .here)))

/-- The `break` leaves the block and is taken by the loop. -/
theorem break_leaves_its_loop :
    Leads anyhow 6 breakingOut.tree.task beforeBreak 2
      (.execute (.breakLoop ⟨.kwBreak, "break", 1⟩)) atBreak ∧
    ∃ condition body i u₀, Leads anyhow 6 breakingOut.tree.task beforeBreak (i + 1)
        (.execute (.whileLoop condition body)) u₀ ∧
      (worker (i + 1) (.execute (.whileLoop condition body))).on u₀ =
        (.ok .normal, { atBreak with context := u₀.context }) := by
  have hp : (Entry.unit "while(true)\x7bbreak;\x7d").prepared 0 = .ok breakingOut := by
    decide +kernel
  obtain ⟨condition, body, i, u₀, hwhile, -, hends⟩ :=
    (exits_stay_inside .start hp leads_break).2.2.2 _ rfl
  exact ⟨leads_break, condition, body, i, u₀, hwhile, hends⟩

end Treewalk
