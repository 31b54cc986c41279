import Treewalk.Proofs.Histories

/-!
# Mistakes in a source

A source that is refused has a mistake: it cannot be cut into tokens, its tokens cannot be read, or
something stands where it must not. The error says which of these it is, and nothing else.
-/

namespace Treewalk

/-- The errors of a source that has not run. -/
inductive Error.Mistake : Error → Prop
  | lex : Mistake (.lex line fault)
  | parse : Mistake (.parse site fault)
  | scope : Mistake (.scope site fault)

/-- If there is no result, the error is as `Bad` says. -/
def Refused (Bad : Error → Prop) (r : Except Error α) : Prop :=
  ∀ e, r = .error e → Bad e

namespace Refused

variable {Bad : Error → Prop}

theorem pure (a : α) : Refused Bad (Pure.pure a) :=
  fun _ h => (nomatch h)

theorem throw (h : Bad e) : Refused Bad (MonadExcept.throw e : Except Error α) := by
  rintro _ ⟨⟩
  exact h

theorem bind {r : Except Error α} {f : α → Except Error β} (hr : Refused Bad r)
    (hf : ∀ a, r = .ok a → Refused Bad (f a)) : Refused Bad (r >>= f) := by
  intro e h
  cases r with
  | error e' =>
    cases h
    exact hr e rfl
  | ok a => exact hf a rfl e h

theorem map {r : Except Error α} (hr : Refused Bad r) (f : α → β) : Refused Bad (f <$> r) := by
  rw [map_eq_pure_bind]
  exact hr.bind fun _ _ => pure _

end Refused

-- ---------------------------------------------------------------------------
-- Tokens
-- ---------------------------------------------------------------------------

theorem Lexer.itemsFrom_mistake (h : .error e ∈ itemsFrom line source) : e.Mistake := by
  fun_induction itemsFrom line source with
  | case1 line => simp at h
  | case2 line first rest head after later hrole ih => exact ih h
  | case3 line first rest head after later hrole ih => exact ih h
  | case4 line first rest head after later kind hrole ih =>
    rcases List.mem_cons.1 h with heq | hlater
    · cases heq
    · exact ih hlater
  | case5 line first rest head after later fault hrole ih =>
    rcases List.mem_cons.1 h with heq | hlater
    · cases heq
      exact .lex
    · exact ih hlater

theorem Lexer.scan_refused (source : List UInt8) : Refused Error.Mistake (scan source) := by
  have hitems : ∀ e, .error e ∈ items source → e.Mistake := fun e h => itemsFrom_mistake h
  unfold scan
  generalize items source = list at hitems
  induction list with
  | nil => exact .pure _
  | cons item list ih =>
    rw [List.mapM_cons]
    refine .bind ?_ fun _ _ => .bind (ih fun e h => hitems e (List.mem_cons_of_mem _ h)) fun _ _ =>
      .pure _
    rintro e rfl
    exact hitems e List.mem_cons_self

-- ---------------------------------------------------------------------------
-- Scopes
-- ---------------------------------------------------------------------------

namespace Scope

mutual

theorem walkExpr_refused (around : Surroundings) (scopes : Scopes) :
    ∀ e, Refused Error.Mistake (walkExpr around scopes e)
  | .literal _ => .pure _
  | .group inner => walkExpr_refused around scopes inner
  | .unary _ right => walkExpr_refused around scopes right
  | .binary _ left right =>
    .bind (walkExpr_refused around scopes left) fun _ _ =>
      .bind (walkExpr_refused around scopes right) fun _ _ => .pure _
  | .logical _ left right =>
    .bind (walkExpr_refused around scopes left) fun _ _ =>
      .bind (walkExpr_refused around scopes right) fun _ _ => .pure _
  | .conditional condition yes no =>
    .bind (walkExpr_refused around scopes condition) fun _ _ =>
      .bind (walkExpr_refused around scopes yes) fun _ _ =>
        .bind (walkExpr_refused around scopes no) fun _ _ => .pure _
  | .var _ _ => by
    unfold walkExpr
    split
    · exact .throw .scope
    · exact .pure _
  | .assign _ _ value => .bind (walkExpr_refused around scopes value) fun _ _ => .pure _
  | .this _ _ => by
    unfold walkExpr
    split
    · exact .pure _
    · exact .throw .scope
  | .call callee _ arguments =>
    .bind (walkExpr_refused around scopes callee) fun _ _ =>
      .bind (walkExprs_refused around scopes arguments) fun _ _ => .pure _
  | .get object _ => walkExpr_refused around scopes object
  | .set object _ value =>
    .bind (walkExpr_refused around scopes value) fun _ _ =>
      .bind (walkExpr_refused around scopes object) fun _ _ => .pure _
  | .array elements => walkExprs_refused around scopes elements
  | .index target _ position =>
    .bind (walkExpr_refused around scopes target) fun _ _ =>
      .bind (walkExpr_refused around scopes position) fun _ _ => .pure _

theorem walkExprs_refused (around : Surroundings) (scopes : Scopes) :
    ∀ es, Refused Error.Mistake (walkExprs around scopes es)
  | [] => .pure _
  | e :: rest =>
    .bind (walkExpr_refused around scopes e) fun _ _ =>
      .bind (walkExprs_refused around scopes rest) fun _ _ => .pure _

end

theorem walkOption_refused (around : Surroundings) (scopes : Scopes) (e : Option Expr) :
    Refused Error.Mistake (walkOption around scopes e) := by
  cases e with
  | none => exact .pure _
  | some e => exact walkExpr_refused around scopes e

mutual

theorem walkStmt_refused (around : Surroundings) (scopes : Scopes) :
    ∀ s, Refused Error.Mistake (walkStmt around scopes s)
  | .expression e => .bind (walkExpr_refused around scopes e) fun _ _ => .pure _
  | .print e => .bind (walkExpr_refused around scopes e) fun _ _ => .pure _
  | .var _ initial => .bind (walkOption_refused around _ initial) fun _ _ => .pure _
  | .block body => .bind (walkStmts_refused around _ body) fun _ _ => .pure _
  | .ifElse condition yes none =>
    .bind (walkExpr_refused around scopes condition) fun _ _ =>
      .bind (walkStmt_refused around scopes yes) fun _ _ => .pure _
  | .ifElse condition yes (some no) =>
    .bind (walkExpr_refused around scopes condition) fun _ _ =>
      .bind (walkStmt_refused around scopes yes) fun behind _ =>
        .bind (walkStmt_refused around behind.1 no) fun _ _ => .pure _
  | .whileLoop condition body =>
    .bind (walkExpr_refused around scopes condition) fun _ _ =>
      .bind (walkStmt_refused _ scopes body) fun _ _ => .pure _
  | .breakLoop _ => by
    unfold walkStmt
    split
    · exact .pure _
    · exact .throw .scope
  | .function routine => .bind (walkRoutine_refused around _ routine) fun _ _ => .pure _
  | .classDecl _ methods classMethods =>
    .bind (walkRoutines_refused _ _ methods) fun _ _ =>
      .bind (walkRoutines_refused _ _ classMethods) fun _ _ => .pure _
  | .returnValue _ value => by
    unfold walkStmt
    split
    · exact .bind (walkOption_refused around scopes value) fun _ _ => .pure _
    · exact .throw .scope
  | .importModule _ _ => .pure _
  | .exportDecl _ declaration => walkStmt_refused around scopes declaration

theorem walkStmts_refused (around : Surroundings) (scopes : Scopes) :
    ∀ body, Refused Error.Mistake (walkStmts around scopes body)
  | [] => .pure _
  | s :: rest =>
    .bind (walkStmt_refused around scopes s) fun behind _ =>
      .bind (walkStmts_refused around behind.1 rest) fun _ _ => .pure _

theorem walkRoutine_refused (around : Surroundings) (scopes : Scopes) :
    ∀ r, Refused Error.Mistake (walkRoutine around scopes r)
  | ⟨_, _, body⟩ => .bind (walkStmts_refused _ _ body) fun _ _ => .pure _

theorem walkRoutines_refused (around : Surroundings) (scopes : Scopes) :
    ∀ rs, Refused Error.Mistake (walkRoutines around scopes rs)
  | [] => .pure _
  | r :: rest =>
    .bind (walkRoutine_refused around scopes r) fun _ _ =>
      .bind (walkRoutines_refused around scopes rest) fun _ _ => .pure _

end

end Scope

-- ---------------------------------------------------------------------------
-- Whole sources
-- ---------------------------------------------------------------------------

namespace Prepared

theorem ofSource_refused {read : List Token → NodeId → Except Error α × NodeId}
    (hread : ∀ tokens e, (∀ t ∈ tokens, t.Worded) → (read tokens start).1 = .error e →
      ∃ site fault, e = .parse site fault)
    (hwalk : ∀ tree, Refused Error.Mistake (walk tree)) (source : String) :
    Refused Error.Mistake (ofSource read walk source start) := by
  refine (Lexer.scan_refused _).bind fun tokens htokens => .bind ?_ fun tree _ => ?_
  · intro e he
    obtain ⟨site, fault, rfl⟩ := hread tokens e (fun t ht => Lexer.scan_worded htokens ht) he
    exact .parse
  · exact (hwalk tree).bind fun _ _ => .pure _

theorem program_refused (source : String) (start : NodeId) :
    Refused Error.Mistake (program source start) :=
  ofSource_refused (fun _ _ ht h => Parser.program_refused ht h)
    (fun body => (Scope.walkStmts_refused .topLevel [] body).bind fun _ _ => .pure _) source

theorem loneExpression_refused (source : String) (start : NodeId) :
    Refused Error.Mistake (loneExpression source start) :=
  ofSource_refused (fun _ _ ht h => Parser.loneExpression_refused ht h)
    (Scope.walkExpr_refused .topLevel []) source

theorem line_refused (source : String) (start : NodeId) :
    Refused Error.Mistake (line source start) := by
  refine ofSource_refused (fun _ _ ht h => Parser.line_refused ht h) (fun l => ?_) source
  cases l with
  | statements body => exact (Scope.walkStmts_refused .topLevel [] body).bind fun _ _ => .pure _
  | expression e => exact Scope.walkExpr_refused .topLevel [] e

end Prepared

/-- A source that is refused has a mistake. -/
theorem Entry.prepared_refused (entry : Entry) (start : NodeId) :
    Refused Error.Mistake (entry.prepared start) := by
  cases entry with
  | unit source => exact (Prepared.program_refused source start).map _
  | expression source => exact (Prepared.loneExpression_refused source start).map _
  | line source => exact Prepared.line_refused source start

end Treewalk
