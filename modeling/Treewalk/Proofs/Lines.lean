import Treewalk.Proofs.Histories

/-!
# Lines that end in an expression

A typed line may end in an expression without semicolon, and shows its value. What stands before the
expression is read, but the line that comes out of it is the expression alone: the statements are
not run. So the line does what its statements and then its expression would do only where running
the statements first makes no difference, as when there are none.
-/

namespace Treewalk

namespace Parser

-- ---------------------------------------------------------------------------
-- How expressions begin
-- ---------------------------------------------------------------------------

def opensExpression : Kind → Bool
  | .kwFalse | .kwTrue | .kwNil | .number _ | .text _ | .kwThis | .identifier | .leftParen
  | .leftBracket | .bang | .minus => true
  | _ => false

theorem readPrimary_opens (h : Reads (readPrimary depth) c e c') :
    opensExpression c.peek.kind = true := by
  cases depth with
  | zero => exact (reads_fail.1 h).elim
  | succ depth =>
    obtain ⟨t, c₁, hpeek, h⟩ := reads_bind.1 h
    obtain ⟨rfl, rfl⟩ := reads_peek.1 hpeek
    split at h
    case h_10 =>
      split at h
      · obtain ⟨_, _, -, h⟩ := reads_bind.1 h
        exact (reads_throw.1 h).elim
      · exact (reads_fail.1 h).elim
    all_goals
      next hkind =>
      rw [hkind]
      rfl

/-- Whatever its level, an expression begins with its first operand or an operator before it. -/
theorem readLevel_opens (h : Reads (readLevel depth level) c e c') :
    opensExpression c.peek.kind = true := by
  induction depth generalizing level c e c' with
  | zero => cases level <;> exact (reads_fail.1 h).elim
  | succ depth ih =>
    cases level with
    | unary =>
      obtain ⟨found, c₁, haccept, hrest⟩ := reads_bind.1 h
      obtain ⟨rfl, rfl⟩ | ⟨t, rest, hnext, hkind, rfl, rfl⟩ := reads_acceptIf haccept
      · exact ih hrest
      · have hpeek : c.peek = t := by simp [Cursor.peek, hnext]
        rw [hpeek]
        unfold isUnaryOperator at hkind
        split at hkind
        · next hbang => rw [hbang]; rfl
        · next hminus => rw [hminus]; rfl
        · cases hkind
    | primary => exact readPrimary_opens h
    | _ =>
      obtain ⟨_, _, hfirst, -⟩ := reads_bind.1 h
      exact ih hfirst

theorem expression_opens (h : Reads expression c e c') : opensExpression c.peek.kind = true := by
  obtain ⟨_, _, hget, hread⟩ := reads_bind.1 h
  obtain ⟨rfl, rfl⟩ := reads_get.1 hget
  exact readLevel_opens hread

/-- An expression that ends the line is a declaration that does without semicolon. -/
theorem declaration_of_expression (h : Reads expression c e c₁) (hlenient : c₁.lenient = true)
    (hend : c₁.rest = []) :
    Reads declaration c (.expression e) { c₁ with bare := true } := by
  have hopens := expression_opens h
  have hstatement : Reads readExpressionStatement c (.expression e) { c₁ with bare := true } := by
    refine reads_bind.2 ⟨e, c₁, h, (endExpression_run e c₁).trans ?_⟩
    simp [hlenient, hend]
  refine reads_bind.2 ⟨c, c, rfl, reads_recovering.2 (reads_bind.2 ⟨c.peek, c, rfl, ?_⟩)⟩
  split
  case h_6 =>
    refine reads_bind.2 ⟨c.peek, c, rfl, ?_⟩
    split
    case h_8 => exact hstatement
    all_goals simp_all [opensExpression]
  all_goals simp_all [opensExpression]

-- ---------------------------------------------------------------------------
-- Statements and then an expression
-- ---------------------------------------------------------------------------

/-- From `c` the statements of `body` are read one after the other. -/
inductive ReadsBody : Cursor → List Stmt → Cursor → Prop
  | nil : ReadsBody c [] c
  | cons : Reads declaration c first c₁ → ReadsBody c₁ body c' → ReadsBody c (first :: body) c'

theorem ReadsBody.before (h : ReadsBody c body c') (hc : c.Worded) : c.Before c' := by
  induction h with
  | nil => exact .refl _
  | cons hfirst _ ih =>
    obtain ⟨hbefore, -⟩ := declaration_takes.good hfirst hc
    exact hbefore.trans (ih (hbefore.worded hc))

theorem expression_rest (h : Reads expression c e c') (hstop : c.stop.kind = .endOfInput) :
    c.rest ≠ [] := by
  intro hend
  have hopens := expression_opens h
  rw [show c.peek = c.stop by simp [Cursor.peek, hend], hstop] at hopens
  cases hopens

theorem readLine_last (h : Reads declaration c (.expression e) c') (hbare : c'.bare = true)
    (hne : c.rest ≠ []) : Reads (readLine (fuel + 1)) c (.expression e) c' := by
  refine reads_bind.2 ⟨false, c, ?_, reads_bind.2 ⟨_, c', h, reads_bind.2 ⟨c', c', rfl, ?_⟩⟩⟩
  · exact reads_bind.2 ⟨c, c, rfl, reads_pure.2 ⟨by simpa using hne, rfl⟩⟩
  · rw [hbare]
    exact reads_pure.2 ⟨rfl, rfl⟩

/-- The statements before the expression leave no trace in the line. -/
theorem readLine_step (h : Reads declaration c first c₁) (hbare : c₁.bare = false)
    (hne : c.rest ≠ []) (hrest : Reads (readLine fuel) c₁ (.expression e) c') :
    Reads (readLine (fuel + 1)) c (.expression e) c' := by
  refine reads_bind.2 ⟨false, c, ?_, reads_bind.2 ⟨_, c₁, h, reads_bind.2 ⟨c₁, c₁, rfl, ?_⟩⟩⟩
  · exact reads_bind.2 ⟨c, c, rfl, reads_pure.2 ⟨by simpa using hne, rfl⟩⟩
  · rw [hbare]
    exact reads_bind.2 ⟨_, c', hrest, reads_pure.2 ⟨rfl, rfl⟩⟩

theorem readLine_reads (hbody : ReadsBody c body c₁) (hlast : Reads expression c₁ e c₂)
    (hend : c₂.rest = []) (hc : c.Worded) (hstop : c.stop.kind = .endOfInput)
    (hlenient : c.lenient = true) (hbare : c.bare = false) (hfuel : c.rest.length < fuel) :
    Reads (readLine fuel) c (.expression e) { c₂ with bare := true } := by
  induction hbody generalizing fuel with
  | nil =>
    obtain ⟨fuel, rfl⟩ := Nat.exists_eq_add_of_lt hfuel
    have hlenient₁ := (expression_spells.good hlast hc).1.lenient.trans hlenient
    have hdeclaration := declaration_of_expression hlast hlenient₁ hend
    exact readLine_last hdeclaration rfl (expression_rest hlast hstop)
  | @cons c first c' body c₁ hfirst hbody ih =>
    obtain ⟨hbefore, -⟩ := declaration_takes.good hfirst hc
    have hlater := hbody.before (hbefore.worded hc)
    -- There is more to read behind each of the statements, at least the expression.
    have hne₁ : c₁.rest ≠ [] :=
      expression_rest hlast ((hlater.stop.trans hbefore.stop) ▸ hstop)
    have hne' : c'.rest ≠ [] := fun h => hne₁ (List.suffix_nil.1 (h ▸ hlater.rest))
    have hne : c.rest ≠ [] := fun h => hne' (List.suffix_nil.1 (h ▸ hbefore.rest))
    have hbare' : c'.bare = false := by
      refine Bool.eq_false_iff.2 fun h => ?_
      rcases hbefore.bare h with h | h
      · exact absurd (hbare.symm.trans h) Bool.false_ne_true
      · exact hne' h
    obtain ⟨fuel, rfl⟩ := Nat.exists_eq_add_of_lt hfuel
    have hless := declaration_takes.less hfirst hc hne
    refine readLine_step hfirst hbare' hne ?_
    exact ih hlast (hbefore.worded hc) (hbefore.stop ▸ hstop) (hbefore.lenient.trans hlenient)
      hbare' (by omega)

theorem ofTokens_stop (tokens : List Token) (lenient : Bool) (start : NodeId) :
    (Cursor.ofTokens tokens lenient start).stop.kind = .endOfInput := by
  cases hstop : tokens.find? (·.kind = .endOfInput) with
  | none => simp only [Cursor.ofTokens, hstop, Option.getD_none, Token.finish]
  | some t =>
    simp only [Cursor.ofTokens, hstop, Option.getD_some]
    simpa using List.find?_some hstop

end Parser

/-- The line is the statements of `body` and then the expression of `last` without semicolon, and
both pass all static checks. -/
inductive Mixed (source : String) (start : NodeId) : Prepared (List Stmt) → Prepared Expr → Prop
  | intro : Lexer.scan (Text.Utf8.encode source) = .ok tokens →
    Parser.ReadsBody (Parser.Cursor.ofTokens tokens true start) body c₁ →
    Parser.Reads Parser.expression c₁ last c₂ → c₂.rest = [] →
    Scope.program body = .ok bodyNotes → Scope.loneExpression last = .ok notes →
    Mixed source start ⟨body, bodyNotes, c₁.nextId⟩ ⟨last, notes, c₂.nextId⟩

/-- All that comes out of the line is the expression. -/
theorem Mixed.prepared (h : Mixed source start body last) :
    Prepared.line source start = .ok (last.mapTree .expression) := by
  obtain ⟨hscan, hbody, hlast, hend, -, hnotes⟩ := h
  next tokens body c₁ last c₂ bodyNotes notes =>
  have hworded : (Parser.Cursor.ofTokens tokens true start).Worded :=
    Parser.ofTokens_worded fun t ht => Lexer.scan_worded hscan ht
  have hread := Parser.readLine_reads hbody hlast hend hworded (Parser.ofTokens_stop ..) rfl rfl
    (Nat.lt_succ_self _)
  have hline : Parser.line tokens start = (.ok (.expression last), c₂.nextId) := by
    simp only [Parser.line]
    rw [hread]
  unfold Prepared.line Prepared.ofSource
  rw [hscan]
  show (do
    let tree ← (Parser.line tokens start).1
    let notes ← Prepared.walkLine tree
    return (⟨tree, notes, (Parser.line tokens start).2⟩ : Prepared Line)) = _
  rw [hline]
  show (do
    let notes ← Scope.loneExpression last
    return (⟨.expression last, notes, c₂.nextId⟩ : Prepared Line)) = _
  rw [hnotes]
  rfl

namespace Run

def inTurn (fuel : Nat) (body : Prepared (List Stmt)) (last : Prepared Expr) :
    Run (Option Value) := do
  executeUnit fuel (← commit body)
  return some (← evaluate fuel (← commit last))

def shown (fuel : Nat) (last : Prepared Expr) : Run (Option Value) := do
  return some (← evaluate fuel (← commit last))

theorem on_shown (fuel : Nat) (last : Prepared Expr) (s : Session) :
    (shown fuel last).on s =
      (((evaluate fuel last.tree).on (s.commit last)).1.map some,
        ((evaluate fuel last.tree).on (s.commit last)).2) := by
  simp only [shown, on_bind, on_commit]
  rcases (evaluate fuel last.tree).on (s.commit last) with ⟨_ | _, _⟩ <;> rfl

theorem on_inTurn (fuel : Nat) (body : Prepared (List Stmt)) (last : Prepared Expr) (s : Session) :
    (inTurn fuel body last).on s =
      match (executeUnit fuel body.tree).on (s.commit body) with
      | (.ok _, s') => (shown fuel last).on s'
      | (.error h, s') => (.error h, s') := by
  show (executeUnit fuel body.tree >>= fun _ => shown fuel last).on (s.commit body) = _
  rw [on_bind]
  rcases (executeUnit fuel body.tree).on (s.commit body) with ⟨_ | _, _⟩ <;> rfl

end Run

/-- Running the statements first makes no difference to the expression: it does from where they end
what it does from where they begin, or what they fail with. -/
def Session.Indifferent (s : Session) (fuel : Nat) (body : Prepared (List Stmt))
    (last : Prepared Expr) : Prop :=
  Triple (Run.executeUnit fuel body.tree) (s.commit body)
    (fun _ s' => (Run.evaluate fuel last.tree).on (s.commit last) =
      (Run.evaluate fuel last.tree).on (s'.commit last))
    (fun h s' => (Run.evaluate fuel last.tree).on (s.commit last) = (.error h, s'))

theorem Run.shown_on_eq_iff : (Run.shown fuel last).on s = (Run.shown fuel last).on s' ↔
    (Run.evaluate fuel last.tree).on (s.commit last) =
      (Run.evaluate fuel last.tree).on (s'.commit last) := by
  rw [Run.on_shown, Run.on_shown]
  rcases (Run.evaluate fuel last.tree).on (s.commit last) with ⟨_ | _, _⟩ <;>
    rcases (Run.evaluate fuel last.tree).on (s'.commit last) with ⟨_ | _, _⟩ <;>
    simp [Except.map]

theorem Run.shown_on_error_iff : (Run.shown fuel last).on s = (.error h, s') ↔
    (Run.evaluate fuel last.tree).on (s.commit last) = (.error h, s') := by
  rw [Run.on_shown]
  rcases (Run.evaluate fuel last.tree).on (s.commit last) with ⟨_ | _, _⟩ <;> simp [Except.map]

theorem Session.indifferent_iff : s.Indifferent fuel body last ↔
    (Run.shown fuel last).on s = (Run.inTurn fuel body last).on s := by
  rw [Run.on_inTurn]
  unfold Session.Indifferent Triple
  rcases (Run.executeUnit fuel body.tree).on (s.commit body) with ⟨h | _, s'⟩
  · exact Run.shown_on_error_iff.symm
  · exact Run.shown_on_eq_iff.symm

theorem Mixed.on_line {s : Session} (h : Mixed source s.nextId body last) (fuel : Nat) :
    (Run.line fuel source).on s = (Run.shown fuel last).on s := by
  rw [Run.on_shown]
  exact Entry.on_run_ok (.line source) fuel h.prepared

theorem Mixed.indifferent {s : Session} (h : Mixed source s.nextId body last)
    (hbody : body.tree = [])
    (hfuel : 0 < fuel) : s.Indifferent fuel body last := by
  obtain ⟨-, hread, -, -, hnotes, -⟩ := h
  cases hbody
  cases hread
  cases hnotes
  obtain ⟨fuel, rfl⟩ := Nat.exists_eq_add_of_lt hfuel
  exact Triple.of_ok rfl rfl

/-- A line that ends in an expression without semicolon gives the value of the expression and skips
the statements before it. It does what the statements and then the expression would do exactly where
running the statements first makes no difference, as when there are none. -/
theorem statements_run_before_the_value_iff {s : Session} (h : Mixed source s.nextId body last)
    (fuel : Nat) :
    (Run.line fuel source).on s = (Run.shown fuel last).on s ∧
    ((Run.line fuel source).on s = (Run.inTurn fuel body last).on s ↔
      s.Indifferent fuel body last) ∧
    (body.tree = [] → 0 < fuel →
      (Run.line fuel source).on s = (Run.inTurn fuel body last).on s) := by
  refine ⟨h.on_line fuel, ?_, fun hbody hfuel => ?_⟩
  · rw [h.on_line, Session.indifferent_iff]
  · rw [h.on_line]
    exact Session.indifferent_iff.1 (h.indifferent hbody hfuel)

/-- The statement of the line `var a=true;a`. -/
def declaring : Prepared (List Stmt) :=
  ⟨[.var ⟨.identifier, "a", 1⟩ (some (.literal (.bool true)))], [], 0⟩

def naming : Prepared Expr :=
  ⟨.var 0 ⟨.identifier, "a", 1⟩, [], 1⟩

theorem reads_naming : Parser.Reads Parser.expression
    ⟨[⟨.identifier, "a", 1⟩], .finish 1, true, false, 0⟩ naming.tree
    ⟨[], .finish 1, true, false, naming.nextId⟩ := by
  unfold Parser.Reads
  cbv

theorem mixed_naming : Mixed "var a=true;a" 0 declaring naming := by
  have hscan : Lexer.scan (Text.Utf8.encode "var a=true;a") = .ok
      [⟨.kwVar, "var", 1⟩, ⟨.identifier, "a", 1⟩, ⟨.equal, "=", 1⟩, ⟨.kwTrue, "true", 1⟩,
        ⟨.semicolon, ";", 1⟩, ⟨.identifier, "a", 1⟩, .finish 1] := by decide +kernel
  have hbody : Parser.Reads Parser.declaration (.ofTokens
      [⟨.kwVar, "var", 1⟩, ⟨.identifier, "a", 1⟩, ⟨.equal, "=", 1⟩, ⟨.kwTrue, "true", 1⟩,
        ⟨.semicolon, ";", 1⟩, ⟨.identifier, "a", 1⟩, .finish 1] true 0)
      (.var ⟨.identifier, "a", 1⟩ (some (.literal (.bool true))))
      ⟨[⟨.identifier, "a", 1⟩], .finish 1, true, false, 0⟩ := by
    unfold Parser.Reads
    cbv
  exact .intro hscan (.cons hbody .nil) reads_naming rfl rfl rfl

/-- The variable behind its declaration, and the variable alone. -/
theorem named_variable_is_shown :
    (Mixed "var a=true;a" 0 declaring naming ∧
      (Run.line 3 "var a=true;a").on (.start (fun _ => none) none (.still 0)) =
        (Run.shown 3 naming).on (.start (fun _ => none) none (.still 0))) ∧
    Mixed "a" 0 ⟨[], [], 0⟩ naming ∧
      (Run.line 3 "a").on (.start (fun _ => none) none (.still 0)) =
        (Run.inTurn 3 ⟨[], [], 0⟩ naming).on (.start (fun _ => none) none (.still 0)) := by
  have hscan : Lexer.scan (Text.Utf8.encode "a") = .ok [⟨.identifier, "a", 1⟩, .finish 1] := by
    decide +kernel
  have halone : Mixed "a" 0 ⟨[], [], 0⟩ naming := .intro hscan .nil reads_naming rfl rfl rfl
  have hmixed := statements_run_before_the_value_iff
    (s := .start (fun _ => none) none (.still 0)) mixed_naming 3
  have hvalue := statements_run_before_the_value_iff
    (s := .start (fun _ => none) none (.still 0)) halone 3
  exact ⟨⟨mixed_naming, hmixed.1⟩, halone, hvalue.2.2 rfl (by decide)⟩

/-- The declaration is not run, so that the variable is not there. -/
theorem declaration_before_the_value_is_skipped :
    Mixed "var a=true;a" 0 declaring naming ∧
    ((Run.line 3 "var a=true;a").on (.start (fun _ => none) none (.still 0))).1 =
      .error (.error (.runtime ⟨1, "a"⟩ (.undefinedVariable "a"))) ∧
    ((Run.inTurn 3 declaring naming).on (.start (fun _ => none) none (.still 0))).1 =
      .ok (some (.bool true)) := by
  refine ⟨mixed_naming, ?_, rfl⟩
  rw [Mixed.on_line (s := .start (fun _ => none) none (.still 0)) mixed_naming]
  rfl

end Treewalk
