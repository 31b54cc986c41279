import Treewalk.Proofs.Changes
import Treewalk.Proofs.Onward
import Treewalk.Proofs.Supplied

/-!
# The ways into a session agree

A unit that is accepted does the same when it is typed as a line, and so does an expression, whose
value the line shows. Printing the expression in a unit does the same again and prints what the
value is displayed as. All of them read the same tree with the same identities.
-/

namespace Treewalk

namespace Parser

-- ---------------------------------------------------------------------------
-- The same tree
-- ---------------------------------------------------------------------------

theorem ofTokens_followed (tokens : List Token) (start : NodeId) :
    (Cursor.ofTokens tokens false start).followed [] true = Cursor.ofTokens tokens true start := by
  simp [Cursor.followed, Cursor.ofTokens]

/-- A declaration that is read strictly does not end the line. -/
theorem readLine_of_program (hc : c.stop.kind = .endOfInput) (hl : c.lenient = false)
    (hb : c.bare = false) (h : readProgram fuel c = (.ok body, d)) :
    Reads (readLine fuel) (c.followed [] true) (.statements body) (d.followed [] true) := by
  induction fuel generalizing c body with
  | zero => cases h
  | succ fuel ih =>
    have hend : Reads atEnd (c.followed [] true) c.rest.isEmpty (c.followed [] true) :=
      reads_atEnd.2 ⟨by rw [Cursor.followed, List.append_nil], rfl⟩
    rw [readProgram] at h
    split at h
    · next hempty =>
      cases h
      rw [hempty] at hend
      exact reads_bind.2 ⟨true, _, hend, reads_pure.2 ⟨rfl, rfl⟩⟩
    · next hempty =>
      rw [Bool.not_eq_true] at hempty
      rw [hempty] at hend
      split at h
      · next first c₁ hfirst =>
        split at h
        · next rest d' hrest =>
          cases h
          obtain ⟨hs, hfirst'⟩ := declaration_onward hc hl hfirst
          have hbare : (c₁.followed [] true).bare = false := hs.bare.trans hb
          have hlater := ih (hs.stop ▸ hc) (hs.lenient.trans hl) (hs.bare.trans hb) hrest
          refine reads_bind.2 ⟨false, _, hend, reads_bind.2 ⟨first, _, hfirst', ?_⟩⟩
          refine reads_bind.2 ⟨_, _, reads_get.2 ⟨rfl, rfl⟩, ?_⟩
          rw [hbare]
          exact reads_bind.2 ⟨_, _, hlater, reads_pure.2 ⟨rfl, rfl⟩⟩
        · cases h
      · cases h

theorem line_eq_ok (h : Reads (readLine ((Cursor.ofTokens tokens true start).rest.length + 1))
    (Cursor.ofTokens tokens true start) l d) (hnext : d.nextId = next) :
    line tokens start = (.ok l, next) := by
  simp only [line]
  rw [h]
  exact Prod.ext rfl hnext

theorem line_of_program (h : program tokens start = (.ok body, next)) :
    line tokens start = (.ok (.statements body), next) := by
  simp only [program] at h
  rcases hread : readProgram ((Cursor.ofTokens tokens false start).rest.length + 1)
    (Cursor.ofTokens tokens false start) with ⟨outcome, d⟩
  rw [hread] at h
  obtain rfl : outcome = .ok body := congrArg Prod.fst h
  obtain rfl : d.nextId = next := congrArg Prod.snd h
  have hreads := readLine_of_program (ofTokens_stop ..) rfl rfl hread
  rw [ofTokens_followed] at hreads
  exact line_eq_ok hreads rfl

/-- Nothing but one expression is read. -/
theorem loneExpression_reads (h : loneExpression tokens start = (.ok e, next)) :
    ∃ d, Reads expression (Cursor.ofTokens tokens false start) e d ∧ d.rest = [] ∧
      d.nextId = next := by
  have hok : (loneExpression tokens start).1 = .ok e := congrArg Prod.fst h
  obtain ⟨d, hread, rfl⟩ : ∃ d, Reads (do
      let e ← expression
      if ← atEnd then return e else fail .trailing) (Cursor.ofTokens tokens false start) e d ∧
        d.nextId = next :=
    ⟨_, Prod.ext hok rfl, congrArg Prod.snd h⟩
  obtain ⟨e', c₁, hexpression, hread⟩ := reads_bind.1 hread
  obtain ⟨ended, c₂, hend, hread⟩ := reads_bind.1 hread
  obtain ⟨rfl, rfl⟩ := reads_atEnd.1 hend
  split at hread
  · next hempty =>
    obtain ⟨rfl, rfl⟩ := reads_pure.1 hread
    exact ⟨_, hexpression, List.isEmpty_iff.1 hempty, rfl⟩
  · exact (reads_fail.1 hread).elim

theorem line_of_loneExpression (h : loneExpression tokens start = (.ok e, next)) :
    line tokens start = (.ok (.expression e), next) := by
  obtain ⟨d, hread, hend, rfl⟩ := loneExpression_reads h
  obtain ⟨-, hread'⟩ := expression_onward closing_nil true (ofTokens_stop ..) rfl hread
  rw [ofTokens_followed] at hread'
  have hdeclaration := declaration_of_expression hread' rfl (by simp [Cursor.followed, hend])
  have hne := expression_rest hread' (ofTokens_stop ..)
  have hline :=
    @readLine_last _ _ _ (Cursor.ofTokens tokens true start).rest.length hdeclaration rfl hne
  exact line_eq_ok hline rfl

/-- The semicolon that ends the statement does not go on with the expression. -/
theorem program_of_loneExpression (hbody : ∀ t ∈ body, t.kind ≠ .endOfInput)
    (hstop : stop.kind = .endOfInput)
    (h : loneExpression (body ++ [stop]) start = (.ok e, next))
    (hkeyword : keyword.kind = .kwPrint) (hsemicolon : semicolon.kind = .semicolon) :
    program (keyword :: body ++ [semicolon, stop]) start = (.ok [.print e], next) := by
  obtain ⟨d, hread, hend, rfl⟩ := loneExpression_reads h
  rw [ofTokens_closed hbody hstop] at hread
  have hafter : Closing [semicolon] := by simp [Closing, hsemicolon]
  obtain ⟨-, hread'⟩ := expression_onward hafter false hstop rfl hread
  have hopen : ∀ t ∈ keyword :: body ++ [semicolon], t.kind ≠ .endOfInput := by
    simp only [List.cons_append, List.mem_cons, List.mem_append, List.not_mem_nil, or_false]
    rintro t (rfl | ht | rfl)
    · simp [hkeyword]
    · exact hbody t ht
    · simp [hsemicolon]
  have hdeclaration :
      Reads declaration ⟨keyword :: (body ++ [semicolon]), stop, false, false, start⟩
      (.print e) { d.followed [semicolon] false with rest := [] } := by
    refine reads_bind.2 ⟨_, _, rfl, reads_recovering.2 (reads_bind.2 ⟨keyword, _, rfl, ?_⟩)⟩
    rw [hkeyword]
    refine reads_bind.2 ⟨keyword, _, rfl, ?_⟩
    rw [hkeyword]
    refine reads_bind.2 ⟨(), _, rfl, reads_bind.2 ⟨e, _, hread', ?_⟩⟩
    refine reads_bind.2 ⟨semicolon, { d.followed [semicolon] false with rest := [] }, ?_,
      reads_pure.2 ⟨rfl, rfl⟩⟩
    exact reads_expected (by simp [Cursor.followed, hend]) hsemicolon
  have hsplit : keyword :: body ++ [semicolon, stop] =
      (keyword :: body ++ [semicolon]) ++ [stop] := by simp
  rw [program, hsplit, ofTokens_closed hopen hstop]
  simp only [List.cons_append, List.length_cons, readProgram, List.isEmpty_cons, Bool.false_eq_true,
    if_false]
  rw [hdeclaration]
  rfl

end Parser

-- ---------------------------------------------------------------------------
-- The same run
-- ---------------------------------------------------------------------------

/-- The tree that is read from some tokens, ready to run. -/
def Prepared.ofTokens (read : List Token → NodeId → Except Error α × NodeId)
    (walk : α → Except Error (List Scope.Note)) (tokens : List Token) (nextId : NodeId) :
    Except Error (Prepared α) := do
  let (result, nextId) := read tokens nextId
  let tree ← result
  let notes ← walk tree
  return ⟨tree, notes, nextId⟩

section

variable {α : Type} {read : List Token → NodeId → Except Error α × NodeId}
  {walk : α → Except Error (List Scope.Note)} {tokens : List Token} {start : NodeId}

theorem Prepared.ofSource_scanned (h : Lexer.scan (Text.Utf8.encode source) = .ok tokens) :
    ofSource read walk source start = ofTokens read walk tokens start := by
  rw [ofSource, h]
  rfl

/-- What is read is committed once its scopes have been walked. -/
theorem Run.on_prepare_read {tree : α} {s : Session}
    (h : read tokens s.nextId = (.ok tree, next)) :
    (prepare (Prepared.ofTokens read walk tokens)).on s =
      match walk tree with
      | .ok notes => (.ok tree, s.commit (Prepared.mk tree notes next))
      | .error e => (.error (.error e), s) := by
  simp only [on_prepare, Prepared.ofTokens, h]
  cases hwalk : walk tree with
  | ok notes => simp only [hwalk, bind, Except.bind, pure, Except.pure]
  | error e => simp only [hwalk, bind, Except.bind]

end

namespace Run

/-- Runs the unit that some tokens are. -/
def unitOf (fuel : Nat) (tokens : List Token) : Run Unit := do
  executeUnit fuel (← prepare (Prepared.ofTokens Parser.program Scope.program tokens))

/-- Evaluates the expression that some tokens are. -/
def expressionOf (fuel : Nat) (tokens : List Token) : Run Value := do
  evaluate fuel (← prepare (Prepared.ofTokens Parser.loneExpression Scope.loneExpression tokens))

/-- Runs the line that some tokens are. -/
def lineOf (fuel : Nat) (tokens : List Token) : Run (Option Value) := do
  match ← prepare (Prepared.ofTokens Parser.line Prepared.walkLine tokens) with
  | .statements body =>
    executeUnit fuel body
    return none
  | .expression e => return some (← evaluate fuel e)

/-- Running a source is running its tokens. -/
theorem on_scanned (h : Lexer.scan (Text.Utf8.encode source) = .ok tokens) (fuel : Nat)
    (s : Session) :
    (Run.unit fuel source).on s = (unitOf fuel tokens).on s ∧
      (Run.expression fuel source).on s = (expressionOf fuel tokens).on s ∧
      (Run.line fuel source).on s = (lineOf fuel tokens).on s := by
  simp only [Run.unit, Run.expression, Run.line, unitOf, expressionOf, lineOf, on_bind, on_prepare,
    Prepared.program, Prepared.loneExpression, Prepared.line, Prepared.ofSource_scanned h]
  exact ⟨trivial, trivial, by trivial⟩

/-- A unit does as a line what it does as a unit, and the line has no value to show. -/
theorem on_lineOf_program (h : Parser.program tokens s.nextId = (.ok body, next)) (fuel : Nat) :
    (lineOf fuel tokens).on s = ((fun _ => none) <$> unitOf fuel tokens).on s := by
  simp only [lineOf, unitOf, on_map, on_bind, on_prepare_read h,
    on_prepare_read (Parser.line_of_program h), Prepared.walkLine]
  cases Scope.program body with
  | error => rfl
  | ok notes =>
    have hmap := on_map (fun _ => (none : Option Value)) (executeUnit fuel body)
      (s.commit ⟨body, notes, next⟩)
    rw [map_eq_pure_bind] at hmap
    exact hmap

/-- An expression does as a line what it does as an expression, and the line shows its value. -/
theorem on_lineOf_loneExpression
    (h : Parser.loneExpression tokens s.nextId = (.ok e, next)) (fuel : Nat) :
    (lineOf fuel tokens).on s = (some <$> expressionOf fuel tokens).on s := by
  simp only [lineOf, expressionOf, on_map, on_bind, on_prepare_read h,
    on_prepare_read (Parser.line_of_loneExpression h), Prepared.walkLine]
  cases Scope.loneExpression e with
  | error => rfl
  | ok notes =>
    have hmap := on_map some (evaluate fuel e) (s.commit ⟨e, notes, next⟩)
    rw [map_eq_pure_bind] at hmap
    exact hmap

end Run

/-- What printing a value leaves of a run that has found it. -/
def shown : Except Halt Value × Session → Except Halt Unit × Session
  | (.ok value, s) =>
    match s.arrays.text value with
    | .ok text => (.ok (), { s with output := s.output ++ text ++ "\n" })
    | .error halt => (.error halt, s)
  | (.error halt, s) => (.error halt, s)

/-- Whether the output can be written to never changes. -/
theorem kept_willing : Kept fun s => s.refusal = none where
  change h hs := by cases h <;> exact hs
  enter hs := hs
  load hs _ _ _ := hs
  back _ _ hs' := hs'

namespace Run

theorem on_textOf (v : Value) (s : Session) : (textOf v).on s = (s.arrays.text v, s) := by
  simp only [textOf, on_bind, on_get]
  cases s.arrays.text v <;> rfl

theorem on_printLine_willing (text : String) (hs : s.refusal = none) :
    (printLine text).on s = (.ok (), { s with output := s.output ++ text ++ "\n" }) := by
  simp only [printLine, on_bind, on_get]
  split
  · next reason hreason =>
    rw [hs] at hreason
    cases hreason
  · rfl

end Run

theorem on_interpret_print (hs : s.refusal = none) (fuel : Nat) (e : Expr) :
    (worker (fuel + 2) (.interpret [.print e])).on s =
      shown ((worker fuel (.evaluate e)).on s) := by
  have hkept := (kept_willing.after fuel (.evaluate e) hs).1
  simp only [worker, Worker.step, Run.every, Run.executeWith, Run.on_bind, Worker.evaluate]
  rcases hrun : (worker fuel (.evaluate e)).on s with ⟨_ | value, s'⟩
  · rfl
  · have hwilling : s'.refusal = none := by simpa only [hrun] using hkept
    simp only [Run.on_textOf, shown]
    cases s'.arrays.text value with
    | error halt => rfl
    | ok text =>
      simp only [Run.on_printLine_willing text hwilling]
      rfl

theorem walk_print (e : Expr) : Scope.program [.print e] = Scope.loneExpression e := by
  rw [Scope.program, Scope.walkStmts, Scope.walkStmt, Scope.loneExpression]
  cases Scope.walkExpr .topLevel [] e with
  | error => rfl
  | ok notes => exact congrArg Except.ok (List.append_nil notes)

/-- The unit that prints an expression finds its value as the expression does. -/
theorem on_unitOf_print {printing : List Token}
    (h : Parser.loneExpression tokens s.nextId = (.ok e, next))
    (hprint : Parser.program printing s.nextId = (.ok [.print e], next)) (hs : s.refusal = none)
    (fuel : Nat) :
    (Run.unitOf (fuel + 2) printing).on s = shown ((Run.expressionOf fuel tokens).on s) := by
  simp only [Run.unitOf, Run.expressionOf, Run.on_bind, Run.on_prepare_read h,
    Run.on_prepare_read hprint, walk_print]
  cases Scope.loneExpression e with
  | error => rfl
  | ok notes => exact on_interpret_print (s := s.commit ⟨e, notes, next⟩) hs fuel e

/-- The ways into a session agree. What is read as a unit is read as a line of the same
statements, and an expression is read as a line that is this expression and as a unit that prints
it; they run to the same effect, with the value as the line's and its display as the output. -/
theorem entrances_agree (s : Session) :
    (∀ tokens body next, Parser.program tokens s.nextId = (.ok body, next) →
      Parser.line tokens s.nextId = (.ok (.statements body), next) ∧
      (∀ fuel, (Run.lineOf fuel tokens).on s =
        ((fun _ => none) <$> Run.unitOf fuel tokens).on s) ∧
      ∀ source, Lexer.scan (Text.Utf8.encode source) = .ok tokens → ∀ fuel,
        (Run.line fuel source).on s = ((fun _ => none) <$> Run.unit fuel source).on s) ∧
    ∀ (body : List Token) (stop : Token) e next,
      (∀ t ∈ body, t.kind ≠ .endOfInput) → stop.kind = .endOfInput →
      Parser.loneExpression (body ++ [stop]) s.nextId = (.ok e, next) →
      Parser.line (body ++ [stop]) s.nextId = (.ok (.expression e), next) ∧
      (∀ fuel, (Run.lineOf fuel (body ++ [stop])).on s =
        (some <$> Run.expressionOf fuel (body ++ [stop])).on s) ∧
      (∀ source, Lexer.scan (Text.Utf8.encode source) = .ok (body ++ [stop]) → ∀ fuel,
        (Run.line fuel source).on s = (some <$> Run.expression fuel source).on s) ∧
      ∀ keyword semicolon : Token, keyword.kind = .kwPrint → semicolon.kind = .semicolon →
        Parser.program (keyword :: body ++ [semicolon, stop]) s.nextId = (.ok [.print e], next) ∧
        (s.refusal = none → ∀ fuel,
          (Run.unitOf (fuel + 2) (keyword :: body ++ [semicolon, stop])).on s =
            shown ((Run.expressionOf fuel (body ++ [stop])).on s)) := by
  refine ⟨fun tokens body next h => ?_, fun body stop e next hbody hstop h => ?_⟩
  · refine ⟨Parser.line_of_program h, Run.on_lineOf_program h, fun source hscan fuel => ?_⟩
    obtain ⟨hunit, -, hline⟩ := Run.on_scanned hscan fuel s
    rw [hline, Run.on_lineOf_program h, Run.on_map, Run.on_map, hunit]
  · refine ⟨Parser.line_of_loneExpression h, Run.on_lineOf_loneExpression h,
      fun source hscan fuel => ?_, fun keyword semicolon hkeyword hsemicolon => ?_⟩
    · obtain ⟨-, hexpression, hline⟩ := Run.on_scanned hscan fuel s
      rw [hline, Run.on_lineOf_loneExpression h, Run.on_map, Run.on_map, hexpression]
    · have hprint := Parser.program_of_loneExpression hbody hstop h hkeyword hsemicolon
      exact ⟨hprint, fun hs => on_unitOf_print h hprint hs⟩

theorem nil_is_shown_and_printed :
    let s := Session.start (fun _ => none) none (.still 0)
    let word : Token := ⟨.kwNil, "nil", 1⟩
    let semicolon : Token := ⟨.semicolon, ";", 1⟩
    let keyword : Token := ⟨.kwPrint, "print", 1⟩
    let stop : Token := ⟨.endOfInput, "", 1⟩
    (Lexer.scan (Text.Utf8.encode "nil;") = .ok [word, semicolon, stop] ∧
      (Run.line 9 "nil;").on s = ((fun _ => none) <$> Run.unit 9 "nil;").on s) ∧
    (Lexer.scan (Text.Utf8.encode "nil") = .ok [word, stop] ∧
      (Run.line 9 "nil").on s = (some <$> Run.expression 9 "nil").on s) ∧
    (Run.unitOf 11 [keyword, word, semicolon, stop]).on s =
      shown ((Run.expressionOf 9 [word, stop]).on s) := by
  intro s word semicolon keyword stop
  have hunit : Parser.program [word, semicolon, stop] 0 =
      (.ok [.expression (.literal .nil)], 0) := rfl
  have hlone : Parser.loneExpression [word, stop] 0 = (.ok (.literal .nil), 0) := by decide +kernel
  have hscanUnit : Lexer.scan (Text.Utf8.encode "nil;") = .ok [word, semicolon, stop] := by
    decide +kernel
  have hscan : Lexer.scan (Text.Utf8.encode "nil") = .ok [word, stop] := by decide +kernel
  obtain ⟨hstatements, hexpression⟩ := entrances_agree s
  obtain ⟨-, -, hline⟩ := hstatements _ _ _ hunit
  obtain ⟨-, -, hshown, hprint⟩ := hexpression [word] stop _ _ (by decide) rfl hlone
  obtain ⟨-, hprinted⟩ := hprint keyword semicolon rfl rfl
  exact ⟨⟨hscanUnit, hline _ hscanUnit 9⟩, ⟨hscan, hshown _ hscan 9⟩, hprinted rfl 9⟩

end Treewalk
