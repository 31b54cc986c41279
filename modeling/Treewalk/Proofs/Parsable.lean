import Treewalk.Proofs.Lines
import Treewalk.Proofs.Parsing
import Treewalk.Proofs.Readable

/-!
# What is of the grammar of programs is read as such

A declaration is read to its end and no further, whatever comes behind it, except for an `else` that
could still belong to it. The first token of a rule tells which reader goes over its tokens, and
each token pays for the readers that lie between it and the next one. Together with what every
reader goes over this fixes the programs that are read, and what they are read as.
-/

namespace Treewalk

-- ---------------------------------------------------------------------------
-- Statements that differ in their numbers only
-- ---------------------------------------------------------------------------

/-- Both statements are absent, or they are the same. -/
def SamePart (s s' : Option Stmt) : Prop :=
  s.map Stmt.unnumbered = s'.map Stmt.unnumbered

theorem SamePart.some (h : SameStmt s s') : SamePart (some s) (some s') :=
  congrArg Option.some h

namespace SameStmt

theorem expression (h : Same e e') : SameStmt (.expression e) (.expression e') :=
  congrArg Stmt.expression h

theorem print (h : Same e e') : SameStmt (.print e) (.print e') :=
  congrArg Stmt.print h

theorem var (h : SameMaybe initial initial') :
    SameStmt (.var name initial) (.var name initial') :=
  congrArg (Stmt.var name) h

theorem block (h : SameBody body body') : SameStmt (.block body) (.block body') :=
  congrArg Stmt.block h

theorem ifElse (h : Same condition condition') (hyes : SameStmt yes yes') (hno : SamePart no no') :
    SameStmt (.ifElse condition yes no) (.ifElse condition' yes' no') := by
  obtain _ | no := no <;> obtain _ | no' := no' <;>
    simp_all [Same, SameStmt, SamePart, Stmt.unnumbered]

theorem whileLoop (h : Same condition condition') (hbody : SameStmt body body') :
    SameStmt (.whileLoop condition body) (.whileLoop condition' body') :=
  congrArg₂ Stmt.whileLoop h hbody

theorem function (h : SameRoutine r r') : SameStmt (.function r) (.function r') :=
  congrArg Stmt.function h

theorem classDecl (h : SameRoutines methods methods')
    (h' : SameRoutines classMethods classMethods') :
    SameStmt (.classDecl name methods classMethods) (.classDecl name methods' classMethods') :=
  congrArg₂ (Stmt.classDecl name) h h'

theorem returnValue (h : SameMaybe value value') :
    SameStmt (.returnValue keyword value) (.returnValue keyword value') :=
  congrArg (Stmt.returnValue keyword) h

theorem exportDecl (h : SameStmt s s') :
    SameStmt (.exportDecl keyword s) (.exportDecl keyword s') :=
  congrArg (Stmt.exportDecl keyword) h

end SameStmt

theorem SameBody.cons (h : SameStmt s s') (hrest : SameBody body body') :
    SameBody (s :: body) (s' :: body') :=
  congrArg₂ List.cons h hrest

theorem SameRoutine.of_body (h : SameBody body body') :
    SameRoutine ⟨name, params, body⟩ ⟨name, params, body'⟩ :=
  congrArg (Routine.mk name params) h

theorem SameRoutines.cons (h : SameRoutine r r') (hrest : SameRoutines rs rs') :
    SameRoutines (r :: rs) (r' :: rs') :=
  congrArg₂ List.cons h hrest

theorem SameMaybe.some (h : Same e e') : SameMaybe (some e) (some e') :=
  congrArg Option.some h

/-- A `for` statement is read as the loop that it stands for. -/
theorem Enclosed.same {start start' : Option Stmt} (hstart : SamePart start start')
    (hcondition : SameMaybe condition condition') (hstep : SameMaybe step step')
    (hbody : SameStmt body body') (htested : Tested condition test) (hlap : Stepped body step lap)
    (h : Enclosed (.whileLoop test lap) start s) :
    SameStmt s (Parser.forLoop start' condition' step' body') := by
  have htest : Same test (condition'.getD (.literal (.bool true))) := by
    cases htested <;> cases condition' <;> simp_all [SameMaybe, Same]
  have hloop : SameStmt (.whileLoop test lap) (Parser.forLoop none condition' step' body') := by
    cases hlap with
    | plain =>
      obtain _ | e' := step'
      · exact .whileLoop htest hbody
      · cases hstep
    | step =>
      obtain _ | e' := step'
      · cases hstep
      · have hlast : SameStmt (.expression _) (.expression e') :=
          .expression (Option.some.inj hstep)
        exact .whileLoop htest (.block (.cons hbody (.cons hlast rfl)))
  cases h with
  | bare =>
    obtain _ | first' := start'
    · exact hloop
    · cases hstart
  | block =>
    obtain _ | first' := start'
    · cases hstart
    · exact .block (.cons (Option.some.inj hstart) (.cons hloop rfl))

namespace Parser

-- ---------------------------------------------------------------------------
-- How declarations begin
-- ---------------------------------------------------------------------------

theorem phrase_opens (h : Phrase .assignment e us) :
    ∃ t rest, us = t :: rest ∧ opensExpression t.kind = true := by
  obtain ⟨t, rest, rfl, -⟩ := phrase_begins h
  obtain ⟨found, c, hr, -⟩ := expression_finds h (.nil _) ⟨t :: rest, .finish 1, false, false, 0⟩
    (List.append_nil _).symm rfl
  exact ⟨t, rest, rfl, expression_opens hr⟩

def opensStatement : Kind → Bool
  | .kwBreak | .kwFor | .kwIf | .kwWhile | .kwReturn | .leftBrace | .kwPrint => true
  | kind => opensExpression kind

theorem opensStatement_of_expression (h : opensExpression kind = true) :
    opensStatement kind = true := by
  unfold opensStatement
  split
  all_goals first | rfl | exact h

theorem statement_opens (h : Statement dangling s us) :
    ∃ t rest, us = t :: rest ∧ opensStatement t.kind = true := by
  cases h with
  | expression h =>
    obtain ⟨he, -⟩ := h
    obtain ⟨t, rest, rfl, ht⟩ := phrase_opens he
    exact ⟨t, rest ++ _, rfl, opensStatement_of_expression ht⟩
  | block h =>
    obtain ⟨hopening, -, -⟩ := h
    exact ⟨_, _, rfl, by rw [hopening]; rfl⟩
  | print hkeyword | breakLoop hkeyword | returnValue hkeyword | ifThen hkeyword | ifElse hkeyword
  | whileLoop hkeyword | forLoop hkeyword =>
    exact ⟨_, _, rfl, by rw [hkeyword]; rfl⟩

theorem expressionStmt_opens (h : ExpressionStmt s us) :
    ∃ t rest, us = t :: rest ∧ opensExpression t.kind = true := by
  obtain ⟨he, -⟩ := h
  obtain ⟨t, rest, rfl, ht⟩ := phrase_opens he
  exact ⟨t, rest ++ _, rfl, ht⟩

theorem varDecl_opens (h : VarDecl s us) : ∃ t rest, us = t :: rest ∧ t.kind = .kwVar := by
  cases h with
  | plain hkeyword | initialized hkeyword => exact ⟨_, _, rfl, hkeyword⟩

theorem block_opens (h : Block body us) : ∃ t rest, us = t :: rest ∧ t.kind = .leftBrace := by
  obtain ⟨hopening, -, -⟩ := h
  exact ⟨_, _, rfl, hopening⟩

theorem parameterList_opens (h : ParameterList params us) :
    ∃ t rest, us = t :: rest ∧ t.kind = .leftParen := by
  cases h with
  | none hopening | some hopening => exact ⟨_, _, rfl, hopening⟩

theorem method_opens (h : Method r us) : ∃ t rest, us = t :: rest ∧ t.kind = .identifier := by
  obtain ⟨hname, -, -⟩ := h
  exact ⟨_, _, rfl, hname⟩

/-- No declaration begins with a token that ends a block or the statement before. -/
theorem declaration_opens (h : Declaration s us) :
    ∃ t rest, us = t :: rest ∧ t.kind ≠ .rightBrace ∧ t.kind ≠ .kwElse := by
  cases h with
  | importModule hkeyword => exact ⟨_, _, rfl, by simp [hkeyword], by simp [hkeyword]⟩
  | exportDecl hkeyword => exact ⟨_, _, rfl, by simp [hkeyword], by simp [hkeyword]⟩
  | definition h =>
    cases h with
    | classDecl hkeyword => exact ⟨_, _, rfl, by simp [hkeyword], by simp [hkeyword]⟩
    | function hkeyword => exact ⟨_, _, rfl, by simp [hkeyword], by simp [hkeyword]⟩
    | var h =>
      cases h with
      | plain hkeyword => exact ⟨_, _, rfl, by simp [hkeyword], by simp [hkeyword]⟩
      | initialized hkeyword => exact ⟨_, _, rfl, by simp [hkeyword], by simp [hkeyword]⟩
  | statement h =>
    obtain ⟨t, rest, rfl, ht⟩ := statement_opens h
    refine ⟨t, rest, rfl, ?_, ?_⟩ <;> intro hkind <;> rw [hkind] at ht <;> cases ht

-- ---------------------------------------------------------------------------
-- Parts of statements are read
-- ---------------------------------------------------------------------------

theorem Finds.recovering (h : Finds Good r us after) :
    Finds Good (Parser.recovering r) us after := by
  intro c hrest hc
  obtain ⟨a, c', hr, hover, ha⟩ := h c hrest hc
  exact ⟨a, c', reads_recovering.2 hr, hover, ha⟩

theorem Finds.expect_bind {f : Token → Reader β} (ht : t.kind = kind)
    (hf : Finds Good (f t) us after) :
    Finds Good (Parser.expect kind fault >>= f) (t :: us) after :=
  (Finds.expect ht).bind_eq hf

/-- What tells of the next token leaves it. -/
theorem Finds.check_bind {f : Bool → Reader β}
    (hf : Finds Good (f ((us ++ after).head?.any (·.kind = kind))) us after) :
    Finds Good (Parser.check kind >>= f) us after :=
  Finds.check.bind_eq hf

theorem Finds.atEnd_bind {f : Bool → Reader β}
    (hf : Finds Good (f (us ++ after).isEmpty) us after) :
    Finds Good (Parser.atEnd >>= f) us after := by
  intro c hrest hc
  obtain ⟨b, c', hr, hover, hb⟩ := hf c hrest hc
  rw [← hrest] at hr
  exact ⟨b, c', reads_bind.2 ⟨_, c, reads_atEnd.2 ⟨rfl, rfl⟩, hr⟩, hover, hb⟩

/-- The token behind what is read first. -/
theorem Finds.bind_before {m : Reader α} {f : α → Reader β}
    (hm : Finds Good m us (t :: (vs ++ after)))
    (hf : ∀ a, Good a → Finds Good' (f a) (t :: vs) after) :
    Finds Good' (m >>= f) (us ++ t :: vs) after :=
  hm.bind hf

theorem expression_finds_before (h : Phrase .assignment e us)
    (hnext : extends? next.kind = none) : Finds (Same e) expression us (next :: after) :=
  expression_finds h (.before hnext _)

/-- An expression in parentheses, and what is read behind it. -/
theorem condition_finds {f : Expr → Reader β} (hopening : opening.kind = .leftParen)
    (he : Phrase .assignment e us) (hclosing : closing.kind = .rightParen)
    (hf : ∀ found, Same e found → Finds Good (f found) vs after) :
    Finds Good (do
      let _ ← expect .leftParen fault
      let found ← expression
      let _ ← expect .rightParen fault'
      f found) (opening :: (us ++ closing :: vs)) after := by
  refine .expect_bind hopening ?_
  refine (expression_finds_before he (by rw [hclosing]; rfl)).bind_before fun found hsame => ?_
  exact .expect_bind hclosing (hf found hsame)

theorem readParameters_finds (h : Names names us) (hfew : names.length ≤ room)
    (hnext : next.kind ≠ .comma) :
    Finds (· = names) (readParameters room) us (next :: after) := by
  induction h generalizing room with
  | one hname =>
    obtain _ | room := room
    · cases hfew
    refine .expect_bind hname ((Finds.decline ?_).bind_eq (.pure rfl))
    rintro _ ⟨⟩
    exact decide_eq_false hnext
  | more hname hcomma _ ih =>
    obtain _ | room := room
    · cases hfew
    refine .expect_bind hname ((Finds.accept? hcomma).bind_eq ?_)
    refine (ih (Nat.le_of_succ_le_succ hfew)).map fun _ hnames => ?_
    rw [hnames]

theorem names_begin (h : Names names us) : ∃ t rest, us = t :: rest ∧ t.kind = .identifier := by
  cases h with
  | one hname | more hname => exact ⟨_, _, rfl, hname⟩

theorem readParameterList_finds (h : ParameterList params us) (callable : Callable) :
    Finds (· = params) (readParameterList callable) us after := by
  cases h with
  | none hopening hclosing =>
    refine .expect_bind hopening (.check_bind ?_)
    simp only [List.cons_append, List.head?_cons, Option.any_some, hclosing, decide_true, if_true,
      pure_bind]
    exact .expect_bind hclosing <| .pure rfl
  | some hopening hnames hfew hclosing =>
    obtain ⟨t, rest, rfl, ht⟩ := names_begin hnames
    refine .expect_bind hopening (.check_bind ?_)
    simp only [List.cons_append, List.head?_cons, Option.any_some, ht, reduceCtorEq, decide_false,
      Bool.false_eq_true, if_false]
    refine (readParameters_finds hnames hfew (by simp [hclosing])).bind_before ?_
    rintro _ rfl
    exact .expect_bind hclosing <| .pure rfl

theorem readVar_finds (h : VarDecl s (keyword :: us)) :
    Finds (SameStmt s) readVar us after := by
  cases h with
  | plain _ hname hsemicolon =>
    refine .expect_bind hname ((Finds.decline ?_).bind_eq ?_)
    · rintro _ ⟨⟩
      simp [hsemicolon]
    · simp only [pure_bind]
      exact .expect_bind hsemicolon <| .pure rfl
  | initialized _ hname hequal he hsemicolon =>
    refine .expect_bind hname ((Finds.accept? hequal).bind_eq ?_)
    refine ((expression_finds_before he (by rw [hsemicolon]; rfl)).map fun _ hsame =>
      SameMaybe.some hsame).bind_before fun initial hinitial => ?_
    exact .expect_bind hsemicolon <| .pure (.var hinitial)

/-- What is left out is told by the token that closes it. -/
theorem readUnless_finds (h : Maybe (Phrase .assignment) value us)
    (hclosing : closing.kind = close) (hclose : close = .semicolon ∨ close = .rightParen) :
    Finds (SameMaybe value) (readUnless close) us (closing :: after) := by
  refine .check_bind ?_
  cases h with
  | absent =>
    simp only [List.nil_append, List.head?_cons, Option.any_some, hclosing, decide_true, if_true]
    exact .pure rfl
  | present he =>
    obtain ⟨t, rest, rfl, ht⟩ := phrase_opens he
    have hne : t.kind ≠ close := by
      rintro rfl
      obtain hclose | hclose := hclose <;> rw [hclose] at ht <;> cases ht
    simp only [List.cons_append, List.head?_cons, Option.any_some, hne, decide_false,
      Bool.false_eq_true, if_false]
    refine (expression_finds_before he ?_).map fun found hsame => SameMaybe.some hsame
    obtain rfl | rfl := hclose <;> rw [hclosing] <;> rfl

theorem readExpressionStatement_finds (h : ExpressionStmt s us) :
    Finds (SameStmt s) readExpressionStatement us after := by
  obtain ⟨he, hsemicolon⟩ := h
  refine (expression_finds_before he (by rw [hsemicolon]; rfl)).bind fun found hsame => ?_
  intro c hrest hc
  have hexpect : Finds (· = _) (expect .semicolon .expressionEnd) [_] after := .expect hsemicolon
  obtain ⟨_, c', hr, hover, -⟩ := hexpect c hrest hc
  refine ⟨.expression found, c', ?_, hover, .expression hsame⟩
  refine (endExpression_run found c).trans ?_
  simp only [hrest, List.cons_append, List.isEmpty_cons, Bool.and_false, Bool.false_eq_true,
    if_false]
  exact reads_bind.2 ⟨_, c', hr, reads_pure.2 ⟨rfl, rfl⟩⟩

-- ---------------------------------------------------------------------------
-- Declarations and statements are read
-- ---------------------------------------------------------------------------

/-- The tokens do not begin with an `else`, which a statement before them could take. -/
def NoElse (after : List Token) : Prop :=
  ∀ t ∈ after.head?, t.kind ≠ .kwElse

theorem NoElse.before (h : t.kind = kind) (hkind : kind ≠ .kwElse) : NoElse (t :: after) := by
  rintro _ ⟨⟩
  exact h ▸ hkind

/-- The allowance suffices for the tokens that it can pay for, each with eight. -/
structure StmtFinds (depth : Nat) : Prop where
  declaration : ∀ {s us after}, Declaration s us → NoElse after → 8 * us.length ≤ depth →
    Finds (SameStmt s) (readDeclaration depth) us after
  classBody : ∀ {keyword s us after}, keyword.kind = .kwClass → Definition s (keyword :: us) →
    8 * us.length ≤ depth → Finds (SameStmt s) (readClass depth) us after
  members : ∀ {methods classMethods us closing after}, Members methods classMethods us →
    closing.kind = .rightBrace → 8 * us.length + 8 ≤ depth →
    Finds (fun m => SameRoutines methods m.1 ∧ SameRoutines classMethods m.2) (readMembers depth) us
      (closing :: after)
  function : ∀ {keyword r us after}, Definition (.function r) (keyword :: us) →
    8 * us.length ≤ depth → Finds (SameRoutine r) (readRoutine depth .function) us after
  method : ∀ {r us after}, Method r us → 8 * us.length ≤ depth →
    Finds (SameRoutine r) (readRoutine depth .method) us after
  block : ∀ {opening body us after}, Block body (opening :: us) → 8 * us.length ≤ depth →
    Finds (SameBody body) (readBlock depth) us after
  statement : ∀ {dangling s us after}, Statement dangling s us →
    (dangling = true → NoElse after) → 8 * us.length ≤ depth + 1 →
    Finds (SameStmt s) (readStatement depth) us after

/-- The keyword tells which definition it is. -/
theorem definition_opens (h : Definition s us) : ∃ keyword rest, us = keyword :: rest ∧
    (keyword.kind = .kwClass ∨ (keyword.kind = .kwFun ∧ ∃ r, s = .function r) ∨
      (keyword.kind = .kwVar ∧ VarDecl s us)) := by
  cases h with
  | classDecl hkeyword => exact ⟨_, _, rfl, .inl hkeyword⟩
  | function hkeyword => exact ⟨_, _, rfl, .inr (.inl ⟨hkeyword, _, rfl⟩)⟩
  | var h =>
    cases h with
    | plain hkeyword hname hsemicolon =>
      exact ⟨_, _, rfl, .inr (.inr ⟨hkeyword, .plain hkeyword hname hsemicolon⟩)⟩
    | initialized hkeyword hname hequal he hsemicolon =>
      exact ⟨_, _, rfl, .inr (.inr ⟨hkeyword, .initialized hkeyword hname hequal he hsemicolon⟩)⟩

theorem readDeclaration_finds (ih : StmtFinds depth) (h : Declaration s us) (hafter : NoElse after)
    (hdepth : 8 * us.length ≤ depth + 1) :
    Finds (SameStmt s) (readDeclaration (depth + 1)) us after := by
  refine Finds.recovering ?_
  cases h with
  | importModule hkeyword hpath hsemicolon =>
    refine .peek_bind ?_
    simp only [hkeyword]
    refine Finds.advance.bind_eq (.peek_bind ?_)
    simp only [hpath]
    refine Finds.advance.bind_eq ?_
    exact .expect_bind hsemicolon <| .pure rfl
  | exportDecl hexport h =>
    refine .peek_bind ?_
    simp only [hexport]
    refine Finds.advance.bind_eq ?_
    obtain ⟨keyword, rest, rfl, hkeyword | ⟨hkeyword, r, rfl⟩ | ⟨hkeyword, hvar⟩⟩ :=
      definition_opens h
    all_goals
      simp only [List.length_cons] at hdepth
      refine .peek_bind ?_
      simp only [hkeyword]
      refine Finds.advance.bind_eq ?_
    · refine (ih.classBody hkeyword h (by omega)).bind_last fun found hfound => ?_
      exact .pure (.exportDecl hfound)
    · refine (ih.function h (by omega)).bind_last fun found hfound => ?_
      exact .pure (.exportDecl (.function hfound))
    · refine (readVar_finds hvar).bind_last fun found hfound => ?_
      exact .pure (.exportDecl hfound)
  | definition h =>
    obtain ⟨keyword, rest, rfl, hkeyword | ⟨hkeyword, r, rfl⟩ | ⟨hkeyword, hvar⟩⟩ :=
      definition_opens h
    all_goals
      simp only [List.length_cons] at hdepth
      refine .peek_bind ?_
      simp only [hkeyword]
      refine Finds.advance.bind_eq ?_
    · exact ih.classBody hkeyword h (by omega)
    · refine (ih.function h (by omega)).bind_last fun found hfound => ?_
      exact .pure (.function hfound)
    · exact readVar_finds hvar
  | statement h =>
    have hfinds := ih.statement h (fun _ => hafter) hdepth
    obtain ⟨t, rest, rfl, ht⟩ := statement_opens h
    refine .peek_bind ?_
    split
    all_goals first
      | exact hfinds
      | next hkind => rw [hkind] at ht; cases ht

theorem readClass_finds (ih : StmtFinds depth) (hkeyword : keyword.kind = .kwClass)
    (h : Definition s (keyword :: us)) (hdepth : 8 * us.length ≤ depth + 1) :
    Finds (SameStmt s) (readClass (depth + 1)) us after := by
  cases h with
  | classDecl _ hname hopening hmembers hclosing =>
    simp only [List.length_cons, List.length_append, List.length_nil] at hdepth
    refine .expect_bind hname (.expect_bind hopening ?_)
    refine (ih.members hmembers hclosing (by omega)).bind_before fun members hsame => ?_
    refine .expect_bind hclosing <| .pure ?_
    exact .classDecl hsame.1 hsame.2
  | function hother => rw [hkeyword] at hother; cases hother
  | var h =>
    cases h with
    | plain hother | initialized hother => rw [hkeyword] at hother; cases hother

theorem readMembers_finds (ih : StmtFinds depth) (h : Members methods classMethods us)
    (hclosing : closing.kind = .rightBrace) (hdepth : 8 * us.length + 8 ≤ depth + 1) :
    Finds (fun m => SameRoutines methods m.1 ∧ SameRoutines classMethods m.2)
      (readMembers (depth + 1)) us (closing :: after) := by
  refine .check_bind (.atEnd_bind ?_)
  cases h with
  | none =>
    simp only [List.nil_append, List.head?_cons, Option.any_some, hclosing, decide_true,
      Bool.true_or, if_true]
    exact .pure ⟨rfl, rfl⟩
  | method hmethod hrest =>
    obtain ⟨t, left, rfl, ht⟩ := method_opens hmethod
    simp only [List.length_append, List.length_cons] at hdepth
    simp only [List.cons_append, List.head?_cons, Option.any_some, ht, reduceCtorEq, decide_false,
      List.isEmpty_cons, Bool.or_self, Bool.false_eq_true, if_false]
    refine (Finds.decline ?_).bind_eq ?_
    · rintro _ ⟨⟩
      simp [ht]
    · refine (ih.method hmethod (by rw [List.length_cons]; omega)).bind fun first hfirst => ?_
      refine (ih.members hrest hclosing (by omega)).bind_last fun others hothers => ?_
      exact .pure ⟨.cons hfirst hothers.1, hothers.2⟩
  | classMethod hkeyword hmethod hrest =>
    simp only [List.length_append, List.length_cons] at hdepth
    simp only [List.cons_append, List.head?_cons, Option.any_some, hkeyword, reduceCtorEq,
      decide_false, List.isEmpty_cons, Bool.or_self, Bool.false_eq_true, if_false]
    refine (Finds.accept? hkeyword).bind_eq ?_
    refine (ih.method hmethod (by omega)).bind fun first hfirst => ?_
    refine (ih.members hrest hclosing (by omega)).bind_last fun others hothers => ?_
    exact .pure ⟨hothers.1, .cons hfirst hothers.2⟩

/-- A body behind its parameter list. -/
theorem readBody_finds (ih : StmtFinds depth) (h : Block body us)
    (hdepth : 8 * us.length ≤ depth + 8) (name : Token) (params : Option (List Token)) :
    Finds (SameRoutine ⟨name, params, body⟩) (do
      let _ ← expect .leftBrace (.bodyOpen callable)
      return ⟨name, params, ← readBlock depth⟩) us after := by
  have hbody : Block body us := h
  obtain ⟨hopening, -, -⟩ := h
  simp only [List.length_cons, List.length_append, List.length_nil] at hdepth
  refine .expect_bind hopening ?_
  refine (ih.block hbody (by simp; omega)).bind_last fun found hfound => ?_
  exact .pure (.of_body hfound)

theorem someParameters_finds (h : ParameterList params us) (callable : Callable) :
    Finds (· = some params) (some <$> readParameterList callable) us after :=
  (readParameterList_finds h callable).map fun _ hparams => congrArg some hparams

theorem readFunction_finds (ih : StmtFinds depth) (h : Definition (.function r) (keyword :: us))
    (hdepth : 8 * us.length ≤ depth + 1) :
    Finds (SameRoutine r) (readRoutine (depth + 1) .function) us after := by
  cases h with
  | function _ hname hparams hbody =>
    simp only [List.length_cons, List.length_append] at hdepth
    refine .expect_bind hname (.check_bind ?_)
    refine (someParameters_finds hparams _).bind_eq ?_
    exact readBody_finds ih hbody (by omega) _ _
  | var h => cases h

/-- The token behind the name tells a getter. -/
theorem readMethod_finds (ih : StmtFinds depth) (h : Method r us)
    (hdepth : 8 * us.length ≤ depth + 1) :
    Finds (SameRoutine r) (readRoutine (depth + 1) .method) us after := by
  obtain ⟨hname, hparams, hbody⟩ := h
  simp only [List.length_cons, List.length_append] at hdepth
  refine .expect_bind hname (.check_bind ?_)
  cases hparams with
  | absent =>
    obtain ⟨t, rest, rfl, ht⟩ := block_opens hbody
    simp only [List.nil_append, List.cons_append, List.head?_cons, Option.any_some, ht,
      reduceCtorEq, decide_false, Bool.or_self, Bool.false_eq_true, if_false, pure_bind]
    exact readBody_finds ih hbody (by omega) _ none
  | present hparams =>
    obtain ⟨t, rest, rfl, ht⟩ := parameterList_opens hparams
    simp only [List.cons_append, List.head?_cons, Option.any_some, ht, decide_true, Bool.or_true,
      if_true]
    refine (someParameters_finds hparams _).bind_eq ?_
    exact readBody_finds ih hbody (by omega) _ _

/-- What begins with a declaration, or with what comes behind them all. -/
theorem declarations_noElse (h : Declarations body us) (hafter : NoElse after) :
    NoElse (us ++ after) := by
  cases h with
  | none => exact hafter
  | cons hfirst _ =>
    obtain ⟨t, rest, rfl, -, ht⟩ := declaration_opens hfirst
    exact .before rfl ht

theorem readBlock_finds (ih : StmtFinds depth) (h : Block body (opening :: us))
    (hdepth : 8 * us.length ≤ depth + 1) :
    Finds (SameBody body) (readBlock (depth + 1)) us after := by
  obtain @⟨_, _, us, closing, hopening, hbody, hclosing⟩ := h
  refine .check_bind (.atEnd_bind ?_)
  cases hbody with
  | none =>
    simp only [List.nil_append, List.cons_append, List.head?_cons, Option.any_some, hclosing,
      decide_true, Bool.true_or, if_true]
    exact .expect_bind hclosing <| .pure rfl
  | @cons s us body vs hfirst hrest =>
    have hnext : NoElse (vs ++ [closing] ++ after) := by
      rw [List.append_assoc]
      exact declarations_noElse hrest (.before hclosing (by decide))
    have hblock : Block body (opening :: (vs ++ [closing])) := .mk hopening hrest hclosing
    obtain ⟨t, left, rfl, ht, -⟩ := declaration_opens hfirst
    simp only [List.length_append, List.length_cons, List.length_nil] at hdepth
    simp only [List.append_assoc, List.cons_append, List.head?_cons, Option.any_some, ht,
      decide_false, List.isEmpty_cons, Bool.or_self, Bool.false_eq_true, if_false]
    refine (ih.declaration hfirst hnext (by simp; omega)).bind fun first hfirst => ?_
    refine (ih.block hblock (by simp; omega)).bind_last fun others hothers => ?_
    exact .pure (.cons hfirst hothers)

/-- A `for` statement behind its start. -/
theorem readForRest_finds (ih : StmtFinds depth) (hstart : SamePart start start')
    (hcondition : Maybe (Phrase .assignment) condition us)
    (hsemicolon : semicolon.kind = .semicolon) (hstep : Maybe (Phrase .assignment) step vs)
    (hclosing : closing.kind = .rightParen)
    (hbody : Statement dangling body ws) (hafter : dangling = true → NoElse after)
    (htested : Tested condition test) (hlap : Stepped body step lap)
    (hloop : Enclosed (.whileLoop test lap) start s) (hdepth : 8 * ws.length ≤ depth + 1) :
    Finds (SameStmt s) (do
      let condition ← readUnless .semicolon
      let _ ← expect .semicolon .forCondition
      let step ← readUnless .rightParen
      let _ ← expect .rightParen .forClose
      return forLoop start' condition step (← readStatement depth))
      (us ++ semicolon :: (vs ++ closing :: ws)) after := by
  refine (readUnless_finds hcondition hsemicolon (.inl rfl)).bind_before fun condition' hsame => ?_
  refine .expect_bind hsemicolon ?_
  refine (readUnless_finds hstep hclosing (.inr rfl)).bind_before fun step' hsame' => ?_
  refine .expect_bind hclosing ?_
  refine (ih.statement hbody hafter hdepth).bind_last fun body' hsame'' => .pure ?_
  exact hloop.same hstart hsame hsame' hsame'' htested hlap

theorem readStatement_finds (ih : StmtFinds depth) (h : Statement dangling s us)
    (hafter : dangling = true → NoElse after) (hdepth : 8 * us.length ≤ depth + 2) :
    Finds (SameStmt s) (readStatement (depth + 1)) us after := by
  cases h with
  | expression h =>
    have hfinds : Finds (SameStmt s) readExpressionStatement us after :=
      readExpressionStatement_finds h
    obtain ⟨t, rest, rfl, ht⟩ := expressionStmt_opens h
    refine .peek_bind ?_
    split
    all_goals first
      | exact hfinds
      | next hkind => rw [hkind] at ht; cases ht
  | print hkeyword he hsemicolon =>
    refine .peek_bind ?_
    simp only [hkeyword]
    refine Finds.advance.bind_eq ?_
    refine (expression_finds_before he (by rw [hsemicolon]; rfl)).bind_before fun found hsame => ?_
    exact .expect_bind hsemicolon <| .pure (.print hsame)
  | breakLoop hkeyword hsemicolon =>
    refine .peek_bind ?_
    simp only [hkeyword]
    refine Finds.advance.bind_eq ?_
    exact .expect_bind hsemicolon <| .pure rfl
  | returnValue hkeyword hvalue hsemicolon =>
    refine .peek_bind ?_
    simp only [hkeyword]
    refine Finds.advance.bind_eq ?_
    refine (readUnless_finds hvalue hsemicolon (.inl rfl)).bind_before fun found hsame => ?_
    exact .expect_bind hsemicolon <| .pure (.returnValue hsame)
  | block h =>
    obtain ⟨t, rest, rfl, ht⟩ := block_opens h
    rw [List.length_cons] at hdepth
    refine .peek_bind ?_
    simp only [ht]
    refine Finds.advance.bind_eq ?_
    exact (ih.block h (by omega)).bind_last fun found hsame => .pure (.block hsame)
  | ifThen hkeyword hopening hcondition hclosing hyes =>
    simp only [List.length_cons, List.length_append] at hdepth
    refine .peek_bind ?_
    simp only [hkeyword]
    refine Finds.advance.bind_eq ?_
    refine condition_finds hopening hcondition hclosing fun condition' hsame => ?_
    refine (ih.statement hyes (fun _ => hafter rfl) (by omega)).bind_last fun yes' hyes => ?_
    have hno : Finds (· = none) (accept? .kwElse) [] after :=
      .decline fun t ht => decide_eq_false (hafter rfl t ht)
    refine hno.bind_last ?_
    rintro _ rfl
    rw [pure_bind]
    exact .pure (.ifElse hsame hyes rfl)
  | ifElse hkeyword hopening hcondition hclosing hyes hotherwise hno =>
    simp only [List.length_cons, List.length_append] at hdepth
    refine .peek_bind ?_
    simp only [hkeyword]
    refine Finds.advance.bind_eq ?_
    refine condition_finds hopening hcondition hclosing fun condition' hsame => ?_
    refine (ih.statement hyes nofun (by omega)).bind_before fun yes' hyes => ?_
    refine (Finds.accept? hotherwise).bind_eq ?_
    have hfinds := (ih.statement hno hafter (by omega)).map fun _ hno => SamePart.some hno
    exact hfinds.bind_last fun no' hno => .pure (.ifElse hsame hyes hno)
  | whileLoop hkeyword hopening hcondition hclosing hbody =>
    simp only [List.length_cons, List.length_append] at hdepth
    refine .peek_bind ?_
    simp only [hkeyword]
    refine Finds.advance.bind_eq ?_
    refine condition_finds hopening hcondition hclosing fun condition' hsame => ?_
    refine (ih.statement hbody hafter (by omega)).bind_last fun body' hbody => ?_
    exact .pure (.whileLoop hsame hbody)
  | forLoop hkeyword hopening hstart hcondition hsemicolon hstep hclosing hbody htested hlap
      hloop =>
    simp only [List.length_cons, List.length_append] at hdepth
    refine .peek_bind ?_
    simp only [hkeyword]
    refine Finds.advance.bind_eq (.expect_bind hopening ?_)
    have hrest {start'} (hsame : SamePart _ start') := readForRest_finds ih hsame hcondition
      hsemicolon hstep hclosing hbody hafter htested hlap hloop (by omega)
    cases hstart with
    | none hnone =>
      refine .peek_bind ?_
      simp only [hnone]
      exact Finds.advance.bind_eq (by simpa only [pure_bind] using hrest rfl)
    | var h =>
      obtain ⟨t, rest, rfl, ht⟩ := varDecl_opens h
      refine .peek_bind ?_
      simp only [ht]
      refine Finds.advance.bind_eq ?_
      refine ((readVar_finds h).map fun _ hsame => SamePart.some hsame).bind fun start' hsame => ?_
      exact hrest hsame
    | expression h =>
      obtain ⟨t, rest, rfl, ht⟩ := expressionStmt_opens h
      refine .peek_bind ?_
      split
      · next hkind => rw [hkind] at ht; cases ht
      · next hkind => rw [hkind] at ht; cases ht
      · refine ((readExpressionStatement_finds h).map fun _ hsame => SamePart.some hsame).bind ?_
        exact fun start' hsame => hrest hsame

/-- An allowance of nothing does not pay for a token. -/
theorem nil_of_unpaid {us : List Token} (h : 8 * us.length ≤ 1) : us = [] :=
  List.length_eq_zero_iff.1 (by omega)

theorem stmtFinds (depth : Nat) : StmtFinds depth := by
  induction depth with
  | zero =>
    constructor
    case members => exact fun _ _ hdepth => absurd hdepth (by omega)
    case declaration =>
      intro s us after h _ hdepth
      obtain rfl := nil_of_unpaid (hdepth.trans (by decide))
      obtain ⟨_, _, h, -⟩ := declaration_opens h
      cases h
    case classBody =>
      intro keyword s us after _ h hdepth
      obtain rfl := nil_of_unpaid (hdepth.trans (by decide))
      obtain _ | _ | ⟨⟨⟩⟩ := h
    case function =>
      intro keyword r us after h hdepth
      obtain rfl := nil_of_unpaid (hdepth.trans (by decide))
      obtain _ | _ | ⟨⟨⟩⟩ := h
    case method =>
      intro r us after h hdepth
      obtain rfl := nil_of_unpaid (hdepth.trans (by decide))
      cases h
    case block =>
      intro opening body us after h hdepth
      obtain ⟨-, -, -⟩ := h
      simp at hdepth
    case statement =>
      intro dangling s us after h _ hdepth
      obtain rfl := nil_of_unpaid hdepth
      obtain ⟨_, _, h, -⟩ := statement_opens h
      cases h
  | succ depth ih =>
    exact ⟨readDeclaration_finds ih, readClass_finds ih, readMembers_finds ih,
      readFunction_finds ih, readMethod_finds ih, readBlock_finds ih, readStatement_finds ih⟩

theorem declaration_finds (h : Declaration s us) (hafter : NoElse after) :
    Finds (SameStmt s) declaration us after := by
  intro c hrest hc
  have hdepth : 8 * us.length ≤ 8 * c.rest.length + 8 := by
    rw [hrest, List.length_append]
    omega
  obtain ⟨found, c', hr, hover, hsame⟩ := (stmtFinds _).declaration h hafter hdepth c hrest hc
  exact ⟨found, c', reads_bind.2 ⟨c, c, reads_get.2 ⟨rfl, rfl⟩, hr⟩, hover, hsame⟩

-- ---------------------------------------------------------------------------
-- Whole programs
-- ---------------------------------------------------------------------------

theorem readProgram_finds {c : Cursor} (h : Program body c.rest) (hc : c.stop.kind = .endOfInput)
    (hfuel : c.rest.length < fuel) :
    ∃ found c', readProgram fuel c = (.ok found, c') ∧ SameBody body found := by
  induction fuel generalizing c body with
  | zero => exact absurd hfuel (Nat.not_lt_zero _)
  | succ fuel ih =>
    unfold readProgram
    generalize hus : c.rest = us at h
    cases h with
    | none => exact ⟨[], c, by simp, rfl⟩
    | @cons s us body vs hfirst hrest =>
      have hnext : NoElse vs := by
        rw [← List.append_nil vs]
        exact declarations_noElse hrest fun t ht => by cases ht
      obtain ⟨first, c₁, hr, hover, hsame⟩ := declaration_finds hfirst hnext c hus hc
      obtain ⟨t, left, rfl, -⟩ := declaration_opens hfirst
      obtain rfl : c₁.rest = vs := List.append_cancel_left (hover.rest.symm.trans hus)
      have hshort : c₁.rest.length < fuel := by
        rw [hus, List.length_append, List.length_cons] at hfuel
        omega
      obtain ⟨others, c₂, hr', hsame'⟩ := ih hrest (hover.stop ▸ hc) hshort
      refine ⟨first :: others, c₂, ?_, .cons hsame hsame'⟩
      have hr : declaration.run.run c = (.ok first, c₁) := hr
      simp [hr, hr']

theorem program_derived (hbody : ∀ t ∈ body, t.kind ≠ .endOfInput)
    (hstop : stop.kind = .endOfInput) (h : (program (body ++ [stop]) start).1 = .ok found) :
    Program found body := by
  have hread : readProgram (body.length + 1) ⟨body, stop, false, false, start⟩ = (.ok found, _) :=
    Prod.ext (by rwa [program, ofTokens_closed hbody hstop] at h) rfl
  exact readProgram_derived hread rfl hstop

theorem program_finds (hbody : ∀ t ∈ body, t.kind ≠ .endOfInput)
    (hstop : stop.kind = .endOfInput) (h : Program tree body) (start : NodeId) :
    ∃ found, (program (body ++ [stop]) start).1 = .ok found ∧ SameBody tree found := by
  obtain ⟨found, c, hread, hsame⟩ := readProgram_finds (c := ⟨body, stop, false, false, start⟩) h
    hstop (Nat.lt_succ_self body.length)
  refine ⟨found, ?_, hsame⟩
  rw [program, ofTokens_closed hbody hstop]
  simp only [hread]

end Parser

/-- A program is read exactly if the tokens before the closing one are derived from the grammar.
What is read is the tree of such a derivation, and the tree of every other one is the same. -/
theorem programs_are_derived (hbody : ∀ t ∈ body, t.kind ≠ .endOfInput)
    (hstop : stop.kind = .endOfInput) (start : NodeId) :
    ((∃ found, (Parser.program (body ++ [stop]) start).1 = .ok found) ↔
      ∃ tree, Program tree body) ∧
    ∀ found, (Parser.program (body ++ [stop]) start).1 = .ok found →
      Program found body ∧ ∀ tree, Program tree body → SameBody tree found := by
  refine ⟨⟨fun ⟨found, h⟩ => ⟨found, Parser.program_derived hbody hstop h⟩, ?_⟩, ?_⟩
  · rintro ⟨tree, htree⟩
    obtain ⟨found, hfound, -⟩ := Parser.program_finds hbody hstop htree start
    exact ⟨found, hfound⟩
  · intro found hfound
    refine ⟨Parser.program_derived hbody hstop hfound, fun tree htree => ?_⟩
    obtain ⟨found', hfound', hsame⟩ := Parser.program_finds hbody hstop htree start
    rw [hfound] at hfound'
    cases hfound'
    exact hsame

/-- `for (var i; ; i = a) if (b) if (c) break; else { }` -/
def nestedTokens : List Token :=
  [⟨.kwFor, "for", 1⟩, ⟨.leftParen, "(", 1⟩, ⟨.kwVar, "var", 1⟩, ⟨.identifier, "i", 1⟩,
    ⟨.semicolon, ";", 1⟩, ⟨.semicolon, ";", 1⟩, ⟨.identifier, "i", 1⟩, ⟨.equal, "=", 1⟩,
    ⟨.identifier, "a", 1⟩, ⟨.rightParen, ")", 1⟩, ⟨.kwIf, "if", 1⟩, ⟨.leftParen, "(", 1⟩,
    ⟨.identifier, "b", 1⟩, ⟨.rightParen, ")", 1⟩, ⟨.kwIf, "if", 1⟩, ⟨.leftParen, "(", 1⟩,
    ⟨.identifier, "c", 1⟩, ⟨.rightParen, ")", 1⟩, ⟨.kwBreak, "break", 1⟩, ⟨.semicolon, ";", 1⟩,
    ⟨.kwElse, "else", 1⟩, ⟨.leftBrace, "\x7b", 1⟩, ⟨.rightBrace, "\x7d", 1⟩]

def nestedTree : List Stmt :=
  [.block [.var ⟨.identifier, "i", 1⟩ none, .whileLoop (.literal (.bool true)) <| .block
    [.ifElse (.var 3 ⟨.identifier, "b", 1⟩)
      (.ifElse (.var 4 ⟨.identifier, "c", 1⟩) (.breakLoop ⟨.kwBreak, "break", 1⟩)
        (some (.block []))) none,
    .expression (.assign 2 ⟨.identifier, "i", 1⟩ (.var 1 ⟨.identifier, "a", 1⟩))]]]

/-- The `else` belongs to the inner `if`, and the loop has no condition but a start and a step. -/
theorem else_goes_to_nearest :
    (∀ t ∈ nestedTokens, t.kind ≠ .endOfInput) ∧ (Token.finish 1).kind = .endOfInput ∧
      (Parser.program (nestedTokens ++ [Token.finish 1]) 0).1 = .ok nestedTree ∧
      Program nestedTree nestedTokens := by
  have hbody : ∀ t ∈ nestedTokens, t.kind ≠ .endOfInput := by decide
  have hread : (Parser.program (nestedTokens ++ [Token.finish 1]) 0).1 = .ok nestedTree := by
    decide +kernel
  exact ⟨hbody, rfl, hread, ((programs_are_derived hbody rfl 0).2 _ hread).1⟩

end Treewalk
