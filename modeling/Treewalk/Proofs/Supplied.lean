import Treewalk.Proofs.Abreast
import Treewalk.Proofs.Filling

/-!
# Supplied initial values

A source with `= nil` put into some of its declarations `var x;` is read abreast with the source as
it was. Both readings fail with the same error, or both succeed, with the same numbers for their
nodes and trees that have the same filled form; so do the walks of their scopes.
-/

namespace Treewalk

/-- A source with `= nil` put into some of its declarations. -/
def SuppliedSource (source source' : String) : Prop :=
  Supplied Lexer.Item.Of (Lexer.items (Text.Utf8.encode source))
    (Lexer.items (Text.Utf8.encode source'))

namespace Parser

section
variable {c c' : Cursor}

-- ---------------------------------------------------------------------------
-- Declarations
-- ---------------------------------------------------------------------------

theorem reads_decline (hc : c.rest = t :: left) (ht : p t.kind = false) :
    Reads (acceptIf p) c none c := by
  rw [Reads, acceptIf_cons hc, ht]
  rfl

theorem readOperands_decline (hc : c.rest = t :: left) (ht : level.isOperator t.kind = false) :
    Reads (readOperands (depth + 1) level head) c head c :=
  reads_bind.2 ⟨none, c, reads_decline hc ht, reads_pure.2 ⟨rfl, rfl⟩⟩

theorem readSuffixes_decline (hc : c.rest = t :: left) (ht : t.kind = .semicolon) :
    Reads (readSuffixes (depth + 1) head) c head c := by
  refine reads_bind.2 ⟨t, c, reads_peek.2 ⟨by rw [Cursor.peek, hc]; rfl, rfl⟩, ?_⟩
  simp only [ht]
  exact reads_pure.2 ⟨rfl, rfl⟩

theorem readPrimary_nil (hc : c.rest = t :: left) (ht : t.kind = .kwNil) :
    Reads (readPrimary (depth + 1)) c (.literal .nil) { c with rest := left } := by
  refine reads_bind.2 ⟨t, c, reads_peek.2 ⟨by rw [Cursor.peek, hc]; rfl, rfl⟩, ?_⟩
  simp only [ht]
  refine reads_bind.2 ⟨(), { c with rest := c.rest.tail }, rfl, reads_pure.2 ⟨rfl, ?_⟩⟩
  rw [hc]
  rfl

/-- At each level, `nil` before a semicolon is all that is read. -/
theorem readLevel_nil (hc : c.rest = value :: close :: left) (hvalue : value.kind = .kwNil)
    (hclose : close.kind = .semicolon) (hdepth : 13 - level.rank ≤ depth) :
    Reads (readLevel depth level) c (.literal .nil) { c with rest := close :: left } := by
  induction depth generalizing level with
  | zero => exact absurd hdepth (Nat.not_le.2 (rank_room level))
  | succ depth ih =>
    obtain ⟨d, rfl⟩ : ∃ d, depth = d + 1 := ⟨depth - 1, by have := level.rank_le; omega⟩
    cases level with
    | assignment | conditional =>
      refine reads_bind.2 ⟨_, _, ih (by simpa [Level.rank] using hdepth), ?_⟩
      exact reads_bind.2 ⟨none, _, reads_decline rfl (by simp [hclose]), reads_pure.2 ⟨rfl, rfl⟩⟩
    | unary =>
      refine reads_bind.2 ⟨none, c, reads_decline hc (by simp [hvalue, isUnaryOperator]), ?_⟩
      exact ih (by simpa [Level.rank] using hdepth)
    | call =>
      refine reads_bind.2 ⟨_, _, ih (by simpa [Level.rank] using hdepth), ?_⟩
      exact readSuffixes_decline rfl hclose
    | primary => exact readPrimary_nil hc hvalue
    | _ =>
      refine reads_bind.2 ⟨_, _, ih (by simpa [Level.rank, Level.tighter] using hdepth), ?_⟩
      exact readOperands_decline rfl (by rw [hclose]; rfl)

theorem expression_nil (hc : c.rest = value :: close :: left) (hvalue : value.kind = .kwNil)
    (hclose : close.kind = .semicolon) :
    Reads expression c (.literal .nil) { c with rest := close :: left } :=
  reads_bind.2 ⟨c, c, reads_get.2 ⟨rfl, rfl⟩, readLevel_nil hc hvalue hclose (by simp [Level.rank])⟩

theorem reads_accept (hc : c.rest = t :: left) (ht : p t.kind = true) :
    Reads (acceptIf p) c (some t) { c with rest := left } := by
  rw [Reads, acceptIf_cons hc, ht]
  rfl

theorem reads_expected (hc : c.rest = t :: left) (ht : t.kind = kind) :
    Reads (expect kind fault) c t { c with rest := left } :=
  reads_bind.2 ⟨some t, _, reads_accept hc (decide_eq_true ht), reads_pure.2 ⟨rfl, rfl⟩⟩

theorem readVar_missing (hc : c.rest = name :: close :: left) (hname : name.kind = .identifier)
    (hclose : close.kind = .semicolon) :
    Reads readVar c (.var name none) { c with rest := left } := by
  refine reads_bind.2 ⟨name, _, reads_expected hc hname, ?_⟩
  refine reads_bind.2 ⟨none, _, reads_decline rfl (by simp [hclose]), ?_⟩
  refine reads_bind.2 ⟨none, _, reads_pure.2 ⟨rfl, rfl⟩, ?_⟩
  exact reads_bind.2 ⟨close, _, reads_expected rfl hclose, reads_pure.2 ⟨rfl, rfl⟩⟩

theorem readVar_nil (hc : c.rest = name :: equals :: value :: close :: left)
    (hname : name.kind = .identifier) (hequals : equals.kind = .equal)
    (hvalue : value.kind = .kwNil) (hclose : close.kind = .semicolon) :
    Reads readVar c (.var name (some (.literal .nil))) { c with rest := left } := by
  refine reads_bind.2 ⟨name, _, reads_expected hc hname, ?_⟩
  refine reads_bind.2 ⟨some equals, _, reads_accept rfl (by simp [hequals]), ?_⟩
  refine reads_bind.2 ⟨some (.literal .nil), { c with rest := close :: left },
    reads_map.2 ⟨_, expression_nil rfl hvalue hclose, rfl⟩, ?_⟩
  exact reads_bind.2 ⟨close, _, reads_expected rfl hclose, reads_pure.2 ⟨rfl, rfl⟩⟩

theorem readVar_kept (hc : Twin c c') : Beside 1 (Alike Stmt.filled) readVar readVar c c' := by
  refine .expect_bind hc fun name c₁ c₁' h₁ => ?_
  have finish (initial : Option Expr) {d d' : Cursor} (h : Twin d d') : Beside 0 (Alike Stmt.filled)
      (do let _ ← expect .semicolon .variableEnd; return .var name initial : Reader Stmt)
      (do let _ ← expect .semicolon .variableEnd; return .var name initial : Reader Stmt) d d' :=
    .expect_bind h fun _ _ _ h' => .pure rfl h'.twin
  refine .accept_bind h₁.twin ?_ fun equals c₂ c₂' h₂ => ?_
  · simp only [pure_bind]
    exact finish none h₁.twin
  · refine ((expression_beside h₂.twin).map fun e e' heq => congrArg some heq).bind ?_
    rintro initial _ c₃ c₃' rfl h₃
    exact finish initial h₃.twin

theorem Beside.of_reads {r : Reader α} {r' : Reader β} (h : Reads r c a c₁) (h' : Reads r' c' b c₁')
    (hab : R a b) (hfurther : Further n c c' c₁ c₁') : Beside n R r r' c c' := by
  rw [Reads] at h h'
  rw [Beside, h, h']
  exact .ok hab hfurther

/-- The declaration of a variable, with its keyword: the initial value may be missing on one side
and `nil` on the other. -/
theorem readVar_beside (hc : Twin c c') (hpeek : c.peek.kind = .kwVar) :
    Beside 1 (Alike Stmt.filled) (do advance; readVar) (do advance; readVar) c c' := by
  obtain ⟨left, hrest⟩ := hc.rest_of_peek hpeek (by decide)
  have htokens := hc.rest
  rw [hrest] at htokens
  generalize hrest' : c'.rest = tokens at htokens
  have advanced {d : Cursor} : Reads advance d () { d with rest := d.rest.tail } := rfl
  cases htokens with
  | keep _ hleft =>
    have hadvance : Beside 1 (fun _ _ => True) advance advance c c' := by
      refine .of_reads advanced advanced trivial ⟨hc.moved ?_, ?_, ?_⟩
      · rwa [hrest, hrest']
      · simp [hrest]
      · simp [hrest']
    exact hadvance.bind fun _ _ c₁ c₁' _ h₁ => (readVar_kept h₁.twin).le (by decide)
  | supply _ hname hequals hvalue hclose hleft =>
    -- Only here the cursors go over different tokens: two on the left, and four on the right.
    have hmissing := readVar_missing (c := { c with rest := c.rest.tail }) (by rw [hrest]; rfl)
      hname hclose
    have hnil := readVar_nil (c := { c' with rest := c'.rest.tail }) (by rw [hrest']; rfl)
      hname hequals hvalue hclose
    refine .of_reads (reads_bind.2 ⟨(), _, advanced, hmissing⟩)
      (reads_bind.2 ⟨(), _, advanced, hnil⟩) rfl ⟨hc.moved hleft, ?_, ?_⟩
    · simp [hrest]
    · simp [hrest']

theorem readVar_bind_beside {f f' : Stmt → Reader Stmt} (hc : Twin c c')
    (hpeek : c.peek.kind = .kwVar) (hf : ∀ s s' c₁ c₁', Alike Stmt.filled s s' →
      Further 1 c c' c₁ c₁' → Beside (n - 1) (Alike Stmt.filled) (f s) (f' s') c₁ c₁') :
    Beside n (Alike Stmt.filled) (do advance; let s ← readVar; f s)
      (do advance; let s ← readVar; f' s) c c' := by
  have h := (readVar_beside hc hpeek).bind hf
  rwa [bind_assoc, bind_assoc] at h

theorem readImport_beside (keyword : Token) (hc : Twin c c') :
    Beside 1 (Alike Stmt.filled) (readImport keyword) (readImport keyword) c c' := by
  refine .peek_bind hc ?_
  split
  · next hkind =>
    refine .advance_bind hc hkind (by simp) fun c₁ c₁' h₁ => ?_
    exact .expect_bind h₁.twin fun _ c₂ c₂' h₂ => .pure rfl h₂.twin
  · exact .fail hc

theorem readParameters_beside (room : Nat) (hc : Twin c c') :
    Beside 1 Eq (readParameters room) (readParameters room) c c' := by
  induction room generalizing c c' with
  | zero => exact .fail hc
  | succ room ih =>
    refine .expect_bind hc fun name c₁ c₁' h₁ => ?_
    refine .accept_bind h₁.twin (.pure rfl h₁.twin) fun comma c₂ c₂' h₂ => ?_
    refine (ih h₂.twin).bind ?_
    rintro rest _ c₃ c₃' rfl h₃
    exact .pure rfl h₃.twin

theorem readParameterList_beside (callable : Callable) (hc : Twin c c') :
    Beside 1 Eq (readParameterList callable) (readParameterList callable) c c' := by
  refine .expect_bind hc fun _ c₁ c₁' h₁ => ?_
  have finish (params : List Token) {d d' : Cursor} (h : Twin d d') : Beside 0 Eq
      (do let _ ← expect .rightParen .parametersClose; return params : Reader (List Token))
      (do let _ ← expect .rightParen .parametersClose; return params : Reader (List Token)) d d' :=
    .expect_bind h fun _ _ _ h' => .pure rfl h'.twin
  refine .check_bind h₁.twin fun found => ?_
  split
  · simp only [pure_bind]
    exact finish [] h₁.twin
  · refine (readParameters_beside listLimit h₁.twin).bind ?_
    rintro params _ c₂ c₂' rfl h₂
    exact finish params h₂.twin

theorem readUnless_beside (close : Kind) (hc : Twin c c') :
    Beside 0 Eq (readUnless close) (readUnless close) c c' := by
  refine .check_bind hc fun found => ?_
  split
  · exact .pure rfl hc
  · exact ((expression_beside hc).map fun e e' heq => congrArg some heq).le (by decide)

theorem readExpressionStatement_beside (hc : Twin c c') :
    Beside 1 (Alike Stmt.filled) readExpressionStatement readExpressionStatement c c' := by
  refine (expression_beside hc).bind ?_
  rintro e _ c₁ c₁' rfl h₁
  unfold Beside
  rw [endExpression_run, endExpression_run, h₁.twin.lenient, h₁.twin.rest.isEmpty]
  split
  · refine .ok rfl ⟨?_, Nat.le_refl _, Nat.le_refl _⟩
    exact ⟨h₁.twin.rest, h₁.twin.stop, rfl, rfl, h₁.twin.nextId, h₁.twin.closed⟩
  · have hexpect : Beside 0 (Alike Stmt.filled)
        (do let _ ← expect .semicolon .expressionEnd; return .expression e : Reader Stmt)
        (do let _ ← expect .semicolon .expressionEnd; return .expression e : Reader Stmt) c₁ c₁' :=
      .expect_bind h₁.twin fun _ _ _ h => .pure rfl h.twin
    exact hexpect

-- ---------------------------------------------------------------------------
-- Statements
-- ---------------------------------------------------------------------------

theorem forLoop_filled (start : Option Stmt) (condition step : Option Expr) (body : Stmt) :
    (forLoop start condition step body).filled =
      forLoop (start.map Stmt.filled) condition step body.filled := by
  cases start <;> cases step <;> simp [forLoop, Stmt.filled, Stmt.filledAll]

/-- What the statement readers with an allowance do side by side. -/
structure StmtBeside (depth : Nat) : Prop where
  declaration : ∀ depth' c c', Twin c c' → Room 8 2 depth depth' c c' →
    Beside 1 (Alike Stmt.filled) (readDeclaration depth) (readDeclaration depth') c c'
  classDecl : ∀ depth' c c', Twin c c' → Room 8 1 depth depth' c c' →
    Beside 1 (Alike Stmt.filled) (readClass depth) (readClass depth') c c'
  members : ∀ depth' c c', Twin c c' → Room 8 2 depth depth' c c' →
    Beside 0 (Alike (Prod.map Routine.filledAll Routine.filledAll)) (readMembers depth)
      (readMembers depth') c c'
  routine : ∀ callable depth' c c', Twin c c' → Room 8 1 depth depth' c c' →
    Beside 1 (Alike Routine.filled) (readRoutine depth callable) (readRoutine depth' callable) c c'
  block : ∀ depth' c c', Twin c c' → Room 8 3 depth depth' c c' →
    Beside 1 (Alike Stmt.filledAll) (readBlock depth) (readBlock depth') c c'
  statement : ∀ depth' c c', Twin c c' → Room 8 1 depth depth' c c' →
    Beside 1 (Alike Stmt.filled) (readStatement depth) (readStatement depth') c c'

theorem readDeclaration_beside (ih : StmtBeside depth) (hc : Twin c c')
    (hroom : Room 8 2 (depth + 1) (depth' + 1) c c') :
    Beside 1 (Alike Stmt.filled) (readDeclaration (depth + 1)) (readDeclaration (depth' + 1))
      c c' := by
  refine .recovering (.peek_bind hc ?_)
  split
  · next hkind =>
    refine .advance_bind hc hkind (by decide) fun c₁ c₁' h₁ => ?_
    exact (readImport_beside _ h₁.twin).le (by decide)
  · next hkind =>
    refine .advance_bind hc hkind (by decide) fun c₁ c₁' h₁ => .peek_bind h₁.twin ?_
    split
    · next hkind =>
      refine .advance_bind h₁.twin hkind (by decide) fun c₂ c₂' h₂ => ?_
      have h := h₁.trans h₂
      refine (ih.classDecl _ _ _ h.twin (hroom.after h (by decide))).bind
        fun s s' c₃ c₃' hs h₃ => ?_
      exact .pure (congrArg (Stmt.exportDecl _) hs) h₃.twin
    · next hkind =>
      refine .advance_bind h₁.twin hkind (by decide) fun c₂ c₂' h₂ => ?_
      have h := h₁.trans h₂
      refine (ih.routine _ _ _ _ h.twin (hroom.after h (by decide))).bind
        fun r r' c₃ c₃' hr h₃ => ?_
      exact .pure (congrArg (Stmt.exportDecl _ ∘ Stmt.function) hr) h₃.twin
    · next hkind =>
      refine readVar_bind_beside h₁.twin hkind fun s s' c₂ c₂' hs h₂ => ?_
      exact .pure (congrArg (Stmt.exportDecl _) hs) h₂.twin
    · exact .fail h₁.twin
  · next hkind =>
    refine .advance_bind hc hkind (by decide) fun c₁ c₁' h₁ => ?_
    exact (ih.classDecl _ _ _ h₁.twin (hroom.after h₁ (by decide))).le (by decide)
  · next hkind =>
    refine .advance_bind hc hkind (by decide) fun c₁ c₁' h₁ => ?_
    refine (ih.routine _ _ _ _ h₁.twin (hroom.after h₁ (by decide))).bind ?_
    exact fun r r' c₂ c₂' hr h₂ => .pure (congrArg Stmt.function hr) h₂.twin
  · next hkind => exact readVar_beside hc hkind
  · exact ih.statement _ _ _ hc (hroom.after (.refl hc) (by decide))

theorem readClass_beside (ih : StmtBeside depth) (hc : Twin c c')
    (hroom : Room 8 1 (depth + 1) (depth' + 1) c c') :
    Beside 1 (Alike Stmt.filled) (readClass (depth + 1)) (readClass (depth' + 1)) c c' := by
  refine .expect_bind hc fun name c₁ c₁' h₁ => .expect_bind h₁.twin fun _ c₂ c₂' h₂ => ?_
  refine (ih.members _ _ _ h₂.twin (hroom.after (h₁.trans h₂) (by decide))).bind ?_
  rintro ⟨methods, classMethods⟩ ⟨methods', classMethods'⟩ c₃ c₃' hmembers h₃
  obtain ⟨hmethods, hclassMethods⟩ := Prod.mk.inj hmembers
  refine .expect_bind h₃.twin fun _ c₄ c₄' h₄ => .pure ?_ h₄.twin
  show Stmt.classDecl name _ _ = Stmt.classDecl name _ _
  rw [hmethods, hclassMethods]

theorem readMembers_beside (ih : StmtBeside depth) (hc : Twin c c')
    (hroom : Room 8 2 (depth + 1) (depth' + 1) c c') :
    Beside 0 (Alike (Prod.map Routine.filledAll Routine.filledAll)) (readMembers (depth + 1))
      (readMembers (depth' + 1)) c c' := by
  refine .check_bind hc fun found => .atEnd_bind hc ?_
  split
  · exact .pure rfl hc
  · refine .accept_bind hc ?_ fun keyword c₁ c₁' h₁ => ?_
    · refine (ih.routine _ _ _ _ hc (hroom.after (.refl hc) (by decide))).bind ?_
      intro first first' c₁ c₁' hfirst h₁
      refine (ih.members _ _ _ h₁.twin (hroom.after h₁ (by decide))).bind ?_
      rintro ⟨methods, classMethods⟩ ⟨methods', classMethods'⟩ c₂ c₂' hmembers h₂
      obtain ⟨hmethods, hclassMethods⟩ := Prod.mk.inj hmembers
      refine .pure (Prod.ext ?_ hclassMethods) h₂.twin
      exact congrArg₂ List.cons hfirst hmethods
    · refine (ih.routine _ _ _ _ h₁.twin (hroom.after h₁ (by decide))).bind ?_
      intro first first' c₂ c₂' hfirst h₂
      refine (ih.members _ _ _ h₂.twin (hroom.after (h₁.trans h₂) (by decide))).bind ?_
      rintro ⟨methods, classMethods⟩ ⟨methods', classMethods'⟩ c₃ c₃' hmembers h₃
      obtain ⟨hmethods, hclassMethods⟩ := Prod.mk.inj hmembers
      refine .pure (Prod.ext hmethods ?_) h₃.twin
      exact congrArg₂ List.cons hfirst hclassMethods

theorem readRoutine_beside (ih : StmtBeside depth) (callable : Callable) (hc : Twin c c')
    (hroom : Room 8 1 (depth + 1) (depth' + 1) c c') :
    Beside 1 (Alike Routine.filled) (readRoutine (depth + 1) callable)
      (readRoutine (depth' + 1) callable) c c' := by
  refine .expect_bind hc fun name c₁ c₁' h₁ => ?_
  have finish (params : Option (List Token)) {d d' : Cursor} (h : Further 1 c c' d d') :
      Beside 0 (Alike Routine.filled)
        (do let _ ← expect .leftBrace (.bodyOpen callable)
            return ⟨name, params, ← readBlock depth⟩ : Reader Routine)
        (do let _ ← expect .leftBrace (.bodyOpen callable)
            return ⟨name, params, ← readBlock depth'⟩ : Reader Routine) d d' := by
    refine .expect_bind h.twin fun _ d₁ d₁' h₁ => ?_
    refine (ih.block _ _ _ h₁.twin (hroom.after (h.trans h₁) (by decide))).bind ?_
    exact fun body body' _ _ hbody h₂ => .pure (congrArg (Routine.mk name params) hbody) h₂.twin
  refine .check_bind h₁.twin fun found => ?_
  split
  · refine ((readParameterList_beside callable h₁.twin).map
      fun p p' heq => congrArg some heq).bind ?_
    rintro params _ c₂ c₂' rfl h₂
    exact finish params ((h₁.trans h₂).le (by decide))
  · simp only [pure_bind]
    exact finish none h₁

theorem readBlock_beside (ih : StmtBeside depth) (hc : Twin c c')
    (hroom : Room 8 3 (depth + 1) (depth' + 1) c c') :
    Beside 1 (Alike Stmt.filledAll) (readBlock (depth + 1)) (readBlock (depth' + 1)) c c' := by
  refine .check_bind hc fun found => .atEnd_bind hc ?_
  split
  · exact .expect_bind hc fun _ c₁ c₁' h₁ => .pure rfl h₁.twin
  · refine (ih.declaration _ _ _ hc (hroom.after (.refl hc) (by decide))).bind ?_
    intro first first' c₁ c₁' hfirst h₁
    refine (ih.block _ _ _ h₁.twin (hroom.after h₁ (by decide))).bind ?_
    exact fun rest rest' c₂ c₂' hrest h₂ => .pure (congrArg₂ List.cons hfirst hrest) h₂.twin

/-- The part of a `for` statement behind its start. -/
theorem readForRest_beside (ih : StmtBeside depth) {start start' : Option Stmt}
    (hstart : Alike (Option.map Stmt.filled) start start') {d d' : Cursor}
    (hroom : Room 8 1 (depth + 1) (depth' + 1) c c') (h : Further 1 c c' d d') :
    Beside 0 (Alike Stmt.filled)
      (do
        let condition ← readUnless .semicolon
        let _ ← expect .semicolon .forCondition
        let step ← readUnless .rightParen
        let _ ← expect .rightParen .forClose
        return forLoop start condition step (← readStatement depth) : Reader Stmt)
      (do
        let condition ← readUnless .semicolon
        let _ ← expect .semicolon .forCondition
        let step ← readUnless .rightParen
        let _ ← expect .rightParen .forClose
        return forLoop start' condition step (← readStatement depth') : Reader Stmt) d d' := by
  refine (readUnless_beside _ h.twin).bind ?_
  rintro condition _ c₁ c₁' rfl h₁
  refine .expect_bind h₁.twin fun _ c₂ c₂' h₂ => (readUnless_beside _ h₂.twin).bind ?_
  rintro step _ c₃ c₃' rfl h₃
  refine .expect_bind h₃.twin fun _ c₄ c₄' h₄ => ?_
  have hall := h.trans ((h₁.trans h₂).trans (h₃.trans h₄))
  refine (ih.statement _ _ _ h₄.twin (hroom.after hall (by decide))).bind ?_
  intro body body' c₅ c₅' hbody h₅
  refine .pure ?_ h₅.twin
  show (forLoop start condition step body).filled = (forLoop start' condition step body').filled
  rw [forLoop_filled, forLoop_filled, hstart, hbody]

/-- An expression in parentheses, behind the keyword of a statement. -/
theorem readCondition_beside (hc : Twin c c') {f : Expr → Reader Stmt} {f' : Expr → Reader Stmt}
    (hf : ∀ condition c₁ c₁', Further 3 c c' c₁ c₁' →
      Beside 0 (Alike Stmt.filled) (f condition) (f' condition) c₁ c₁') :
    Beside 0 (Alike Stmt.filled)
      (do
        let _ ← expect .leftParen opening
        let condition ← expression
        let _ ← expect .rightParen closing
        f condition)
      (do
        let _ ← expect .leftParen opening
        let condition ← expression
        let _ ← expect .rightParen closing
        f' condition) c c' := by
  refine .expect_bind hc fun _ c₁ c₁' h₁ => (expression_beside h₁.twin).bind ?_
  rintro condition _ c₂ c₂' rfl h₂
  exact .expect_bind h₂.twin fun _ c₃ c₃' h₃ => hf condition c₃ c₃' (h₁.trans (h₂.trans h₃))

theorem readStatement_beside (ih : StmtBeside depth) (hc : Twin c c')
    (hroom : Room 8 1 (depth + 1) (depth' + 1) c c') :
    Beside 1 (Alike Stmt.filled) (readStatement (depth + 1)) (readStatement (depth' + 1)) c c' := by
  refine .peek_bind hc ?_
  split
  · next hkind =>
    refine .advance_bind hc hkind (by decide) fun c₁ c₁' h₁ => ?_
    exact .expect_bind h₁.twin fun _ c₂ c₂' h₂ => .pure rfl h₂.twin
  · next hkind =>
    refine .advance_bind hc hkind (by decide) fun c₁ c₁' h₁ => ?_
    refine .expect_bind h₁.twin fun _ c₂ c₂' h₂ => .peek_bind h₂.twin ?_
    have h := h₁.trans h₂
    dsimp only
    split
    · next hkind =>
      refine .advance_bind h₂.twin hkind (by decide) fun c₃ c₃' h₃ => ?_
      simp only [pure_bind]
      exact readForRest_beside ih rfl hroom ((h.trans h₃).le (by decide))
    · next hkind =>
      simp only [bind_map_left]
      refine readVar_bind_beside h₂.twin hkind fun s s' c₃ c₃' hs h₃ => ?_
      exact readForRest_beside ih (.some hs) hroom ((h.trans h₃).le (by decide))
    · simp only [bind_map_left]
      refine (readExpressionStatement_beside h₂.twin).bind fun s s' c₃ c₃' hs h₃ => ?_
      exact readForRest_beside ih (.some hs) hroom ((h.trans h₃).le (by decide))
  · next hkind =>
    refine .advance_bind hc hkind (by decide) fun c₁ c₁' h₁ => ?_
    refine readCondition_beside h₁.twin fun condition c₂ c₂' h₂ => ?_
    have h := h₁.trans h₂
    refine (ih.statement _ _ _ h.twin (hroom.after h (by decide))).bind ?_
    intro yes yes' c₃ c₃' hyes h₃
    refine .accept_bind h₃.twin ?_ fun _ c₄ c₄' h₄ => ?_
    · simp only [pure_bind]
      exact .pure (congrArg (Stmt.ifElse condition · none) hyes) h₃.twin
    · have h := (h.trans h₃).trans h₄
      simp only [bind_map_left]
      refine (ih.statement _ _ _ h.twin (hroom.after h (by decide))).bind ?_
      intro no no' c₅ c₅' hno h₅
      exact .pure (congrArg₂ (Stmt.ifElse condition · <| some ·) hyes hno) h₅.twin
  · next hkind =>
    refine .advance_bind hc hkind (by decide) fun c₁ c₁' h₁ => ?_
    refine readCondition_beside h₁.twin fun condition c₂ c₂' h₂ => ?_
    have h := h₁.trans h₂
    refine (ih.statement _ _ _ h.twin (hroom.after h (by decide))).bind ?_
    exact fun body body' c₃ c₃' hbody h₃ =>
      .pure (congrArg (Stmt.whileLoop condition) hbody) h₃.twin
  · next hkind =>
    refine .advance_bind hc hkind (by decide) fun c₁ c₁' h₁ => ?_
    refine (readUnless_beside _ h₁.twin).bind ?_
    rintro value _ c₂ c₂' rfl h₂
    exact .expect_bind h₂.twin fun _ c₃ c₃' h₃ => .pure rfl h₃.twin
  · next hkind =>
    refine .advance_bind hc hkind (by decide) fun c₁ c₁' h₁ => ?_
    refine (ih.block _ _ _ h₁.twin (hroom.after h₁ (by decide))).bind ?_
    exact fun body body' c₂ c₂' hbody h₂ => .pure (congrArg Stmt.block hbody) h₂.twin
  · next hkind =>
    refine .advance_bind hc hkind (by decide) fun c₁ c₁' h₁ => ?_
    refine (expression_beside h₁.twin).bind ?_
    rintro e _ c₂ c₂' rfl h₂
    exact .expect_bind h₂.twin fun _ c₃ c₃' h₃ => .pure rfl h₃.twin
  · exact readExpressionStatement_beside hc

theorem stmtBeside (depth : Nat) : StmtBeside depth := by
  induction depth with
  | zero =>
    exact {
      declaration := fun _ _ _ _ h => (h.zero (by decide)).elim
      classDecl := fun _ _ _ _ h => (h.zero (by decide)).elim
      members := fun _ _ _ _ h => (h.zero (by decide)).elim
      routine := fun _ _ _ _ _ h => (h.zero (by decide)).elim
      block := fun _ _ _ _ h => (h.zero (by decide)).elim
      statement := fun _ _ _ _ h => (h.zero (by decide)).elim }
  | succ depth ih =>
    refine ⟨?_, ?_, ?_, ?_, ?_, ?_⟩
    · intro depth' c c' hc hroom
      obtain ⟨d, rfl⟩ := hroom.exists_succ (by decide)
      exact readDeclaration_beside ih hc hroom
    · intro depth' c c' hc hroom
      obtain ⟨d, rfl⟩ := hroom.exists_succ (by decide)
      exact readClass_beside ih hc hroom
    · intro depth' c c' hc hroom
      obtain ⟨d, rfl⟩ := hroom.exists_succ (by decide)
      exact readMembers_beside ih hc hroom
    · intro callable depth' c c' hc hroom
      obtain ⟨d, rfl⟩ := hroom.exists_succ (by decide)
      exact readRoutine_beside ih callable hc hroom
    · intro depth' c c' hc hroom
      obtain ⟨d, rfl⟩ := hroom.exists_succ (by decide)
      exact readBlock_beside ih hc hroom
    · intro depth' c c' hc hroom
      obtain ⟨d, rfl⟩ := hroom.exists_succ (by decide)
      exact readStatement_beside ih hc hroom

theorem declaration_beside (hc : Twin c c') :
    Beside 1 (Alike Stmt.filled) declaration declaration c c' := by
  have hroom : Room 8 2 (8 * c.rest.length + 8) (8 * c'.rest.length + 8) c c' :=
    ⟨by omega, by omega⟩
  have hread := (stmtBeside _).declaration _ c c' hc hroom
  unfold Beside declaration declarationWith at *
  rw [run_bind, run_bind]
  exact hread

-- ---------------------------------------------------------------------------
-- Whole sources
-- ---------------------------------------------------------------------------

/-- The allowances of the loops are never used up: each declaration has a token of its own. -/
theorem readProgram_beside (hc : Twin c c') (hfuel : c.rest.length < fuel)
    (hfuel' : c'.rest.length < fuel') :
    Agree 0 (Alike Stmt.filledAll) c c' (readProgram fuel c) (readProgram fuel' c') := by
  induction fuel generalizing fuel' c c' with
  | zero => exact absurd hfuel (Nat.not_lt_zero _)
  | succ fuel ih =>
    obtain ⟨n, rfl⟩ : ∃ n, fuel' = n + 1 := ⟨fuel' - 1, by omega⟩
    simp only [readProgram, hc.rest.isEmpty]
    split
    · exact .ok rfl (.refl hc)
    · have hfirst := declaration_beside hc
      unfold Beside at hfirst
      generalize declaration.run.run c = x at hfirst ⊢
      generalize declaration.run.run c' = x' at hfirst ⊢
      cases hfirst with
      | error e => exact .error e
      | @ok first first' c₁ c₁' hfirst h₁ =>
        have hrest : Agree 0 (Alike Stmt.filledAll) c₁ c₁' (readProgram fuel c₁)
            (readProgram n c₁') :=
          ih h₁.twin (by have := h₁.left; omega) (by have := h₁.right; omega)
        dsimp only
        generalize readProgram fuel c₁ = y at hrest ⊢
        generalize readProgram n c₁' = y' at hrest ⊢
        cases hrest with
        | error e => exact .error e
        | ok hbody h₂ => exact .ok (congrArg₂ List.cons hfirst hbody) ((h₁.trans h₂).le (by decide))

theorem Beside.get_bind {f f' : Cursor → Reader α}
    (hf : Beside n R (f c) (f' c') c c') : Beside n R (get >>= f) (get >>= f') c c' :=
  hf

theorem extendLine_beside {l l' : Reader Line} (hfirst : Alike Stmt.filled first first')
    (hl : Beside 0 (Alike Line.filled) l l' c c') :
    Beside 0 (Alike Line.filled)
      (do match ← l with
          | .statements body => return .statements (first :: body)
          | .expression e => return .expression e : Reader Line)
      (do match ← l' with
          | .statements body => return .statements (first' :: body)
          | .expression e => return .expression e : Reader Line) c c' := by
  refine hl.bind fun l l' c₁ c₁' hl h₁ => ?_
  cases l with
  | statements body =>
    cases l' with
    | statements body' =>
      have hbody := congrArg₂ List.cons hfirst (Line.statements.inj hl)
      exact .pure (congrArg Line.statements hbody) h₁.twin
    | expression e => cases hl
  | expression e =>
    cases l' with
    | statements body' => cases hl
    | expression e' => exact .pure hl h₁.twin

theorem readLine_beside (hc : Twin c c') (hfuel : c.rest.length < fuel)
    (hfuel' : c'.rest.length < fuel') :
    Beside 0 (Alike Line.filled) (readLine fuel) (readLine fuel') c c' := by
  induction fuel generalizing fuel' c c' with
  | zero => exact absurd hfuel (Nat.not_lt_zero _)
  | succ fuel ih =>
    obtain ⟨n, rfl⟩ : ∃ n, fuel' = n + 1 := ⟨fuel' - 1, by omega⟩
    refine .atEnd_bind hc ?_
    split
    · exact .pure rfl hc
    · refine (declaration_beside hc).bind fun first first' c₁ c₁' hfirst h₁ => .get_bind ?_
      have hrest : Beside 0 (Alike Line.filled) (readLine fuel) (readLine n) c₁ c₁' :=
        ih h₁.twin (by have := h₁.left; omega) (by have := h₁.right; omega)
      have more := extendLine_beside hfirst hrest
      rw [h₁.twin.bare]
      cases c₁.bare with
      | false => exact more
      | true =>
        have hfills := first.fills
        have hfills' := first'.fills
        rw [← show first.filled = first'.filled from hfirst] at hfills'
        generalize first.filled = full at hfills hfills'
        cases hfills with
        | expression =>
          cases hfills' with
          | expression => exact .pure rfl h₁.twin
        | _ => cases hfills' <;> exact more

end

-- ---------------------------------------------------------------------------
-- From sources to trees
-- ---------------------------------------------------------------------------

/-- What two sources are read as: the same error, or trees that `form` takes to the same, with the
same number of nodes. -/
inductive ReadAlike (form : α → α) : Except Error α × NodeId → Except Error α × NodeId → Prop
  | ok : Alike form a a' → ReadAlike form (.ok a, next) (.ok a', next)
  | error (e : Error) : ReadAlike form (.error e, next) (.error e, next')

theorem Agree.readAlike {x x' : Except Error α × Cursor} (h : Agree n (Alike form) c c' x x') :
    ReadAlike form (x.1, x.2.nextId) (x'.1, x'.2.nextId) := by
  cases h with
  | error e => exact .error e
  | ok ha hfurther =>
    rw [hfurther.twin.nextId]
    exact .ok ha

theorem ofTokens_twin (h : Supplied Token.Of tokens tokens') (lenient : Bool) (start : NodeId) :
    Twin (.ofTokens tokens lenient start) (.ofTokens tokens' lenient start) where
  rest := h.takeWhile
  stop := by rw [Cursor.ofTokens, Cursor.ofTokens, h.find?, h.getLast?]
  lenient := rfl
  bare := rfl
  nextId := rfl
  closed := by
    show ((tokens.find? (·.kind = .endOfInput)).getD _).kind = _
    cases hfind : tokens.find? (·.kind = .endOfInput) with
    | none => rfl
    | some t => simpa using List.find?_some hfind

theorem program_alike (h : Supplied Token.Of tokens tokens') (start : NodeId) :
    ReadAlike Stmt.filledAll (program tokens start) (program tokens' start) :=
  (readProgram_beside (ofTokens_twin h false start) (Nat.lt_succ_self _)
    (Nat.lt_succ_self _)).readAlike

theorem line_alike (h : Supplied Token.Of tokens tokens') (start : NodeId) :
    ReadAlike Line.filled (line tokens start) (line tokens' start) :=
  Agree.readAlike (readLine_beside (ofTokens_twin h true start) (Nat.lt_succ_self _)
    (Nat.lt_succ_self _))

theorem loneExpression_alike (h : Supplied Token.Of tokens tokens') (start : NodeId) :
    ReadAlike id (loneExpression tokens start) (loneExpression tokens' start) := by
  have hread : Beside 0 Eq
      (do let e ← expression; if ← atEnd then return e else fail .trailing : Reader Expr)
      (do let e ← expression; if ← atEnd then return e else fail .trailing : Reader Expr)
      (.ofTokens tokens false start) (.ofTokens tokens' false start) := by
    refine (expression_beside (ofTokens_twin h false start)).bind ?_
    rintro e _ c₁ c₁' rfl h₁
    refine .atEnd_bind h₁.twin ?_
    split
    · exact .pure rfl h₁.twin
    · exact .fail h₁.twin
  exact Agree.readAlike hread

end Parser

/-- Supplying initial values neither makes nor hides a fault of the scanner. -/
theorem scan_supplied {items items' : List Lexer.Item} (h : Supplied Lexer.Item.Of items items') :
    (∃ e, items.mapM id = .error e ∧ items'.mapM id = .error e) ∨
      ∃ tokens tokens', items.mapM id = .ok tokens ∧ items'.mapM id = .ok tokens' ∧
        Supplied Token.Of tokens tokens' := by
  induction h with
  | nil => exact .inr ⟨[], [], rfl, rfl, .nil⟩
  | keep item _ ih =>
    cases item with
    | error e => exact .inl ⟨e, by rw [List.mapM_cons]; rfl, by rw [List.mapM_cons]; rfl⟩
    | ok t =>
      obtain ⟨e, he, he'⟩ | ⟨tokens, tokens', ht, ht', htokens⟩ := ih
      · exact .inl ⟨e, by rw [List.mapM_cons, he]; rfl, by rw [List.mapM_cons, he']; rfl⟩
      · exact .inr ⟨t :: tokens, t :: tokens', by rw [List.mapM_cons, ht]; rfl,
          by rw [List.mapM_cons, ht']; rfl, .keep t htokens⟩
  | supply hkeyword hname hequals hvalue hclose _ ih =>
    obtain ⟨keyword, rfl, hkeyword⟩ := hkeyword
    obtain ⟨name, rfl, hname⟩ := hname
    obtain ⟨equals, rfl, hequals⟩ := hequals
    obtain ⟨value, rfl, hvalue⟩ := hvalue
    obtain ⟨close, rfl, hclose⟩ := hclose
    simp only [List.mapM_cons]
    obtain ⟨e, he, he'⟩ | ⟨tokens, tokens', ht, ht', htokens⟩ := ih
    · rw [he, he']
      exact .inl ⟨e, rfl, rfl⟩
    · rw [ht, ht']
      exact .inr ⟨_, _, rfl, rfl, .supply hkeyword hname hequals hvalue hclose htokens⟩

namespace Prepared

/-- What was read, with its scopes walked. -/
def walked (walk : α → Except Error (List Scope.Note)) (read : Except Error α × NodeId) :
    Except Error (Prepared α) := do
  let tree ← read.1
  let notes ← walk tree
  return ⟨tree, notes, read.2⟩

theorem walked_ok (walk : α → Except Error (List Scope.Note)) (a : α) (next : NodeId) :
    walked walk (.ok a, next) = (walk a).map fun notes => ⟨a, notes, next⟩ := by
  unfold walked
  show (walk a >>= fun notes => pure (Prepared.mk a notes next)) = _
  cases walk a <;> rfl

theorem ofSource_eq (read : List Token → NodeId → Except Error α × NodeId)
    (walk : α → Except Error (List Scope.Note)) (source : String) (start : NodeId) :
    ofSource read walk source start =
      Lexer.scan (Text.Utf8.encode source) >>= fun tokens => walked walk (read tokens start) := rfl

theorem ofSource_alike {read : List Token → NodeId → Except Error α × NodeId}
    {walk : α → Except Error (List Scope.Note)} {form : α → α}
    (hread : ∀ tokens tokens' start, Supplied Token.Of tokens tokens' →
      Parser.ReadAlike form (read tokens start) (read tokens' start))
    (hwalk : ∀ a, walk (form a) = walk a) (h : SuppliedSource source source') (start : NodeId) :
    Alike (Except.map (mapTree form)) (ofSource read walk source start)
      (ofSource read walk source' start) := by
  rw [Alike, ofSource_eq, ofSource_eq, Lexer.scan, Lexer.scan]
  obtain ⟨e, he, he'⟩ | ⟨tokens, tokens', ht, ht', htokens⟩ := scan_supplied h
  · rw [he, he']
  · rw [ht, ht']
    have htree := hread tokens tokens' start htokens
    show Except.map _ (walked walk (read tokens start)) =
      Except.map _ (walked walk (read tokens' start))
    generalize read tokens start = x at htree ⊢
    generalize read tokens' start = x' at htree ⊢
    cases htree with
    | error e => rfl
    | @ok a a' next ha =>
      have hnotes : walk a = walk a' := by rw [← hwalk a, ← hwalk a', ha]
      rw [walked_ok, walked_ok, hnotes]
      cases walk a' with
      | error e => rfl
      | ok notes => exact congrArg (fun tree => Except.ok (Prepared.mk tree notes next)) ha

theorem program_alike (h : SuppliedSource source source') (start : NodeId) :
    Alike (Except.map (mapTree Stmt.filledAll)) (program source start) (program source' start) :=
  ofSource_alike (fun _ _ _ ht => Parser.program_alike ht _)
    (fun body => by rw [Scope.program, Scope.walkStmts_filled, Scope.program]) h start

theorem walkLine_filled (l : Line) : walkLine l.filled = walkLine l := by
  cases l with
  | statements body =>
    show Scope.program _ = Scope.program _
    rw [Scope.program, Scope.walkStmts_filled, Scope.program]
  | expression e => rfl

theorem line_alike (h : SuppliedSource source source') (start : NodeId) :
    Alike (Except.map (mapTree Line.filled)) (line source start) (line source' start) :=
  ofSource_alike (fun _ _ _ ht => Parser.line_alike ht _) walkLine_filled h start

theorem loneExpression_alike (h : SuppliedSource source source') (start : NodeId) :
    loneExpression source start = loneExpression source' start := by
  have hread (tokens tokens' : List Token) (start : NodeId)
      (ht : Supplied Token.Of tokens tokens') :
      Parser.ReadAlike id (Parser.loneExpression tokens start)
        (Parser.loneExpression tokens' start) :=
    Parser.loneExpression_alike ht start
  have halike : Alike (Except.map (mapTree id))
      (ofSource Parser.loneExpression Scope.loneExpression source start)
      (ofSource Parser.loneExpression Scope.loneExpression source' start) :=
    ofSource_alike hread (fun _ => rfl) h start
  have hid : Except.map (mapTree id) = (id : Except Error (Prepared Expr) → _) := by
    funext x
    cases x <;> rfl
  rwa [Alike, hid] at halike

end Prepared

end Treewalk
