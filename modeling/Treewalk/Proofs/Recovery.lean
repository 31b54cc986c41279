import Treewalk.Proofs.Courses
import Treewalk.Proofs.Lines

/-!
# Reading any tokens at all

Whatever list of tokens is read, as a program, an expression or a line: reading comes to an end,
it stands before tokens of the list all the time, not behind the first closing one, and every
declaration goes past a token even if it fails. A program is what its declarations come to one
after the other until one fails. How reading recovers inside a declaration is of no consequence for
that.
-/

namespace Treewalk

namespace Parser

-- ---------------------------------------------------------------------------
-- Positions
-- ---------------------------------------------------------------------------

/-- The cursor stands at a position in the tokens, before which no closing token lies. -/
structure Cursor.Stands (held : List Token) (c : Cursor) (position : Nat) : Prop where
  here : held[position]? = some c.peek
  back : ∃ t, held[position - 1]? = some t
  opened : ∀ t ∈ held.take position, t.kind ≠ .endOfInput
  rest : c.rest = (held.drop position).takeWhile (·.kind ≠ .endOfInput)

/-- Wherever a cursor is led to, it stands at a position in the tokens. -/
theorem stands_of_leads (h : (Cursor.ofTokens tokens lenient start).Leads c) :
    ∃ position, c.Stands (closed tokens) position := by
  obtain ⟨after, hclosed⟩ := Tape.closed_eq tokens lenient start
  have hstop := ofTokens_stop tokens lenient start
  obtain ⟨before, hrest⟩ := h.rest
  have hopen : ∀ t ∈ before ++ c.rest, t.kind ≠ .endOfInput := by
    intro t ht
    rw [hrest, Cursor.ofTokens] at ht
    simpa using List.mem_takeWhile_imp ht
  rw [← hrest, ← h.stop, List.append_assoc] at hclosed
  rw [← h.stop] at hstop
  have hback : before.length - 1 < (before ++ (c.rest ++ c.stop :: after)).length := by
    simp only [List.length_append, List.length_cons]
    omega
  refine ⟨before.length, ?_, ?_, ?_, ?_⟩
  · rw [hclosed, List.getElem?_append_right (Nat.le_refl _), Nat.sub_self, Cursor.peek]
    cases c.rest <;> rfl
  · rw [hclosed]
    exact ⟨_, List.getElem?_eq_getElem hback⟩
  · rw [hclosed, List.take_left]
    exact fun t ht => hopen t (List.mem_append_left _ ht)
  · rw [hclosed, List.drop_left]
    rw [List.takeWhile_append_of_pos fun t ht => by
      simpa using hopen t (List.mem_append_right _ ht)]
    simp [hstop]

/-- The token at the index and the one before it are there, and no closing token lies before the
index. -/
structure Tape.InBounds (held : List Token) (s : Tape) : Prop where
  tokens : s.tokens = held
  here : ∃ t, s.peek? = some t
  back : ∃ t, s.previous? = some t
  opened : ∀ t ∈ s.tokens.take s.current, t.kind ≠ .endOfInput

theorem Tape.Within.inBounds {s : Tape} (h : s.Within) (htokens : s.tokens = held) :
    s.InBounds held :=
  ⟨htokens, ⟨_, h.peek⟩, h.previous, h.opened⟩

-- ---------------------------------------------------------------------------
-- Reading declarations in turn
-- ---------------------------------------------------------------------------

/-- Declarations in turn until no token is left, each with what it comes to. -/
inductive Rounds {σ : Type} (M : Mechanism σ) : σ → List σ → List (Except Error Stmt) → σ → Prop
  | done (h : M.atEnd? c = some true) : Rounds M c [c] [] c
  | next {outcome : Except Error Stmt} (h : M.atEnd? c = some false)
    (hd : Course M declaration c log outcome d) (hlt : M.left d < M.left c)
    (hr : Rounds M d log' outcomes e) : Rounds M c (c :: log ++ log') (outcome :: outcomes) e

theorem Rounds.leads (h : Rounds .suffix c log outcomes d) :
    c.Leads d ∧ ∀ place ∈ log, c.Leads place := by
  induction h with
  | done => exact ⟨.refl _, by simp [Cursor.Leads.refl]⟩
  | next _ hd _ _ ih =>
    refine ⟨hd.leads.1.trans ih.1, fun place hplace => ?_⟩
    obtain hplace | hplace := List.mem_append.1 hplace
    · obtain rfl | hplace := List.mem_cons.1 hplace
      · exact .refl _
      · exact hd.leads.2 place hplace
    · exact hd.leads.1.trans (ih.2 place hplace)

theorem Rounds.indexed (h : Rounds .suffix c log outcomes d) {s : Tape} (hs : s.Shows c) :
    ∃ passed s', Rounds .indexed s passed outcomes s' ∧ s'.Shows d ∧
      ∀ x ∈ passed, x.Within ∧ x.tokens = s.tokens := by
  induction h generalizing s with
  | done h =>
    obtain ⟨hwithin, rfl⟩ := hs
    exact ⟨[s], s, .done (hwithin.atEnd.trans h), ⟨hwithin, rfl⟩, by simp [hwithin]⟩
  | next h hd hlt _ ih =>
    obtain ⟨passed, s₁, hcourse, hs₁, htokens, hpassed⟩ := hd.indexed hs
    obtain ⟨passed', s', hrounds, hs', hpassed'⟩ := ih hs₁
    obtain ⟨hwithin, rfl⟩ := hs
    obtain ⟨-, rfl⟩ := id hs₁
    refine ⟨_, s', .next (hwithin.atEnd.trans h) hcourse hlt hrounds, hs', ?_⟩
    rw [htokens] at hpassed'
    exact List.forall_mem_append.2 ⟨List.forall_mem_cons.2 ⟨⟨hwithin, rfl⟩, hpassed⟩, hpassed'⟩

/-- Each declaration goes past a token, so that as many rounds as there are tokens suffice, and one
for finding that none is left. -/
theorem readProgram_rounds (hc : c.stop.kind = .endOfInput) (h : c.rest.length < fuel) :
    ∃ log outcomes d, Rounds .suffix c log outcomes d ∧ readProgram fuel c = (outcomes.mapM id, d) ∧
      ∀ outcome ∈ outcomes, ¬Exhausted outcome := by
  induction fuel generalizing c with
  | zero => omega
  | succ fuel ih =>
    by_cases hne : c.rest = []
    · have hend : Mechanism.suffix.atEnd? c = some true := by simp [Mechanism.suffix, hne]
      exact ⟨_, [], c, .done hend, by simp [readProgram, hne]; rfl, by simp⟩
    · obtain ⟨log, outcome, d, hd, -, hdepth⟩ := declaration_goes (c.rest.length + 1) c hc
      have hlt : d.rest.length < c.rest.length := by
        have hpast := declaration_past hc hne
        rwa [hd.run] at hpast
      have hdc : d.stop.kind = .endOfInput := hd.leads.1.stop ▸ hc
      have hopen : Mechanism.suffix.atEnd? c = some false := by simp [Mechanism.suffix, hne]
      obtain ⟨log', outcomes, e, hr, hrun, hnone⟩ := ih hdc (by omega)
      refine ⟨_, outcome :: outcomes, e, .next hopen hd hlt hr, ?_, ?_⟩
      · rw [readProgram, if_neg (by simpa using hne), hd.run, List.mapM_cons]
        cases outcome with
        | error e => simp only [hrun]; rfl
        | ok first =>
          simp only [hrun]
          cases outcomes.mapM id <;> rfl
      · exact List.forall_mem_cons.2 ⟨hdepth (Nat.lt_succ_self _), hnone⟩

-- ---------------------------------------------------------------------------
-- Recovering otherwise
-- ---------------------------------------------------------------------------

/-- The same result, at the same cursor, or the same error. -/
inductive SameEnd : Except Error α × Cursor → Except Error α × Cursor → Prop
  | ok (a : α) (d : Cursor) : SameEnd (.ok a, d) (.ok a, d)
  | error (e : Error) (d d' : Cursor) : SameEnd (.error e, d) (.error e, d')

/-- From every cursor the readers come to the same. -/
def Matches (r r' : Reader α) : Prop :=
  ∀ c, SameEnd (r.run.run c) (r'.run.run c)

/-- What is done about a failure leaves it at that, and does nothing about a success. -/
def Mends (mend : Reader Stmt → Reader Stmt) : Prop :=
  ∀ r, Matches r (mend r)

theorem SameEnd.fst {x y : Except Error α × Cursor} (h : SameEnd x y) : x.1 = y.1 := by
  cases h <;> rfl

namespace Matches

variable {α β : Type} {r r' r'' : Reader α}

theorem refl (r : Reader α) : Matches r r := by
  intro c
  rcases r.run.run c with ⟨e | a, d⟩
  · exact .error e d d
  · exact .ok a d

theorem symm (h : Matches r r') : Matches r' r := by
  intro c
  have hc := h c
  generalize r.run.run c = x at hc ⊢
  generalize r'.run.run c = y at hc ⊢
  cases hc with
  | ok a d => exact .ok a d
  | error e d d' => exact .error e d' d

theorem trans (h : Matches r r') (h' : Matches r' r'') : Matches r r'' := by
  intro c
  have hc := h c
  have hc' := h' c
  generalize r.run.run c = x at hc ⊢
  generalize r'.run.run c = y at hc hc'
  generalize r''.run.run c = z at hc' ⊢
  cases hc with
  | ok a d => exact hc'
  | error e d d' =>
    cases hc'
    exact .error e d _

theorem bind {m m' : Reader α} {f f' : α → Reader β} (hm : Matches m m')
    (hf : ∀ a, Matches (f a) (f' a)) : Matches (m >>= f) (m' >>= f') := by
  intro c
  have hc := hm c
  rw [run_bind, run_bind]
  generalize m.run.run c = x at hc ⊢
  generalize m'.run.run c = y at hc ⊢
  cases hc with
  | ok a d => exact hf a d
  | error e d d' => exact .error e d d'

theorem behind {m : Reader α} {f f' : α → Reader β} (hf : ∀ a, Matches (f a) (f' a)) :
    Matches (m >>= f) (m >>= f') :=
  (refl m).bind hf

theorem map {g : α → β} (h : Matches r r') : Matches (g <$> r) (g <$> r') := by
  rw [map_eq_pure_bind, map_eq_pure_bind]
  exact h.bind fun a => refl _

end Matches

theorem Mends.matches {mend mend' : Reader Stmt → Reader Stmt} (h : Mends mend)
    (h' : Mends mend') {r r' : Reader Stmt} (hr : Matches r r') : Matches (mend r) (mend' r') :=
  ((h r).symm.trans hr).trans (h' r')

theorem mends_id : Mends id :=
  fun r => .refl r

theorem mends_recovering : Mends recovering := by
  intro r c
  rw [run_recovering]
  rcases r.run.run c with ⟨e | a, d⟩
  · exact .error e d _
  · exact .ok a d

section

variable {mend mend' : Reader Stmt → Reader Stmt}

/-- Two ways to recover, in the readers of statements. -/
structure StmtMatches (mend mend' : Reader Stmt → Reader Stmt) (depth : Nat) : Prop where
  declaration : Matches (readDeclarationWith mend depth) (readDeclarationWith mend' depth)
  classBody : Matches (readClassWith mend depth) (readClassWith mend' depth)
  members : Matches (readMembersWith mend depth) (readMembersWith mend' depth)
  routine : ∀ callable,
    Matches (readRoutineWith mend depth callable) (readRoutineWith mend' depth callable)
  block : Matches (readBlockWith mend depth) (readBlockWith mend' depth)
  statement : Matches (readStatementWith mend depth) (readStatementWith mend' depth)

theorem readDeclaration_matches (h : Mends mend) (h' : Mends mend')
    (ih : StmtMatches mend mend' depth) :
    Matches (readDeclarationWith mend (depth + 1)) (readDeclarationWith mend' (depth + 1)) := by
  refine h.matches h' (.behind fun t => ?_)
  split
  · exact .refl _
  · refine .behind fun _ => .behind fun word => ?_
    split
    · exact .behind fun _ => ih.classBody.bind fun _ => .refl _
    · exact .behind fun _ => (ih.routine _).bind fun _ => .refl _
    · exact .refl _
    · exact .refl _
  · exact .behind fun _ => ih.classBody
  · exact .behind fun _ => (ih.routine _).bind fun _ => .refl _
  · exact .refl _
  · exact ih.statement

theorem readClass_matches (ih : StmtMatches mend mend' depth) :
    Matches (readClassWith mend (depth + 1)) (readClassWith mend' (depth + 1)) :=
  .behind fun _ => .behind fun _ => ih.members.bind fun _ => .refl _

theorem readMembers_matches (ih : StmtMatches mend mend' depth) :
    Matches (readMembersWith mend (depth + 1)) (readMembersWith mend' (depth + 1)) := by
  refine .behind fun closed => .behind fun ended => ?_
  split
  · exact .refl _
  · refine .behind fun keyword => ?_
    cases keyword <;>
      exact (ih.routine .method).bind fun first => ih.members.bind fun _ => .refl _

theorem readRoutine_matches (ih : StmtMatches mend mend' depth) (callable : Callable) :
    Matches (readRoutineWith mend (depth + 1) callable)
      (readRoutineWith mend' (depth + 1) callable) := by
  refine .behind fun name => .behind fun opened => ?_
  dsimp only
  split <;> exact .behind fun params => .behind fun _ => ih.block.bind fun _ => .refl _

theorem readBlock_matches (ih : StmtMatches mend mend' depth) :
    Matches (readBlockWith mend (depth + 1)) (readBlockWith mend' (depth + 1)) := by
  refine .behind fun closed => .behind fun ended => ?_
  split
  · exact .refl _
  · exact ih.declaration.bind fun first => ih.block.bind fun _ => .refl _

theorem readStatement_matches (ih : StmtMatches mend mend' depth) :
    Matches (readStatementWith mend (depth + 1)) (readStatementWith mend' (depth + 1)) := by
  refine .behind fun t => ?_
  split
  · exact .refl _
  · have cycle (start : Option Stmt) : Matches (do
        let condition ← readUnless .semicolon
        let _ ← expect .semicolon .forCondition
        let step ← readUnless .rightParen
        let _ ← expect .rightParen .forClose
        return forLoop start condition step (← readStatementWith mend depth)) (do
        let condition ← readUnless .semicolon
        let _ ← expect .semicolon .forCondition
        let step ← readUnless .rightParen
        let _ ← expect .rightParen .forClose
        return forLoop start condition step (← readStatementWith mend' depth)) :=
      .behind fun condition => .behind fun _ => .behind fun step => .behind fun _ =>
        ih.statement.bind fun _ => .refl _
    refine .behind fun _ => .behind fun _ => .behind fun first => ?_
    dsimp only
    split
    · exact .behind fun _ => .behind cycle
    · exact .behind fun _ => .behind cycle
    · exact .behind cycle
  · refine .behind fun _ => .behind fun _ => .behind fun condition => .behind fun _ => ?_
    refine ih.statement.bind fun yes => .behind fun keyword => ?_
    cases keyword with
    | none => exact .refl _
    | some _ => exact ih.statement.map.bind fun _ => .refl _
  · exact .behind fun _ => .behind fun _ => .behind fun condition => .behind fun _ =>
      ih.statement.bind fun _ => .refl _
  · exact .refl _
  · exact .behind fun _ => ih.block.bind fun _ => .refl _
  · exact .refl _
  · exact .refl _

theorem stmtMatches (h : Mends mend) (h' : Mends mend') :
    (depth : Nat) → StmtMatches mend mend' depth
  | 0 => ⟨h.matches h' (.refl _), .refl _, .refl _, fun _ => .refl _, .refl _, .refl _⟩
  | depth + 1 => by
    have ih := stmtMatches h h' depth
    exact ⟨readDeclaration_matches h h' ih, readClass_matches ih, readMembers_matches ih,
      readRoutine_matches ih, readBlock_matches ih, readStatement_matches ih⟩

theorem declaration_matches (h : Mends mend) (h' : Mends mend') :
    Matches (declarationWith mend) (declarationWith mend') :=
  .behind fun _ => (stmtMatches h h' _).declaration

end

/-- Declarations in turn until one fails, and no further. -/
def readUntilFailure (mend : Reader Stmt → Reader Stmt) : (fuel : Nat) → Reader (List Stmt)
  | 0 => fail .depth
  | fuel + 1 => do
    if ← atEnd then return []
    else
      let first ← declarationWith mend
      return first :: (← readUntilFailure mend fuel)

theorem readUntilFailure_matches (h : Mends mend) (h' : Mends mend') :
    (fuel : Nat) → Matches (readUntilFailure mend fuel) (readUntilFailure mend' fuel)
  | 0 => .refl _
  | fuel + 1 => by
    refine .behind fun ended => ?_
    split
    · exact .refl _
    · exact (declaration_matches h h').bind fun first =>
        (readUntilFailure_matches h h' fuel).bind fun _ => .refl _

/-- What is read behind the first failure does not matter. -/
theorem readProgram_eq_untilFailure (fuel : Nat) (c : Cursor) :
    (readProgram fuel c).1 = ((readUntilFailure recovering fuel).run.run c).1 := by
  induction fuel generalizing c with
  | zero => rfl
  | succ fuel ih =>
    have hend : atEnd.run.run c = (.ok c.rest.isEmpty, c) := rfl
    rw [readProgram, readUntilFailure, run_bind, hend]
    dsimp only
    split
    · rfl
    · rw [run_bind]
      rcases declaration.run.run c with ⟨e | first, d⟩
      · rfl
      · dsimp only
        rw [run_bind]
        have hd := ih d
        generalize readProgram fuel d = x at hd ⊢
        generalize (readUntilFailure recovering fuel).run.run d = y at hd ⊢
        obtain ⟨x, d'⟩ := x
        obtain ⟨y, d''⟩ := y
        obtain rfl : x = y := hd
        cases x <;> rfl

-- ---------------------------------------------------------------------------
-- Any tokens
-- ---------------------------------------------------------------------------

/-- The reader comes to its outcome from the start of the tokens, without running out of allowance,
and stands at positions in the tokens on its way. A parser that holds the tokens comes to the same
by its index, and makes no access that is out of bounds. -/
def Comes (tokens : List Token) (lenient : Bool) (start : NodeId) (r : Reader α)
    (outcome : Except Error α) (nextId : NodeId) : Prop :=
  ∃ log d, Course .suffix r (Cursor.ofTokens tokens lenient start) log outcome d ∧
    d.nextId = nextId ∧ ¬Exhausted outcome ∧
    (∀ c ∈ d :: log, ∃ position, c.Stands (closed tokens) position) ∧
    ∃ passed s, Course .indexed r (Tape.ofTokens tokens lenient start) passed outcome s ∧
      s.cursor = d ∧ ∀ x ∈ s :: passed, x.InBounds (closed tokens)

theorem Goes.comes {r : Reader α} (tokens : List Token) (lenient : Bool) (start : NodeId)
    (h : Goes ((Cursor.ofTokens tokens lenient start).rest.length + 1) 0 r) :
    ∃ outcome d, r.run.run (Cursor.ofTokens tokens lenient start) = (outcome, d) ∧
      Comes tokens lenient start r outcome d.nextId := by
  obtain ⟨log, outcome, d, hcourse, -, hdepth⟩ := h _ (ofTokens_stop tokens lenient start)
  obtain ⟨passed, s, hindexed, hs, htokens, hpassed⟩ :=
    hcourse.indexed (Tape.shows_ofTokens tokens lenient start)
  refine ⟨outcome, d, hcourse.run, log, d, hcourse, rfl, hdepth (Nat.lt_succ_self _),
    List.forall_mem_cons.2 ⟨stands_of_leads hcourse.leads.1,
      fun c hlog => stands_of_leads (hcourse.leads.2 c hlog)⟩, passed, s, hindexed, hs.cursor, ?_⟩
  exact List.forall_mem_cons.2 ⟨hs.within.inBounds htokens,
    fun x hx => (hpassed x hx).1.inBounds (hpassed x hx).2⟩

theorem program_rounds (tokens : List Token) (start : NodeId) :
    ∃ log outcomes d, Rounds .suffix (Cursor.ofTokens tokens false start) log outcomes d ∧
      program tokens start = (outcomes.mapM id, d.nextId) ∧
      (∀ outcome ∈ outcomes, ¬Exhausted outcome) ∧
      (∀ c ∈ log, ∃ position, c.Stands (closed tokens) position) ∧
      ∃ passed s, Rounds .indexed (Tape.ofTokens tokens false start) passed outcomes s ∧
        s.cursor = d ∧ ∀ x ∈ passed, x.InBounds (closed tokens) := by
  obtain ⟨log, outcomes, d, hrounds, hrun, hdepth⟩ :=
    readProgram_rounds (ofTokens_stop tokens false start) (Nat.lt_succ_self _)
  obtain ⟨passed, s, hindexed, hs, hpassed⟩ :=
    hrounds.indexed (Tape.shows_ofTokens tokens false start)
  exact ⟨log, outcomes, d, hrounds, by simp only [program, hrun], hdepth,
    fun c hlog => stands_of_leads (hrounds.leads.2 c hlog), passed, s, hindexed, hs.cursor,
    fun x hx => (hpassed x hx).1.inBounds (hpassed x hx).2⟩

theorem loneExpression_comes (tokens : List Token) (start : NodeId) :
    Comes tokens false start (do let e ← expression; if ← atEnd then return e else fail .trailing)
      (loneExpression tokens start).1 (loneExpression tokens start).2 := by
  obtain ⟨outcome, d, hrun, hcomes⟩ := Goes.comes tokens false start (r := do
    let e ← expression
    if ← atEnd then return e else fail .trailing) <|
      (expression_goes _).anyway.bind fun e => Goes.atEnd.bind fun ended => by
        split
        · exact .pure e
        · exact .fail (by simp)
  simpa only [loneExpression, hrun] using hcomes

theorem line_comes (tokens : List Token) (start : NodeId) :
    Comes tokens true start (readLine ((Cursor.ofTokens tokens true start).rest.length + 1))
      (line tokens start).1 (line tokens start).2 := by
  obtain ⟨outcome, d, hrun, hcomes⟩ :=
    Goes.comes tokens true start (readLine_goes (Nat.le_refl _))
  simpa only [line, hrun] using hcomes

theorem program_eq_untilFailure (tokens : List Token) (start : NodeId) (h : Mends mend) :
    (program tokens start).1 = ((readUntilFailure mend
      ((Cursor.ofTokens tokens false start).rest.length + 1)).run.run
        (Cursor.ofTokens tokens false start)).1 := by
  rw [← (readUntilFailure_matches mends_recovering h _ _).fst, ← readProgram_eq_untilFailure]
  rfl

/-- Reading any tokens comes to an end at positions in the tokens, and an index that is moved by
guarded steps never gets out of bounds or past the first closing token. A declaration goes past a
token whether or not it succeeds. A program is what its declarations come to until the first that
fails, in whichever way that one, and those inside of it, are recovered from. -/
theorem reading_robust (tokens : List Token) (start : NodeId) :
    (∃ log outcomes d, Rounds .suffix (Cursor.ofTokens tokens false start) log outcomes d ∧
      program tokens start = (outcomes.mapM id, d.nextId) ∧
      (∀ outcome ∈ outcomes, ¬Exhausted outcome) ∧
      (∀ c ∈ log, ∃ position, c.Stands (closed tokens) position) ∧
      ∃ passed s, Rounds .indexed (Tape.ofTokens tokens false start) passed outcomes s ∧
        s.cursor = d ∧ ∀ x ∈ passed, x.InBounds (closed tokens)) ∧
    Comes tokens false start (do let e ← expression; if ← atEnd then return e else fail .trailing)
      (loneExpression tokens start).1 (loneExpression tokens start).2 ∧
    Comes tokens true start (readLine ((Cursor.ofTokens tokens true start).rest.length + 1))
      (line tokens start).1 (line tokens start).2 ∧
    (∀ depth (c : Cursor), c.stop.kind = .endOfInput → c.rest ≠ [] →
      ((readDeclaration depth).run.run c).2.rest.length < c.rest.length) ∧
    ∀ mend, Mends mend → (program tokens start).1 = ((readUntilFailure mend
      ((Cursor.ofTokens tokens false start).rest.length + 1)).run.run
        (Cursor.ofTokens tokens false start)).1 :=
  ⟨program_rounds tokens start, loneExpression_comes tokens start, line_comes tokens start,
    fun depth _ hc hne => readDeclaration_past depth hc hne,
    fun _ h => program_eq_untilFailure tokens start h⟩

/-- A declaration without name or end of the source, behind which another would be read. -/
theorem reading_robust_nameless :
    let tokens : List Token := [⟨.kwVar, "var", 1⟩, ⟨.semicolon, ";", 1⟩, ⟨.kwBreak, "break", 1⟩]
    let c := Cursor.ofTokens tokens false 0
    (c.stop.kind = .endOfInput ∧ c.rest ≠ []) ∧ Mends id ∧
      ((readDeclaration 8).run.run c).2.rest.length < c.rest.length ∧
      (program tokens 0).1 = ((readUntilFailure id (c.rest.length + 1)).run.run c).1 := by
  intro tokens c
  have hc : c.stop.kind = .endOfInput ∧ c.rest ≠ [] := by decide
  obtain ⟨-, -, -, hpast, hmend⟩ := reading_robust tokens 0
  exact ⟨hc, mends_id, hpast 8 c hc.1 hc.2, hmend id mends_id⟩

end Parser

end Treewalk
