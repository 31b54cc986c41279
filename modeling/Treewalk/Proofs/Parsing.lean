import Treewalk.Proofs.Sentences
import Treewalk.Proofs.Reading

/-!
# What is read as a program is of its grammar

`Consumes` says of a reader how its result belongs to the tokens that it goes over and to those that
it leaves. The tokens that are left matter for one rule only: a statement that could take an `else`
is left before another token. The rule for the last statement of a typed line is set aside: every
statement needs its semicolon here.
-/

namespace Treewalk.Parser

-- ---------------------------------------------------------------------------
-- Tokens gone over and tokens left
-- ---------------------------------------------------------------------------

/-- If the reader succeeds before the token `t`, where every statement needs its semicolon, it goes
over tokens that `Good` relates to its result and to the tokens left. -/
def ConsumesFrom (t : Token) (Good : α → List Token → List Token → Prop) (r : Reader α) : Prop :=
  ∀ ⦃c a c'⦄, c.lenient = false → c.stop.kind = .endOfInput → c.peek = t → Reads r c a c' →
    ∃ tokens, c.Over tokens c' ∧ Good a tokens c'.rest

/-- If the reader succeeds, where every statement needs its semicolon, it goes over tokens that
`Good` relates to its result and to the tokens left. -/
def Consumes (Good : α → List Token → List Token → Prop) (r : Reader α) : Prop :=
  ∀ ⦃c a c'⦄, c.lenient = false → c.stop.kind = .endOfInput → Reads r c a c' →
    ∃ tokens, c.Over tokens c' ∧ Good a tokens c'.rest

namespace Consumes

variable {α β : Type} {Good : α → List Token → List Token → Prop}
  {Good' : β → List Token → List Token → Prop}

theorem pure (h : ∀ left, Good a [] left) : Consumes Good (Pure.pure a : Reader α) := by
  intro c b c' _ _ hr
  obtain ⟨rfl, rfl⟩ := reads_pure.1 hr
  exact ⟨[], .refl c', h c'.rest⟩

theorem fail : Consumes Good (Parser.fail fault : Reader α) :=
  fun _ _ _ _ _ hr => (reads_fail.1 hr).elim

theorem bind {m : Reader α} {f : α → Reader β} (hm : Consumes Good m)
    (hf : ∀ a us, Consumes (fun b vs left => Good a us (vs ++ left) → Good' b (us ++ vs) left)
      (f a)) : Consumes Good' (m >>= f) := by
  intro c b c' hstrict hc hr
  obtain ⟨a, c₁, h₁, h₂⟩ := reads_bind.1 hr
  obtain ⟨us, hover, ha⟩ := hm hstrict hc h₁
  obtain ⟨vs, hover', hb⟩ := hf a us (hover.lenient ▸ hstrict) (hover.stop ▸ hc) h₂
  exact ⟨us ++ vs, hover.trans hover', hb (hover'.rest ▸ ha)⟩

/-- A first reader whose result does not depend on what is left. -/
theorem after {Fair : α → List Token → Prop} {m : Reader α} {f : α → Reader β}
    (hm : Consumes (fun a us _ => Fair a us) m)
    (hf : ∀ a us, Fair a us → Consumes (fun b vs left => Good' b (us ++ vs) left) (f a)) :
    Consumes Good' (m >>= f) := by
  intro c b c' hstrict hc hr
  obtain ⟨a, c₁, h₁, h₂⟩ := reads_bind.1 hr
  obtain ⟨us, hover, ha⟩ := hm hstrict hc h₁
  obtain ⟨vs, hover', hb⟩ := hf a us ha (hover.lenient ▸ hstrict) (hover.stop ▸ hc) h₂
  exact ⟨us ++ vs, hover.trans hover', hb⟩

theorem map {m : Reader α} {g : α → β} (hm : Consumes Good m)
    (hg : ∀ a us left, Good a us left → Good' (g a) us left) : Consumes Good' (g <$> m) := by
  rw [map_eq_pure_bind]
  refine hm.bind fun a us => pure fun left ha => ?_
  rw [List.append_nil]
  exact hg a us left ha

theorem weaken {Fair : α → List Token → List Token → Prop} {r : Reader α} (h : Consumes Good r)
    (hgood : ∀ a us left, Good a us left → Fair a us left) : Consumes Fair r := by
  intro c a c' hstrict hc hr
  obtain ⟨us, hover, ha⟩ := h hstrict hc hr
  exact ⟨us, hover, hgood a us _ ha⟩

theorem from_token {r : Reader α} (h : Consumes Good r) (t : Token) : ConsumesFrom t Good r :=
  fun _ _ _ hstrict hc _ hr => h hstrict hc hr

theorem recovering {r : Reader α} (h : Consumes Good r) : Consumes Good (Parser.recovering r) :=
  fun _ _ _ hstrict hc hr => h hstrict hc (reads_recovering.1 hr)

theorem peek_bind {f : Token → Reader β} (hf : ∀ t, ConsumesFrom t Good' (f t)) :
    Consumes Good' (Parser.peek >>= f) := by
  intro c b c' hstrict hc hr
  obtain ⟨t, c₁, h₁, h₂⟩ := reads_bind.1 hr
  obtain ⟨rfl, rfl⟩ := reads_peek.1 h₁
  exact hf _ hstrict hc rfl h₂

/-- A token that is not accepted is not there. -/
theorem accept?_bind {f : Option Token → Reader β}
    (hsome : ∀ t, t.kind = kind → Consumes (fun b us left => Good' b (t :: us) left) (f (some t)))
    (hnone : Consumes (fun b us left => (∀ t ∈ (us ++ left).head?, t.kind ≠ kind) →
      Good' b us left) (f none)) : Consumes Good' (Parser.accept? kind >>= f) := by
  intro c b c' hstrict hc hr
  obtain ⟨found, c₁, h₁, h₂⟩ := reads_bind.1 hr
  obtain ⟨rfl, rfl⟩ | ⟨t, rest, hrest, hp, rfl, rfl⟩ := reads_acceptIf h₁
  · obtain ⟨us, hover, hb⟩ := hnone hstrict hc h₂
    refine ⟨us, hover, hb fun t ht hkind => ?_⟩
    rw [← hover.rest] at ht
    obtain ⟨rest, hrest⟩ := List.head?_eq_some_iff.1 ht
    obtain ⟨_, _, hget, hmatch⟩ := reads_bind.1 h₁
    obtain ⟨rfl, rfl⟩ := reads_get.1 hget
    simp only [hrest, hkind, decide_true, if_true] at hmatch
    obtain ⟨_, _, -, hpure⟩ := reads_bind.1 hmatch
    cases (reads_pure.1 hpure).1
  · have hkind : t.kind = kind := of_decide_eq_true hp
    obtain ⟨us, hover, hb⟩ := hsome t hkind (c := { c with rest := rest }) hstrict hc h₂
    exact ⟨[t] ++ us, (Cursor.Over.one hrest).trans hover, hb⟩

end Consumes

theorem Covers.consumes {Fair : α → List Token → Prop} {r : Reader α} (h : Covers Fair r) :
    Consumes (fun a us _ => Fair a us) r :=
  fun _ _ _ _ hc hr => h hc hr

/-- Only the closing token is not gone over. -/
theorem ConsumesFrom.advance_bind {f : Unit → Reader β} (ht : t.kind ≠ .endOfInput)
    (hf : Consumes (fun b us left => Good b (t :: us) left) (f ())) :
    ConsumesFrom t Good (advance >>= f) := by
  intro c b c' hstrict hc hpeek hr
  obtain ⟨⟨⟩, c₁, h₁, h₂⟩ := reads_bind.1 hr
  have hadvance : CoversFrom t (fun _ us => us = [t]) (advance >>= Pure.pure) :=
    .advance_bind ht (.pure rfl)
  obtain ⟨_, hover, rfl⟩ := hadvance hc hpeek (reads_bind.2 ⟨(), c₁, h₁, reads_pure.2 ⟨rfl, rfl⟩⟩)
  obtain ⟨us, hover', hgood⟩ := hf (hover.lenient ▸ hstrict) (hover.stop ▸ hc) h₂
  exact ⟨[t] ++ us, hover.trans hover', hgood⟩

theorem Covers.atEnd : Covers (fun _ us => us = []) Parser.atEnd := by
  intro c a c' _ hr
  obtain ⟨_, _, h₁, h₂⟩ := reads_bind.1 hr
  obtain ⟨rfl, rfl⟩ := reads_get.1 h₁
  obtain ⟨-, rfl⟩ := reads_pure.1 h₂
  exact ⟨[], .refl _, rfl⟩

-- ---------------------------------------------------------------------------
-- Parts of statements
-- ---------------------------------------------------------------------------

theorem readParameters_covers (room : Nat) :
    Covers (fun names us => Names names us ∧ names.length ≤ room) (readParameters room) := by
  induction room with
  | zero => exact .fail
  | succ room ih =>
    refine Covers.expect.bind fun name us hname => Covers.accept?.bind fun comma vs hcomma => ?_
    obtain ⟨rfl, hname⟩ := hname
    obtain ⟨rfl, hcomma⟩ := hcomma
    cases comma with
    | none => exact .pure ⟨.one hname, by simp⟩
    | some comma =>
      refine ih.map fun names ws hnames => ⟨.more hname (hcomma comma rfl) hnames.1, ?_⟩
      exact Nat.succ_le_succ hnames.2

theorem readParameterList_covers (callable : Callable) :
    Covers ParameterList (readParameterList callable) := by
  refine Covers.expect.bind fun opening us hopen => Covers.check.bind fun closed vs hvs => ?_
  obtain ⟨rfl, hopen⟩ := hopen
  obtain rfl := hvs
  dsimp only
  split
  · rw [pure_bind]
    refine Covers.expect.bind fun closing vs hclosing => .pure ?_
    obtain ⟨rfl, hclosing⟩ := hclosing
    exact .none hopen hclosing
  · refine (readParameters_covers _).bind fun params us hparams => ?_
    refine Covers.expect.bind fun closing vs hclosing => .pure ?_
    obtain ⟨rfl, hclosing⟩ := hclosing
    simpa using ParameterList.some hopen hparams.1 hparams.2 hclosing

/-- Behind its keyword. -/
theorem readVar_covers (hkeyword : keyword.kind = .kwVar) :
    Covers (fun s us => VarDecl s (keyword :: us)) readVar := by
  refine Covers.expect.bind fun name us hname => Covers.accept?.bind fun equal vs hequal => ?_
  obtain ⟨rfl, hname⟩ := hname
  obtain ⟨rfl, hequal⟩ := hequal
  cases equal with
  | none =>
    simp only [pure_bind]
    refine Covers.expect.bind fun semicolon ws hsemicolon => .pure ?_
    obtain ⟨rfl, hsemicolon⟩ := hsemicolon
    exact .plain hkeyword hname hsemicolon
  | some equal =>
    have hinitial : Covers (fun initial us => ∃ e, initial = some e ∧ Phrase .assignment e us)
        (some <$> expression) := expression_covers.map fun e us he => ⟨e, rfl, he⟩
    refine hinitial.bind ?_
    rintro _ us ⟨e, rfl, he⟩
    refine Covers.expect.bind fun semicolon ws hsemicolon => .pure ?_
    obtain ⟨rfl, hsemicolon⟩ := hsemicolon
    simpa using VarDecl.initialized hkeyword hname (hequal equal rfl) he hsemicolon

theorem readUnless_covers (close : Kind) :
    Covers (Maybe (Phrase .assignment)) (readUnless close) := by
  refine Covers.check.bind fun closed us hus => ?_
  obtain rfl := hus
  split
  · exact .pure .absent
  · exact expression_covers.map fun e us he => .present he

theorem readExpressionStatement_consumes :
    Consumes (fun s us _ => ExpressionStmt s us) readExpressionStatement := by
  refine .after expression_covers.consumes fun e us he => ?_
  intro c s c' hstrict hc hr
  have hr := (endExpression_run e c).symm.trans hr
  simp only [hstrict, Bool.false_and, Bool.false_eq_true, if_false] at hr
  obtain ⟨semicolon, c₁, h₁, h₂⟩ := reads_bind.1 hr
  obtain ⟨rfl, rfl⟩ := reads_pure.1 h₂
  obtain ⟨_, hover, rfl, hsemicolon⟩ := Covers.expect hc h₁
  exact ⟨[semicolon], hover, .mk he hsemicolon⟩

theorem readImport_covers (hkeyword : keyword.kind = .kwImport) :
    Covers (fun s us => Declaration s (keyword :: us)) (readImport keyword) := by
  refine Covers.peek_bind fun path => ?_
  split
  · next contents hpath =>
    refine .advance_bind (by simp [hpath]) <| Covers.expect.bind fun semicolon us hsemicolon => ?_
    obtain ⟨rfl, hsemicolon⟩ := hsemicolon
    exact .pure (.importModule hkeyword hpath hsemicolon)
  · exact Covers.from_token .fail path

theorem tested_getD (condition : Option Expr) :
    Tested condition (condition.getD (.literal (.bool true))) := by
  cases condition with
  | none => exact .always
  | some e => exact .given

/-- The loop that is made of the parts of a `for` statement is the one that it stands for. -/
theorem forLoop_stands (start : Option Stmt) (condition step : Option Expr) (body : Stmt) :
    ∃ lap, Stepped body step lap ∧
      Enclosed (.whileLoop (condition.getD (.literal (.bool true))) lap) start
        (forLoop start condition step body) := by
  cases step with
  | none =>
    refine ⟨body, .plain, ?_⟩
    cases start with
    | none => exact .bare
    | some first => exact .block
  | some e =>
    refine ⟨.block [body, .expression e], .step, ?_⟩
    cases start with
    | none => exact .bare
    | some first => exact .block

-- ---------------------------------------------------------------------------
-- Declarations and statements
-- ---------------------------------------------------------------------------

/-- A statement before tokens that are no part of it. -/
def Stated (s : Stmt) (us left : List Token) : Prop :=
  ∃ dangling, Statement dangling s us ∧
    (dangling = true → ∀ t ∈ left.head?, t.kind ≠ .kwElse)

theorem Stated.of_closed (h : Statement false s us) : Stated s us left :=
  ⟨false, h, fun h => (nomatch h)⟩

/-- What the readers of statements with one allowance go over. -/
structure StmtConsumes (depth : Nat) : Prop where
  declaration : Consumes (fun s us _ => Declaration s us) (readDeclaration depth)
  classBody : ∀ keyword : Token, keyword.kind = .kwClass →
    Consumes (fun s us _ => Definition s (keyword :: us)) (readClass depth)
  members : Consumes (fun m us _ => Members m.1 m.2 us) (readMembers depth)
  function : ∀ keyword : Token, keyword.kind = .kwFun →
    Consumes (fun r us _ => Definition (.function r) (keyword :: us)) (readRoutine depth .function)
  method : Consumes (fun r us _ => Method r us) (readRoutine depth .method)
  block : ∀ opening : Token, opening.kind = .leftBrace →
    Consumes (fun body us _ => Block body (opening :: us)) (readBlock depth)
  statement : Consumes Stated (readStatement depth)

theorem readExport_consumes (ih : StmtConsumes depth) (hkeyword : keyword.kind = .kwExport) :
    Consumes (fun s us _ => Declaration s (keyword :: us)) (do
      match (← peek).kind with
      | .kwClass => advance; return .exportDecl keyword (← readClass depth)
      | .kwFun =>
        advance
        return .exportDecl keyword (.function (← readRoutine depth .function))
      | .kwVar => advance; return .exportDecl keyword (← readVar)
      | _ => fail .exportTarget) := by
  refine Consumes.peek_bind fun next => ?_
  split
  · next hnext =>
    refine .advance_bind (by simp [hnext]) <| .after (ih.classBody next hnext) fun s us hs => ?_
    refine .pure fun left => ?_
    simpa using Declaration.exportDecl hkeyword hs
  · next hnext =>
    refine .advance_bind (by simp [hnext]) <| .after (ih.function next hnext) fun r us hr => ?_
    refine .pure fun left => ?_
    simpa using Declaration.exportDecl hkeyword hr
  · next hnext =>
    refine .advance_bind (by simp [hnext]) <| .after (readVar_covers hnext).consumes ?_
    refine fun s us hs => .pure fun left => ?_
    simpa using Declaration.exportDecl hkeyword (.var hs)
  · exact Consumes.from_token .fail next

theorem readDeclaration_consumes (ih : StmtConsumes depth) :
    Consumes (fun s us _ => Declaration s us) (readDeclaration (depth + 1)) := by
  refine Consumes.recovering (Consumes.peek_bind fun t => ?_)
  split
  · next ht =>
    refine .advance_bind (by simp [ht]) ?_
    exact (readImport_covers ht).consumes
  · next ht => exact .advance_bind (by simp [ht]) (readExport_consumes ih ht)
  · next ht =>
    refine .advance_bind (by simp [ht]) ?_
    exact (ih.classBody t ht).weaken fun _ _ _ hs => .definition hs
  · next ht =>
    refine .advance_bind (by simp [ht]) <| .after (ih.function t ht) fun r us hr => ?_
    refine .pure fun left => ?_
    simpa using Declaration.definition hr
  · next ht =>
    refine .advance_bind (by simp [ht]) ?_
    exact (readVar_covers ht).consumes.weaken fun _ _ _ hs => .definition (.var hs)
  · refine Consumes.from_token (ih.statement.weaken fun s us left hs => ?_) t
    obtain ⟨dangling, hs, -⟩ := hs
    exact .statement hs

theorem readClass_consumes (ih : StmtConsumes depth) (hkeyword : keyword.kind = .kwClass) :
    Consumes (fun s us _ => Definition s (keyword :: us)) (readClass (depth + 1)) := by
  refine .after Covers.expect.consumes fun name us hname => ?_
  refine .after Covers.expect.consumes fun opening vs hopening => ?_
  obtain ⟨rfl, hname⟩ := hname
  obtain ⟨rfl, hopening⟩ := hopening
  refine .after ih.members fun members ws hmembers => ?_
  refine .after Covers.expect.consumes fun closing xs hclosing => .pure fun left => ?_
  obtain ⟨rfl, hclosing⟩ := hclosing
  simpa using Definition.classDecl hkeyword hname hopening hmembers hclosing

theorem readMembers_consumes (ih : StmtConsumes depth) :
    Consumes (fun m us _ => Members m.1 m.2 us) (readMembers (depth + 1)) := by
  refine .after Covers.check.consumes fun closed us hus => ?_
  refine .after Covers.atEnd.consumes fun ended vs hvs => ?_
  obtain rfl := hus
  obtain rfl := hvs
  split
  · exact .pure fun _ => .none
  · refine .after Covers.accept?.consumes fun keyword us hkeyword => ?_
    obtain ⟨rfl, hkeyword⟩ := hkeyword
    cases keyword with
    | some keyword =>
      refine .after ih.method fun first us hfirst => .after ih.members fun rest vs hrest => ?_
      refine .pure fun left => ?_
      simpa using Members.classMethod (hkeyword keyword rfl) hfirst hrest
    | none =>
      refine .after ih.method fun first us hfirst => .after ih.members fun rest vs hrest => ?_
      refine .pure fun left => ?_
      simpa using Members.method hfirst hrest

theorem readBody_consumes (ih : StmtConsumes depth) (name : Token) (params : Option (List Token)) :
    Consumes (fun (r : Routine) us _ => r.name = name ∧ r.params = params ∧ Block r.body us) (do
      let _ ← expect .leftBrace (.bodyOpen callable)
      return ⟨name, params, ← readBlock depth⟩) := by
  refine .after Covers.expect.consumes fun opening us hopening => ?_
  obtain ⟨rfl, hopening⟩ := hopening
  refine .after (ih.block opening hopening) fun body us hbody => .pure fun left => ?_
  exact ⟨rfl, rfl, by simpa using hbody⟩

theorem readFunction_consumes (ih : StmtConsumes depth) (hkeyword : keyword.kind = .kwFun) :
    Consumes (fun r us _ => Definition (.function r) (keyword :: us))
      (readRoutine (depth + 1) .function) := by
  refine .after Covers.expect.consumes fun name us hname => ?_
  refine .after Covers.check.consumes fun listed vs hvs => ?_
  obtain ⟨rfl, hname⟩ := hname
  obtain rfl := hvs
  have hparams : Covers (fun found us => ∃ params, found = some params ∧ ParameterList params us)
      (some <$> readParameterList .function) :=
    (readParameterList_covers _).map fun params us h => ⟨params, rfl, h⟩
  refine .after hparams.consumes ?_
  rintro _ vs ⟨params, rfl, hparams⟩
  refine (readBody_consumes ih name (some params)).weaken ?_
  rintro ⟨_, _, body⟩ ws left ⟨rfl, rfl, hbody⟩
  simpa using Definition.function hkeyword hname hparams hbody

theorem readMethod_consumes (ih : StmtConsumes depth) :
    Consumes (fun r us _ => Method r us) (readRoutine (depth + 1) .method) := by
  refine .after Covers.expect.consumes fun name us hname => ?_
  refine .after Covers.check.consumes fun listed vs hvs => ?_
  obtain ⟨rfl, hname⟩ := hname
  obtain rfl := hvs
  have rest (params : Option (List Token)) (vs : List Token) (h : Maybe ParameterList params vs) :
      Consumes (fun r ws _ => Method r ([name] ++ ([] ++ (vs ++ ws)))) (do
        let _ ← expect .leftBrace (.bodyOpen .method)
        return ⟨name, params, ← readBlock depth⟩) := by
    refine (readBody_consumes ih name params).weaken ?_
    rintro ⟨_, _, body⟩ ws left ⟨rfl, rfl, hbody⟩
    simpa using Method.mk hname h hbody
  dsimp only
  split
  · have hparams : Covers (Maybe ParameterList) (some <$> readParameterList .method) :=
      (readParameterList_covers _).map fun params us h => .present h
    exact .after hparams.consumes rest
  · exact .after (.pure fun _ => .absent) rest

theorem readBlock_consumes (ih : StmtConsumes depth) (hopening : opening.kind = .leftBrace) :
    Consumes (fun body us _ => Block body (opening :: us)) (readBlock (depth + 1)) := by
  refine .after Covers.check.consumes fun closed us hus => ?_
  refine .after Covers.atEnd.consumes fun ended vs hvs => ?_
  obtain rfl := hus
  obtain rfl := hvs
  split
  · refine .after Covers.expect.consumes fun closing us hclosing => .pure fun left => ?_
    obtain ⟨rfl, hclosing⟩ := hclosing
    exact .mk hopening .none hclosing
  · refine .after ih.declaration fun first us hfirst => ?_
    refine .after (ih.block opening hopening) fun rest vs hrest => .pure fun left => ?_
    obtain ⟨-, hrest, hclosing⟩ := hrest
    simpa using Block.mk hopening (.cons hfirst hrest) hclosing

theorem readForRest_consumes (ih : StmtConsumes depth) (hkeyword : keyword.kind = .kwFor)
    (hopening : opening.kind = .leftParen) (hstart : Start start us) :
    Consumes (fun s vs left => Stated s (keyword :: opening :: (us ++ vs)) left) (do
      let condition ← readUnless .semicolon
      let _ ← expect .semicolon .forCondition
      let step ← readUnless .rightParen
      let _ ← expect .rightParen .forClose
      return forLoop start condition step (← readStatement depth)) := by
  refine .after (readUnless_covers _).consumes fun condition vs hcondition => ?_
  refine .after Covers.expect.consumes fun semicolon _ hsemicolon => ?_
  refine .after (readUnless_covers _).consumes fun step ws hstep => ?_
  refine .after Covers.expect.consumes fun closing _ hclosing => ?_
  obtain ⟨rfl, hsemicolon⟩ := hsemicolon
  obtain ⟨rfl, hclosing⟩ := hclosing
  refine ih.statement.bind fun body xs => .pure ?_
  rintro left ⟨dangling, hbody, hleft⟩
  obtain ⟨lap, hlap, hloop⟩ := forLoop_stands start condition step body
  refine ⟨dangling, ?_, by simpa using hleft⟩
  simpa using Statement.forLoop hkeyword hopening hstart hcondition hsemicolon hstep hclosing hbody
    (tested_getD condition) hlap hloop

theorem readFor_consumes (ih : StmtConsumes depth) (hkeyword : keyword.kind = .kwFor) :
    Consumes (fun s us left => Stated s (keyword :: us) left) (do
      let _ ← expect .leftParen .forOpen
      let start ← match (← peek).kind with
        | .semicolon => do advance; pure none
        | .kwVar => do advance; some <$> readVar
        | _ => some <$> readExpressionStatement
      let condition ← readUnless .semicolon
      let _ ← expect .semicolon .forCondition
      let step ← readUnless .rightParen
      let _ ← expect .rightParen .forClose
      return forLoop start condition step (← readStatement depth)) := by
  refine .after Covers.expect.consumes fun opening _ hopening => ?_
  obtain ⟨rfl, hopening⟩ := hopening
  refine Consumes.peek_bind fun t => ?_
  dsimp only
  split
  · next ht =>
    refine .advance_bind (by simp [ht]) ?_
    exact readForRest_consumes ih hkeyword hopening (.none ht)
  · next ht =>
    refine .advance_bind (by simp [ht]) ?_
    have hstart : Covers (fun start us => Start start (t :: us)) (some <$> readVar) :=
      (readVar_covers ht).map fun s us hs => .var hs
    refine .after hstart.consumes fun start us hstart => ?_
    exact readForRest_consumes ih hkeyword hopening hstart
  · have hstart : Consumes (fun start us _ => Start start us) (some <$> readExpressionStatement) :=
      readExpressionStatement_consumes.map fun s us _ hs => .expression hs
    refine Consumes.from_token (.after hstart fun start us hstart => ?_) t
    exact readForRest_consumes ih hkeyword hopening hstart

theorem readIf_consumes (ih : StmtConsumes depth) (hkeyword : keyword.kind = .kwIf) :
    Consumes (fun s us left => Stated s (keyword :: us) left) (do
      let _ ← expect .leftParen .ifOpen
      let condition ← expression
      let _ ← expect .rightParen .ifClose
      let yes ← readStatement depth
      let no ← match ← accept? .kwElse with
        | some _ => some <$> readStatement depth
        | none => pure none
      return .ifElse condition yes no) := by
  refine .after Covers.expect.consumes fun opening _ hopening => ?_
  refine .after expression_covers.consumes fun condition us hcondition => ?_
  refine .after Covers.expect.consumes fun closing _ hclosing => ?_
  obtain ⟨rfl, hopening⟩ := hopening
  obtain ⟨rfl, hclosing⟩ := hclosing
  refine ih.statement.bind fun yes vs => Consumes.accept?_bind (fun otherwise hotherwise => ?_) ?_
  · have hno : Consumes (fun no ws left => ∃ other, no = some other ∧ Stated other ws left)
        (some <$> readStatement depth) := ih.statement.map fun other _ _ hno => ⟨other, rfl, hno⟩
    refine hno.bind fun no ws => .pure ?_
    rintro left ⟨other, rfl, dangling, hno, hleft⟩ ⟨dangling', hyes, hopen⟩
    -- What could take the `else` would have taken it.
    obtain rfl : dangling' = false := by
      cases dangling' with
      | false => rfl
      | true => exact absurd hotherwise (hopen rfl otherwise rfl)
    refine ⟨dangling, ?_, by simpa using hleft⟩
    simpa using Statement.ifElse hkeyword hopening hcondition hclosing hyes hotherwise hno
  · refine .pure fun left hleft => ?_
    rintro ⟨dangling, hyes, -⟩
    refine ⟨true, ?_, fun _ => by simpa using hleft⟩
    simpa using Statement.ifThen hkeyword hopening hcondition hclosing hyes

theorem readStatement_consumes (ih : StmtConsumes depth) :
    Consumes Stated (readStatement (depth + 1)) := by
  refine Consumes.peek_bind fun t => ?_
  split
  · next ht =>
    refine .advance_bind (by simp [ht]) ?_
    refine .after Covers.expect.consumes fun semicolon _ hsemicolon => .pure fun left => ?_
    obtain ⟨rfl, hsemicolon⟩ := hsemicolon
    exact .of_closed (.breakLoop ht hsemicolon)
  · next ht => exact .advance_bind (by simp [ht]) (readFor_consumes ih ht)
  · next ht => exact .advance_bind (by simp [ht]) (readIf_consumes ih ht)
  · next ht =>
    refine .advance_bind (by simp [ht]) ?_
    refine .after Covers.expect.consumes fun opening _ hopening => ?_
    refine .after expression_covers.consumes fun condition us hcondition => ?_
    refine .after Covers.expect.consumes fun closing _ hclosing => ?_
    obtain ⟨rfl, hopening⟩ := hopening
    obtain ⟨rfl, hclosing⟩ := hclosing
    refine ih.statement.bind fun body vs => .pure ?_
    rintro left ⟨dangling, hbody, hleft⟩
    refine ⟨dangling, ?_, by simpa using hleft⟩
    simpa using Statement.whileLoop ht hopening hcondition hclosing hbody
  · next ht =>
    refine .advance_bind (by simp [ht]) ?_
    refine .after (readUnless_covers _).consumes fun value us hvalue => ?_
    refine .after Covers.expect.consumes fun semicolon _ hsemicolon => .pure fun left => ?_
    obtain ⟨rfl, hsemicolon⟩ := hsemicolon
    exact .of_closed (by simpa using Statement.returnValue ht hvalue hsemicolon)
  · next ht =>
    refine .advance_bind (by simp [ht]) <| .after (ih.block t ht) fun body us hbody => ?_
    exact .pure fun left => .of_closed (.block (by simpa using hbody))
  · next ht =>
    refine .advance_bind (by simp [ht]) ?_
    refine .after expression_covers.consumes fun e us he => ?_
    refine .after Covers.expect.consumes fun semicolon _ hsemicolon => .pure fun left => ?_
    obtain ⟨rfl, hsemicolon⟩ := hsemicolon
    exact .of_closed (by simpa using Statement.print ht he hsemicolon)
  · refine Consumes.from_token ?_ t
    exact readExpressionStatement_consumes.weaken fun s us left hs => .of_closed (.expression hs)

theorem stmtConsumes (depth : Nat) : StmtConsumes depth := by
  induction depth with
  | zero =>
    exact ⟨.recovering .fail, fun _ _ => .fail, .fail, fun _ _ => .fail, .fail, fun _ _ => .fail,
      .fail⟩
  | succ depth ih =>
    exact ⟨readDeclaration_consumes ih, fun _ => readClass_consumes ih, readMembers_consumes ih,
      fun _ => readFunction_consumes ih, readMethod_consumes ih, fun _ => readBlock_consumes ih,
      readStatement_consumes ih⟩

theorem declaration_consumes : Consumes (fun s us _ => Declaration s us) declaration := by
  intro c s c' hstrict hc hr
  obtain ⟨_, _, h₁, h₂⟩ := reads_bind.1 hr
  obtain ⟨rfl, rfl⟩ := reads_get.1 h₁
  exact (stmtConsumes _).declaration hstrict hc h₂

-- ---------------------------------------------------------------------------
-- Whole programs
-- ---------------------------------------------------------------------------

theorem readProgram_derived {c c' : Cursor} (h : readProgram fuel c = (.ok body, c'))
    (hstrict : c.lenient = false) (hc : c.stop.kind = .endOfInput) : Program body c.rest := by
  induction fuel generalizing c body with
  | zero => cases h
  | succ fuel ih =>
    unfold readProgram at h
    split at h
    · next hend =>
      cases h
      rw [List.isEmpty_iff.1 hend]
      exact .none
    · split at h
      · next first c₁ hfirst =>
        obtain ⟨us, hover, hderived⟩ := declaration_consumes hstrict hc hfirst
        split at h
        · next rest c₂ hrest =>
          cases h
          rw [hover.rest]
          exact .cons hderived (ih hrest (hover.lenient.trans hstrict) (hover.stop ▸ hc))
        · cases h
      · cases h

end Treewalk.Parser
