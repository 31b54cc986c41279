import Treewalk.Proofs.Readable

/-!
# Readers abreast

Two cursors stand before the same tokens, except that the second has `= nil` in some declarations
where the first has just `var x;`. No reader but that of a declaration goes past the word `var`, so
up to there readers that work from both cursors abreast see the same tokens, and behind the
declaration they do again. In particular an expression is read alike from both.
-/

namespace Treewalk

/-- The second list is the first with `= nil` put into some of the declarations `var x;`. Of which
kind an entry is, `Of` says. -/
inductive Supplied (Of : Kind → α → Prop) : List α → List α → Prop
  | nil : Supplied Of [] []
  | keep (a : α) : Supplied Of rest rest' → Supplied Of (a :: rest) (a :: rest')
  | supply : Of .kwVar keyword → Of .identifier name → Of .equal equals → Of .kwNil value →
    Of .semicolon close → Supplied Of rest rest' →
    Supplied Of (keyword :: name :: close :: rest)
      (keyword :: name :: equals :: value :: close :: rest')

namespace Supplied

theorem refl (Of : Kind → α → Prop) : (as : List α) → Supplied Of as as
  | [] => .nil
  | a :: as => .keep a (refl Of as)

variable {Of : Kind → α → Prop}

theorem head? (h : Supplied Of as as') : as'.head? = as.head? := by
  cases h <;> rfl

theorem isEmpty (h : Supplied Of as as') : as'.isEmpty = as.isEmpty := by
  cases h <;> rfl

end Supplied

def Token.Of (kind : Kind) (t : Token) : Prop :=
  t.kind = kind

def Lexer.Item.Of (kind : Kind) (item : Lexer.Item) : Prop :=
  ∃ t, item = .ok t ∧ t.kind = kind

namespace Supplied

theorem takeWhile (h : Supplied Token.Of tokens tokens') :
    Supplied Token.Of (tokens.takeWhile (·.kind ≠ .endOfInput))
      (tokens'.takeWhile (·.kind ≠ .endOfInput)) := by
  induction h with
  | nil => exact .nil
  | keep t _ ih =>
    simp only [List.takeWhile_cons]
    split
    · exact .keep t ih
    · exact .nil
  | supply hkeyword hname hequals hvalue hclose _ ih =>
    simp only [Token.Of] at hkeyword hname hequals hvalue hclose
    simp only [List.takeWhile_cons, hkeyword, hname, hequals, hvalue, hclose, ne_eq, reduceCtorEq,
      not_false_eq_true, decide_true, if_true]
    exact .supply hkeyword hname hequals hvalue hclose ih

theorem find? (h : Supplied Token.Of tokens tokens') :
    tokens'.find? (·.kind = .endOfInput) = tokens.find? (·.kind = .endOfInput) := by
  induction h with
  | nil => rfl
  | keep t _ ih => rw [List.find?_cons, List.find?_cons, ih]
  | supply hkeyword hname hequals hvalue hclose _ ih =>
    simp only [Token.Of] at hkeyword hname hequals hvalue hclose
    simp only [List.find?_cons, hkeyword, hname, hequals, hvalue, hclose, reduceCtorEq,
      decide_false, ih]

theorem getLast? {Of : Kind → α → Prop} (h : Supplied Of as as') : as'.getLast? = as.getLast? := by
  induction h with
  | nil => rfl
  | keep a _ ih => rw [List.getLast?_cons, List.getLast?_cons, ih]
  | supply _ _ _ _ _ _ ih => simp only [List.getLast?_cons, ih, Option.getD_some]

end Supplied

namespace Parser

-- ---------------------------------------------------------------------------
-- Readers side by side
-- ---------------------------------------------------------------------------

/-- Cursors before tokens of which the second are the first with initial values supplied. -/
structure Twin (c c' : Cursor) : Prop where
  rest : Supplied Token.Of c.rest c'.rest
  stop : c'.stop = c.stop
  lenient : c'.lenient = c.lenient
  bare : c'.bare = c.bare
  nextId : c'.nextId = c.nextId
  closed : c.stop.kind = .endOfInput

/-- The cursors have gone on by `n` tokens or more, and are twins again. -/
structure Further (n : Nat) (c c' c₁ c₁' : Cursor) : Prop where
  twin : Twin c₁ c₁'
  left : c₁.rest.length + n ≤ c.rest.length
  right : c₁'.rest.length + n ≤ c'.rest.length

/-- The outcomes of two readers: the same error, or results as `R` says, `n` tokens or more behind
where the readers began. -/
inductive Agree (n : Nat) (R : α → β → Prop) (c c' : Cursor) :
    Except Error α × Cursor → Except Error β × Cursor → Prop
  | ok : R a b → Further n c c' c₁ c₁' → Agree n R c c' (.ok a, c₁) (.ok b, c₁')
  | error (e : Error) : Agree n R c c' (.error e, c₁) (.error e, c₁')

/-- The readers, one from each cursor, have outcomes that agree. -/
def Beside (n : Nat) (R : α → β → Prop) (r : Reader α) (r' : Reader β) (c c' : Cursor) : Prop :=
  Agree n R c c' (r.run.run c) (r'.run.run c')

theorem Further.refl (h : Twin c c') : Further 0 c c' c c' :=
  ⟨h, Nat.le_refl _, Nat.le_refl _⟩

theorem Further.trans (h : Further k c c' c₁ c₁') (h' : Further n c₁ c₁' c₂ c₂') :
    Further (k + n) c c' c₂ c₂' := by
  refine ⟨h'.twin, ?_, ?_⟩
  · have := h.left
    have := h'.left
    omega
  · have := h.right
    have := h'.right
    omega

theorem Further.le (h : Further n c c' c₁ c₁') (hle : k ≤ n) : Further k c c' c₁ c₁' :=
  ⟨h.twin, by have := h.left; omega, by have := h.right; omega⟩

theorem run_bind (m : Reader α) (f : α → Reader β) (c : Cursor) :
    (m >>= f).run.run c =
      match m.run.run c with
      | (.ok a, c₁) => (f a).run.run c₁
      | (.error e, c₁) => (.error e, c₁) := by
  show (ExceptT.bindCont f (m.run.run c).1).run (m.run.run c).2 = _
  rcases m.run.run c with ⟨_ | _, _⟩ <;> rfl

namespace Beside

variable {α β α' β' : Type} {R : α → α' → Prop} {S : β → β' → Prop} {c c' : Cursor}

theorem pure (h : R a b) (hc : Twin c c') :
    Beside 0 R (Pure.pure a : Reader α) (Pure.pure b : Reader α') c c' :=
  .ok h (.refl hc)

theorem throw (e : Error) :
    Beside n R (MonadExcept.throw e : Reader α) (MonadExcept.throw e : Reader α') c c' :=
  .error e

theorem bind {m : Reader α} {m' : Reader α'} {f : α → Reader β} {f' : α' → Reader β'}
    (hm : Beside k R m m' c c')
    (hf : ∀ a b c₁ c₁', R a b → Further k c c' c₁ c₁' → Beside (n - k) S (f a) (f' b) c₁ c₁') :
    Beside n S (m >>= f) (m' >>= f') c c' := by
  unfold Beside at hm ⊢
  rw [run_bind, run_bind]
  generalize m.run.run c = x at hm ⊢
  generalize m'.run.run c' = x' at hm ⊢
  cases hm with
  | error e => exact .error e
  | @ok a b c₁ c₁' hab hfurther =>
    have hrest := hf a b c₁ c₁' hab hfurther
    unfold Beside at hrest
    dsimp only
    generalize (f a).run.run c₁ = y at hrest ⊢
    generalize (f' b).run.run c₁' = y' at hrest ⊢
    cases hrest with
    | error e => exact .error e
    | ok hxy hfurther' => exact .ok hxy ((hfurther.trans hfurther').le (by omega))

theorem le {r : Reader α} {r' : Reader α'} (h : Beside n R r r' c c') (hle : k ≤ n) :
    Beside k R r r' c c' := by
  unfold Beside at h ⊢
  generalize r.run.run c = x at h ⊢
  generalize r'.run.run c' = x' at h ⊢
  cases h with
  | error e => exact .error e
  | ok hab hfurther => exact .ok hab (hfurther.le hle)

theorem map {r : Reader α} {r' : Reader α'} {g : α → β} {g' : α' → β'} (h : Beside n R r r' c c')
    (hg : ∀ a b, R a b → S (g a) (g' b)) : Beside n S (g <$> r) (g' <$> r') c c' := by
  rw [map_eq_pure_bind, map_eq_pure_bind]
  refine h.bind fun a b c₁ c₁' hab hfurther => ?_
  rw [Nat.sub_self]
  exact .pure (hg a b hab) hfurther.twin

theorem recovering {r : Reader α} {r' : Reader α'} (h : Beside n R r r' c c') :
    Beside n R (Parser.recovering r) (Parser.recovering r') c c' := by
  have unfolded {γ : Type} (m : Reader γ) (d : Cursor) : (Parser.recovering m).run.run d =
      match m.run.run d with
      | (.ok a, d₁) => (.ok a, d₁)
      | (.error e, d₁) => (.error e, { d₁ with rest := resume d₁.rest }) := by
    show StateT.run (ExceptT.run (tryCatch m _)) d = _
    simp only [tryCatch, tryCatchThe, MonadExceptOf.tryCatch, ExceptT.tryCatch, ExceptT.run,
      ExceptT.mk, StateT.run_bind]
    rcases StateT.run m d with ⟨_ | _, _⟩ <;> rfl
  unfold Beside at h ⊢
  rw [unfolded, unfolded]
  generalize r.run.run c = x at h ⊢
  generalize r'.run.run c' = x' at h ⊢
  cases h with
  | error e => exact .error e
  | ok hab hfurther => exact .ok hab hfurther

end Beside

-- ---------------------------------------------------------------------------
-- Tokens ahead
-- ---------------------------------------------------------------------------

namespace Twin

variable {c c' : Cursor}

theorem peek (h : Twin c c') : c'.peek = c.peek := by
  rw [Cursor.peek, Cursor.peek, h.rest.head?, h.stop]

theorem moved (h : Twin c c') (hleft : Supplied Token.Of left left') :
    Twin { c with rest := left } { c' with rest := left' } :=
  ⟨hleft, h.stop, h.lenient, h.bare, h.nextId, h.closed⟩

theorem renumbered (h : Twin c c') :
    Twin { c with nextId := c.nextId + 1 } { c' with nextId := c'.nextId + 1 } :=
  ⟨h.rest, h.stop, h.lenient, h.bare, congrArg (· + 1) h.nextId, h.closed⟩

/-- Any token but `var` stands before the same tokens on both sides. -/
theorem split (h : Twin c c') (hc : c.rest = t :: left) (ht : t.kind ≠ .kwVar) :
    ∃ left', c'.rest = t :: left' ∧ Supplied Token.Of left left' := by
  have hrest := h.rest
  rw [hc] at hrest
  generalize c'.rest = tokens at hrest
  cases hrest with
  | keep _ hleft => exact ⟨_, rfl, hleft⟩
  | supply hkeyword => exact absurd hkeyword ht

theorem further (h : Twin c c') (hc : c.rest = t :: left) (ht : t.kind ≠ .kwVar) :
    Further 1 c c' { c with rest := c.rest.tail } { c' with rest := c'.rest.tail } := by
  obtain ⟨left', hc', hleft⟩ := h.split hc ht
  refine ⟨h.moved ?_, by simp [hc], by simp [hc']⟩
  rwa [hc, hc']

/-- The token that is next stands before the closing one, unless it is of its kind. -/
theorem rest_of_peek (h : Twin c c') (hpeek : c.peek.kind = kind) (hkind : kind ≠ .endOfInput) :
    ∃ left, c.rest = c.peek :: left := by
  unfold Cursor.peek at hpeek ⊢
  cases hrest : c.rest with
  | nil =>
    rw [hrest] at hpeek
    exact absurd (hpeek.symm.trans h.closed) hkind
  | cons t left => exact ⟨left, rfl⟩

end Twin

theorem run_get (c : Cursor) : (get : Reader Cursor).run.run c = (.ok c, c) := rfl

theorem acceptIf_nil {c : Cursor} (h : c.rest = []) : (acceptIf p).run.run c = (.ok none, c) := by
  rw [acceptIf, run_bind, run_get]
  dsimp only
  rw [h]
  rfl

theorem acceptIf_cons {c : Cursor} (h : c.rest = t :: left) : (acceptIf p).run.run c =
    if p t.kind then (.ok (some t), { c with rest := left }) else (.ok none, c) := by
  rw [acceptIf, run_bind, run_get]
  dsimp only
  rw [h]
  by_cases hp : p t.kind = true
  · simp only [hp, if_true]
    show (Except.ok (some t), { c with rest := c.rest.tail }) = _
    rw [h]
    rfl
  · simp only [hp]
    rfl

namespace Beside

variable {α β α' β' : Type} {R : α → α' → Prop} {S : β → β' → Prop} {c c' : Cursor}

theorem fail (hc : Twin c c') :
    Beside n R (Parser.fail fault : Reader α) (Parser.fail fault : Reader α') c c' := by
  show Agree n R c c' (.error (.parse c.peek.site fault), c)
    (.error (.parse c'.peek.site fault), c')
  rw [hc.peek]
  exact .error _

theorem peek_bind {f : Token → Reader β} {f' : Token → Reader β'} (hc : Twin c c')
    (hf : Beside n S (f c.peek) (f' c.peek) c c') :
    Beside n S (Parser.peek >>= f) (Parser.peek >>= f') c c' := by
  show Agree n S c c' ((f c.peek).run.run c) ((f' c'.peek).run.run c')
  rw [hc.peek]
  exact hf

theorem atEnd_bind {f : Bool → Reader β} {f' : Bool → Reader β'} (hc : Twin c c')
    (hf : Beside n S (f c.rest.isEmpty) (f' c.rest.isEmpty) c c') :
    Beside n S (Parser.atEnd >>= f) (Parser.atEnd >>= f') c c' := by
  show Agree n S c c' ((f c.rest.isEmpty).run.run c) ((f' c'.rest.isEmpty).run.run c')
  rw [hc.rest.isEmpty]
  exact hf

theorem check_bind {f : Bool → Reader β} {f' : Bool → Reader β'} (hc : Twin c c')
    (hf : ∀ found, Beside n S (f found) (f' found) c c') :
    Beside n S (Parser.check kind >>= f) (Parser.check kind >>= f') c c' := by
  show Agree n S c c' ((f (c.rest.head?.any (·.kind = kind))).run.run c)
    ((f' (c'.rest.head?.any (·.kind = kind))).run.run c')
  rw [hc.rest.head?]
  exact hf _

theorem freshId_bind {f : NodeId → Reader β} {f' : NodeId → Reader β'} (hc : Twin c c')
    (hf : ∀ c₁ c₁', Further 0 c c' c₁ c₁' → Beside n S (f c.nextId) (f' c.nextId) c₁ c₁') :
    Beside n S (Parser.freshId >>= f) (Parser.freshId >>= f') c c' := by
  refine bind (k := 0) (R := fun a b => a = c.nextId ∧ b = c.nextId) (.ok ⟨rfl, hc.nextId⟩ ?_) ?_
  · exact ⟨hc.renumbered, Nat.le_refl _, Nat.le_refl _⟩
  · rintro _ _ c₁ c₁' ⟨rfl, rfl⟩ hfurther
    exact hf c₁ c₁' hfurther

theorem advance_bind {f : Unit → Reader β} {f' : Unit → Reader β'} (hc : Twin c c')
    (hpeek : c.peek.kind = kind) (hkind : kind ≠ .endOfInput ∧ kind ≠ .kwVar)
    (hf : ∀ c₁ c₁', Further 1 c c' c₁ c₁' → Beside (n - 1) S (f ()) (f' ()) c₁ c₁') :
    Beside n S (Parser.advance >>= f) (Parser.advance >>= f') c c' := by
  obtain ⟨left, hrest⟩ := hc.rest_of_peek hpeek hkind.1
  have hfurther := hc.further hrest (by rw [hpeek]; exact hkind.2)
  exact bind (R := fun _ _ => True) (.ok trivial hfurther) fun _ _ c₁ c₁' _ h => hf c₁ c₁' h

theorem acceptIf_bind {p : Kind → Bool} {f : Option Token → Reader β}
    {f' : Option Token → Reader β'} (hc : Twin c c') (hp : p .kwVar = false)
    (hnone : Beside n S (f none) (f' none) c c')
    (hsome : ∀ t c₁ c₁', Further 1 c c' c₁ c₁' →
      Beside (n - 1) S (f (some t)) (f' (some t)) c₁ c₁') :
    Beside n S (Parser.acceptIf p >>= f) (Parser.acceptIf p >>= f') c c' := by
  have declined : (Parser.acceptIf p).run.run c = (.ok none, c) →
      (Parser.acceptIf p).run.run c' = (.ok none, c') →
      Beside n S (Parser.acceptIf p >>= f) (Parser.acceptIf p >>= f') c c' := by
    intro h h'
    unfold Beside
    rw [run_bind, run_bind, h, h']
    exact hnone
  cases hrest : c.rest with
  | nil =>
    have hrest' : c'.rest = [] := by
      have := hc.rest.isEmpty
      rwa [hrest, List.isEmpty_nil, List.isEmpty_iff] at this
    exact declined (acceptIf_nil hrest) (acceptIf_nil hrest')
  | cons t left =>
    have hhead := hc.rest.head?
    rw [hrest] at hhead
    obtain ⟨left', hrest'⟩ := List.head?_eq_some_iff.1 hhead
    cases ht : p t.kind with
    | false =>
      exact declined (by rw [acceptIf_cons hrest, ht]; rfl) (by rw [acceptIf_cons hrest', ht]; rfl)
    | true =>
      have hfurther := hc.further hrest (by rintro heq; rw [heq, hp] at ht; cases ht)
      rw [hrest, hrest'] at hfurther
      have hrun : Beside 1 (fun a b => a = some t ∧ b = some t) (Parser.acceptIf p)
          (Parser.acceptIf p) c c' := by
        unfold Beside
        rw [acceptIf_cons hrest, acceptIf_cons hrest', ht]
        exact .ok ⟨rfl, rfl⟩ hfurther
      refine hrun.bind ?_
      rintro _ _ c₁ c₁' ⟨rfl, rfl⟩ h
      exact hsome t c₁ c₁' h

theorem accept_bind {f : Option Token → Reader β} {f' : Option Token → Reader β'} (hc : Twin c c')
    (hnone : Beside n S (f none) (f' none) c c')
    (hsome : ∀ t c₁ c₁', Further 1 c c' c₁ c₁' →
      Beside (n - 1) S (f (some t)) (f' (some t)) c₁ c₁') (hkind : kind ≠ .kwVar := by decide) :
    Beside n S (Parser.accept? kind >>= f) (Parser.accept? kind >>= f') c c' :=
  acceptIf_bind hc (decide_eq_false (Ne.symm hkind)) hnone hsome

theorem expect_bind {f : Token → Reader β} {f' : Token → Reader β'} (hc : Twin c c')
    (hf : ∀ t c₁ c₁', Further 1 c c' c₁ c₁' → Beside (n - 1) S (f t) (f' t) c₁ c₁')
    (hkind : kind ≠ .kwVar := by decide) :
    Beside n S (Parser.expect kind fault >>= f) (Parser.expect kind fault >>= f') c c' := by
  unfold Parser.expect
  rw [bind_assoc, bind_assoc]
  refine accept_bind hc ?_ (fun t c₁ c₁' h => ?_) hkind
  · exact bind (k := 0) (R := fun _ _ => False) (fail hc) fun _ _ _ _ h => h.elim
  · rw [pure_bind, pure_bind]
    exact hf t c₁ c₁' h

end Beside

-- ---------------------------------------------------------------------------
-- Expressions
-- ---------------------------------------------------------------------------

/-- The allowances suffice for `price` each of the tokens ahead, and for `more`. -/
structure Room (price more depth depth' : Nat) (c c' : Cursor) : Prop where
  left : price * c.rest.length + more ≤ depth
  right : price * c'.rest.length + more ≤ depth'

namespace Room

theorem zero (h : Room price more 0 depth' c c') (hmore : 0 < more) : False := by
  have := h.left
  omega

theorem exists_succ (h : Room price more depth depth' c c') (hmore : 0 < more) :
    ∃ d, depth' = d + 1 :=
  ⟨depth' - 1, by have := h.right; omega⟩

/-- Inside a reader there is room for as much as the tokens that were gone over have paid. -/
theorem after (h : Room price more (depth + 1) (depth' + 1) c c') (hfurther : Further n c c' c₁ c₁')
    (hpaid : less + 1 ≤ more + price * n) : Room price less depth depth' c₁ c₁' := by
  have hleft := Nat.mul_le_mul_left price hfurther.left
  have hright := Nat.mul_le_mul_left price hfurther.right
  rw [Nat.mul_add] at hleft hright
  refine ⟨?_, ?_⟩
  · have := h.left
    omega
  · have := h.right
    omega

end Room

/-- What the expression readers with an allowance do side by side. The levels go 13 deep at most
before a token is read, so 16 for each token is enough. -/
structure ExprBeside (depth : Nat) : Prop where
  level : ∀ level depth' c c', Twin c c' → Room 16 (13 - level.rank) depth depth' c c' →
    Beside 1 Eq (readLevel depth level) (readLevel depth' level) c c'
  operands : ∀ level left depth' c c', Twin c c' → Room 16 1 depth depth' c c' →
    Beside 0 Eq (readOperands depth level left) (readOperands depth' level left) c c'
  suffixes : ∀ head depth' c c', Twin c c' → Room 16 1 depth depth' c c' →
    Beside 0 Eq (readSuffixes depth head) (readSuffixes depth' head) c c'
  items : ∀ close depth' c c', Twin c c' → Room 16 11 depth depth' c c' →
    Beside 0 Eq (readItems depth close) (readItems depth' close) c c'
  itemsFrom : ∀ room depth' c c', Twin c c' → Room 16 10 depth depth' c c' →
    Beside 1 Eq (readItemsFrom depth room) (readItemsFrom depth' room) c c'
  primary : ∀ depth' c c', Twin c c' → Room 16 1 depth depth' c c' →
    Beside 1 Eq (readPrimary depth) (readPrimary depth') c c'

section
variable {c c' : Cursor}

theorem readAssignment_beside (ih : ExprBeside depth) (hc : Twin c c')
    (hroom : Room 16 13 (depth + 1) (depth' + 1) c c') :
    Beside 1 Eq (readLevel (depth + 1) .assignment) (readLevel (depth' + 1) .assignment) c c' := by
  refine (ih.level _ _ _ _ hc (hroom.after (.refl hc) (by decide))).bind ?_
  rintro target _ c₁ c₁' rfl h₁
  refine .accept_bind h₁.twin (.pure rfl h₁.twin) fun equals c₂ c₂' h₂ => ?_
  refine (ih.level _ _ _ _ h₂.twin (hroom.after (h₁.trans h₂) (by decide))).bind ?_
  rintro value _ c₃ c₃' rfl h₃
  cases target with
  | var id name => exact .freshId_bind h₃.twin fun c₄ c₄' h₄ => .pure rfl h₄.twin
  | get object name => exact .pure rfl h₃.twin
  | _ => exact .throw _

theorem readConditional_beside (ih : ExprBeside depth) (hc : Twin c c')
    (hroom : Room 16 9 (depth + 1) (depth' + 1) c c') :
    Beside 1 Eq (readLevel (depth + 1) .conditional) (readLevel (depth' + 1) .conditional)
      c c' := by
  refine (ih.level _ _ _ _ hc (hroom.after (.refl hc) (by decide))).bind ?_
  rintro condition _ c₁ c₁' rfl h₁
  refine .accept_bind h₁.twin (.pure rfl h₁.twin) fun question c₂ c₂' h₂ => ?_
  refine (ih.level _ _ _ _ h₂.twin (hroom.after (h₁.trans h₂) (by decide))).bind ?_
  rintro yes _ c₃ c₃' rfl h₃
  refine .expect_bind h₃.twin fun colon c₄ c₄' h₄ => ?_
  have h := (h₁.trans h₂).trans (h₃.trans h₄)
  refine (ih.level _ _ _ _ h₄.twin (hroom.after h (by decide))).bind ?_
  rintro no _ c₅ c₅' rfl h₅
  exact .pure rfl h₅.twin

theorem readUnary_beside (ih : ExprBeside depth) (hc : Twin c c')
    (hroom : Room 16 4 (depth + 1) (depth' + 1) c c') :
    Beside 1 Eq (readLevel (depth + 1) .unary) (readLevel (depth' + 1) .unary) c c' := by
  refine .acceptIf_bind hc rfl ?_ fun op c₁ c₁' h₁ => ?_
  · exact ih.level _ _ _ _ hc (hroom.after (.refl hc) (by decide))
  · refine (ih.level _ _ _ _ h₁.twin (hroom.after h₁ (by decide))).bind ?_
    rintro right _ c₂ c₂' rfl h₂
    exact .pure rfl h₂.twin

theorem readLevel_beside (ih : ExprBeside depth) (level : Level) (hc : Twin c c')
    (hroom : Room 16 (13 - level.rank) (depth + 1) (depth' + 1) c c') :
    Beside 1 Eq (readLevel (depth + 1) level) (readLevel (depth' + 1) level) c c' := by
  cases level with
  | assignment => exact readAssignment_beside ih hc hroom
  | conditional => exact readConditional_beside ih hc hroom
  | unary => exact readUnary_beside ih hc hroom
  | call =>
    refine (ih.level _ _ _ _ hc (hroom.after (.refl hc) (by decide))).bind ?_
    rintro head _ c₁ c₁' rfl h₁
    exact ih.suffixes _ _ _ _ h₁.twin (hroom.after h₁ (by decide))
  | primary => exact ih.primary _ _ _ hc (hroom.after (.refl hc) (by decide))
  | _ =>
    refine (ih.level _ _ _ _ hc (hroom.after (.refl hc) (by decide))).bind ?_
    rintro left _ c₁ c₁' rfl h₁
    exact ih.operands _ _ _ _ _ h₁.twin (hroom.after h₁ (by decide))

theorem readOperands_beside (ih : ExprBeside depth) (level : Level) (left : Expr) (hc : Twin c c')
    (hroom : Room 16 1 (depth + 1) (depth' + 1) c c') :
    Beside 0 Eq (readOperands (depth + 1) level left) (readOperands (depth' + 1) level left)
      c c' := by
  refine .acceptIf_bind hc ?_ (.pure rfl hc) fun op c₁ c₁' h₁ => ?_
  · cases level <;> rfl
  · have hlevel : 13 - level.tighter.rank + 1 ≤ 1 + 16 * 1 := by omega
    refine (ih.level _ _ _ _ h₁.twin (hroom.after h₁ hlevel)).bind ?_
    rintro right _ c₂ c₂' rfl h₂
    exact ih.operands _ _ _ _ _ h₂.twin (hroom.after (h₁.trans h₂) (by decide))

theorem readSuffixes_beside (ih : ExprBeside depth) (head : Expr) (hc : Twin c c')
    (hroom : Room 16 1 (depth + 1) (depth' + 1) c c') :
    Beside 0 Eq (readSuffixes (depth + 1) head) (readSuffixes (depth' + 1) head) c c' := by
  refine .peek_bind hc ?_
  split
  · next hopen =>
    refine .advance_bind hc hopen (by decide) fun c₁ c₁' h₁ => ?_
    refine (ih.items _ _ _ _ h₁.twin (hroom.after h₁ (by decide))).bind ?_
    rintro arguments _ c₂ c₂' rfl h₂
    refine .expect_bind h₂.twin fun paren c₃ c₃' h₃ => ?_
    exact ih.suffixes _ _ _ _ h₃.twin (hroom.after (h₁.trans (h₂.trans h₃)) (by decide))
  · next hdot =>
    refine .advance_bind hc hdot (by decide) fun c₁ c₁' h₁ => ?_
    refine .expect_bind h₁.twin fun name c₂ c₂' h₂ => ?_
    exact ih.suffixes _ _ _ _ h₂.twin (hroom.after (h₁.trans h₂) (by decide))
  · next hopen =>
    refine .advance_bind hc hopen (by decide) fun c₁ c₁' h₁ => ?_
    refine (ih.level _ _ _ _ h₁.twin (hroom.after h₁ (by decide))).bind ?_
    rintro position _ c₂ c₂' rfl h₂
    refine .expect_bind h₂.twin fun bracket c₃ c₃' h₃ => ?_
    exact ih.suffixes _ _ _ _ h₃.twin (hroom.after (h₁.trans (h₂.trans h₃)) (by decide))
  · exact .pure rfl hc

theorem readItems_beside (ih : ExprBeside depth) (close : Kind) (hc : Twin c c')
    (hroom : Room 16 11 (depth + 1) (depth' + 1) c c') :
    Beside 0 Eq (readItems (depth + 1) close) (readItems (depth' + 1) close) c c' := by
  refine .check_bind hc fun found => ?_
  split
  · exact .pure rfl hc
  · exact (ih.itemsFrom _ _ _ _ hc (hroom.after (.refl hc) (by decide))).le (by decide)

theorem readItemsFrom_beside (ih : ExprBeside depth) (room : Nat) (hc : Twin c c')
    (hroom : Room 16 10 (depth + 1) (depth' + 1) c c') :
    Beside 1 Eq (readItemsFrom (depth + 1) room) (readItemsFrom (depth' + 1) room) c c' := by
  cases room with
  | zero => exact .fail hc
  | succ room =>
    refine (ih.level _ _ _ _ hc (hroom.after (.refl hc) (by decide))).bind ?_
    rintro item _ c₁ c₁' rfl h₁
    refine .accept_bind h₁.twin (.pure rfl h₁.twin) fun comma c₂ c₂' h₂ => ?_
    refine (ih.itemsFrom _ _ _ _ h₂.twin (hroom.after (h₁.trans h₂) (by decide))).bind ?_
    rintro rest _ c₃ c₃' rfl h₃
    exact .pure rfl h₃.twin

theorem readPrimary_beside (ih : ExprBeside depth) (hc : Twin c c')
    (hroom : Room 16 1 (depth + 1) (depth' + 1) c c') :
    Beside 1 Eq (readPrimary (depth + 1)) (readPrimary (depth' + 1)) c c' := by
  refine .peek_bind hc ?_
  split
  case h_6 hthis =>
    refine .advance_bind hc hthis (by decide) fun c₁ c₁' h₁ => ?_
    exact .freshId_bind h₁.twin fun c₂ c₂' h₂ => .pure rfl h₂.twin
  case h_7 hname =>
    refine .advance_bind hc hname (by decide) fun c₁ c₁' h₁ => ?_
    exact .freshId_bind h₁.twin fun c₂ c₂' h₂ => .pure rfl h₂.twin
  case h_8 hopen =>
    refine .advance_bind hc hopen (by decide) fun c₁ c₁' h₁ => ?_
    refine (ih.level _ _ _ _ h₁.twin (hroom.after h₁ (by decide))).bind ?_
    rintro e _ c₂ c₂' rfl h₂
    exact .expect_bind h₂.twin fun closing c₃ c₃' h₃ => .pure rfl h₃.twin
  case h_9 hopen =>
    refine .advance_bind hc hopen (by decide) fun c₁ c₁' h₁ => ?_
    refine (ih.items _ _ _ _ h₁.twin (hroom.after h₁ (by decide))).bind ?_
    rintro elements _ c₂ c₂' rfl h₂
    exact .expect_bind h₂.twin fun closing c₃ c₃' h₃ => .pure rfl h₃.twin
  case h_10 =>
    split
    · exact Agree.error _
    · exact .fail hc
  all_goals
    -- Literals, which are one token each.
    rename_i hkind
    exact .advance_bind hc hkind (by simp) fun c₁ c₁' h₁ => .pure rfl h₁.twin

theorem rank_room (level : Level) : 0 < 13 - level.rank := by
  have := level.rank_le
  omega

theorem exprBeside (depth : Nat) : ExprBeside depth := by
  induction depth with
  | zero =>
    exact {
      level := fun level _ _ _ _ h => (h.zero (rank_room level)).elim
      operands := fun _ _ _ _ _ _ h => (h.zero (by decide)).elim
      suffixes := fun _ _ _ _ _ h => (h.zero (by decide)).elim
      items := fun _ _ _ _ _ h => (h.zero (by decide)).elim
      itemsFrom := fun _ _ _ _ _ h => (h.zero (by decide)).elim
      primary := fun _ _ _ _ h => (h.zero (by decide)).elim }
  | succ depth ih =>
    refine ⟨?_, ?_, ?_, ?_, ?_, ?_⟩
    · intro level depth' c c' hc hroom
      obtain ⟨d, rfl⟩ := hroom.exists_succ (rank_room level)
      exact readLevel_beside ih level hc hroom
    · intro level left depth' c c' hc hroom
      obtain ⟨d, rfl⟩ := hroom.exists_succ (by decide)
      exact readOperands_beside ih level left hc hroom
    · intro head depth' c c' hc hroom
      obtain ⟨d, rfl⟩ := hroom.exists_succ (by decide)
      exact readSuffixes_beside ih head hc hroom
    · intro close depth' c c' hc hroom
      obtain ⟨d, rfl⟩ := hroom.exists_succ (by decide)
      exact readItems_beside ih close hc hroom
    · intro room depth' c c' hc hroom
      obtain ⟨d, rfl⟩ := hroom.exists_succ (by decide)
      exact readItemsFrom_beside ih room hc hroom
    · intro depth' c c' hc hroom
      obtain ⟨d, rfl⟩ := hroom.exists_succ (by decide)
      exact readPrimary_beside ih hc hroom

/-- An expression is read alike from both cursors, whatever allowance each has. -/
theorem expression_beside (hc : Twin c c') : Beside 1 Eq expression expression c c' := by
  have hroom : Room 16 13 (16 * c.rest.length + 16) (16 * c'.rest.length + 16) c c' :=
    ⟨by omega, by omega⟩
  have hlevel := (exprBeside _).level .assignment _ c c' hc hroom
  unfold Beside expression at *
  rw [run_bind, run_bind]
  exact hlevel

end

end Parser

end Treewalk
