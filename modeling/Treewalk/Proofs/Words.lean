import Treewalk.Proofs.Nodes

/-!
# The word `this`

No variable can be named `this`: the word is reserved, so a source has it only as a keyword, and
every keyword `this` is spelled so. This is shown of the tokens of every source, and, reader by
reader, of every tree that is read from them. The same passage through the readers shows that they
fail in one way only, namely to read.
-/

namespace Treewalk

-- ---------------------------------------------------------------------------
-- Tokens
-- ---------------------------------------------------------------------------

/-- The keyword `this` is spelled as such, and no identifier is. -/
def Token.Worded (t : Token) : Prop :=
  (t.kind = .kwThis → t.lexeme = "this") ∧ (t.kind = .identifier → t.lexeme ≠ "this")

theorem Token.worded_of_other (h₁ : t.kind ≠ .kwThis) (h₂ : t.kind ≠ .identifier) :
    Token.Worded t :=
  ⟨fun h => absurd h h₁, fun h => absurd h h₂⟩

namespace Lexer

theorem reserved_this (h : (word, Kind.kwThis) ∈ reserved) : word = "this" := by
  simpa [reserved] using h

theorem reserved_not_identifier : (word, Kind.identifier) ∉ reserved := by
  simp [reserved]

theorem wordKind_worded (word : List UInt8) (line : Nat) :
    Token.Worded ⟨wordKind word, Text.Utf8.lossy word, line⟩ := by
  unfold wordKind Token.Worded
  cases hl : reserved.lookup (Text.Utf8.lossy word) with
  | none =>
    refine ⟨fun h => (nomatch h), fun _ hthis => ?_⟩
    have hnone : Text.Utf8.lossy word ≠ "this" := by
      simpa using List.lookup_eq_none_iff.1 hl ("this", .kwThis) (by simp [reserved])
    exact hnone hthis
  | some kind =>
    obtain ⟨before, behind, hsplit, -⟩ := List.lookup_eq_some_iff.1 hl
    have hmem : (Text.Utf8.lossy word, kind) ∈ reserved := by simp [hsplit]
    refine ⟨?_, ?_⟩
    · rintro rfl
      exact reserved_this hmem
    · rintro rfl
      exact absurd hmem reserved_not_identifier

theorem single?_symbol (h : single? c = some kind) : kind ≠ .kwThis ∧ kind ≠ .identifier := by
  unfold single? at h
  split at h <;> cases h <;> exact ⟨by decide, by decide⟩

theorem double?_symbol (h : double? a b = some kind) : kind ≠ .kwThis ∧ kind ≠ .identifier := by
  unfold double? at h
  split at h <;> cases h <;> exact ⟨by decide, by decide⟩

theorem cutNumber_kind (h : (cutNumber source).role = .token kind) : ∃ x, kind = .number x := by
  unfold cutNumber at h
  dsimp only at h
  split at h
  · split at h <;> cases h <;> exact ⟨_, rfl⟩
  · cases h
    exact ⟨_, rfl⟩

theorem cutText_kind (h : (cutText opening source).role = .token kind) :
    ∃ contents, kind = .text contents := by
  unfold cutText at h
  dsimp only at h
  split at h <;> cases h
  exact ⟨_, rfl⟩

theorem cutSymbol_kind (h : (cutSymbol first rest).role = .token kind) :
    kind ≠ .kwThis ∧ kind ≠ .identifier := by
  unfold cutSymbol at h
  split at h
  · next hdouble =>
    cases h
    obtain ⟨second, -, hdouble⟩ := Option.bind_eq_some_iff.1 hdouble
    exact double?_symbol hdouble
  · split at h
    · next hsingle =>
      cases h
      exact single?_symbol hsingle
    · cases h

theorem cut_worded (h : (cut first rest).role = .token kind) (line : Nat) :
    Token.Worded ⟨kind, Text.Utf8.lossy (cut first rest).span, line⟩ := by
  unfold cut at h ⊢
  split at h
  · cases h
  · next hblank =>
    rw [if_neg hblank]
    split at h
    · next hword =>
      rw [if_pos hword]
      cases h
      exact wordKind_worded _ line
    · split at h
      · obtain ⟨x, rfl⟩ := cutNumber_kind h
        exact Token.worded_of_other (by simp) (by simp)
      · split at h
        · obtain ⟨contents, rfl⟩ := cutText_kind h
          exact Token.worded_of_other (by simp) (by simp)
        · split at h
          · cases h
          · obtain ⟨hthis, hname⟩ := cutSymbol_kind h
            exact Token.worded_of_other hthis hname

theorem itemsFrom_worded (h : .ok t ∈ itemsFrom line source) : t.Worded := by
  fun_induction itemsFrom line source with
  | case1 line =>
    simp only [List.mem_singleton, Except.ok.injEq] at h
    subst h
    exact Token.worded_of_other (by simp [Token.finish]) (by simp [Token.finish])
  | case2 line first rest head after later hrole ih => exact ih h
  | case3 line first rest head after later hrole ih => exact ih h
  | case4 line first rest head after later kind hrole ih =>
    rcases List.mem_cons.1 h with heq | hlater
    · cases heq
      exact cut_worded hrole after
    · exact ih hlater
  | case5 line first rest head after later fault hrole ih =>
    rcases List.mem_cons.1 h with heq | hlater
    · cases heq
    · exact ih hlater

theorem mapM_id_ok {items : List (Except ε α)} (h : items.mapM id = .ok as) :
    items = as.map .ok := by
  induction items generalizing as with
  | nil =>
    cases h
    rfl
  | cons item items ih =>
    rw [List.mapM_cons] at h
    cases item with
    | error e => cases h
    | ok a =>
      cases hrest : items.mapM id with
      | error e =>
        rw [hrest] at h
        cases h
      | ok rest =>
        rw [hrest] at h
        cases h
        rw [ih hrest]
        rfl

/-- In every source `this` stands only as the keyword. -/
theorem scan_worded (h : scan source = .ok tokens) (ht : t ∈ tokens) : t.Worded := by
  have hitems : itemsFrom 1 source = tokens.map .ok := mapM_id_ok h
  have hmem : Except.ok t ∈ itemsFrom 1 source := hitems ▸ List.mem_map_of_mem ht
  exact itemsFrom_worded hmem

end Lexer

-- ---------------------------------------------------------------------------
-- Trees
-- ---------------------------------------------------------------------------

mutual

/-- The nodes for `this` have the keyword, and those for variables have other names. -/
def Expr.Worded : Expr → Prop
  | .literal _ => True
  | .unary _ right => right.Worded
  | .binary _ left right => left.Worded ∧ right.Worded
  | .logical _ left right => left.Worded ∧ right.Worded
  | .conditional condition yes no => condition.Worded ∧ yes.Worded ∧ no.Worded
  | .group inner => inner.Worded
  | .var _ name => name.lexeme ≠ "this"
  | .assign _ name value => name.lexeme ≠ "this" ∧ value.Worded
  | .call callee _ arguments => callee.Worded ∧ Expr.AllWorded arguments
  | .get object _ => object.Worded
  | .set object _ value => object.Worded ∧ value.Worded
  | .this _ keyword => keyword.lexeme = "this"
  | .array elements => Expr.AllWorded elements
  | .index target _ position => target.Worded ∧ position.Worded

def Expr.AllWorded : List Expr → Prop
  | [] => True
  | e :: rest => e.Worded ∧ Expr.AllWorded rest

end

def Expr.OptionWorded : Option Expr → Prop
  | none => True
  | some e => e.Worded

mutual

/-- The nodes for `this` have the keyword, and no variable is named like it. -/
def Stmt.Worded : Stmt → Prop
  | .expression e => e.Worded
  | .print e => e.Worded
  | .var name initial => name.lexeme ≠ "this" ∧ Expr.OptionWorded initial
  | .block body => Stmt.AllWorded body
  | .ifElse condition yes none => condition.Worded ∧ yes.Worded
  | .ifElse condition yes (some no) => condition.Worded ∧ yes.Worded ∧ no.Worded
  | .whileLoop condition body => condition.Worded ∧ body.Worded
  | .breakLoop _ => True
  | .function routine => routine.Worded
  | .classDecl _ methods classMethods =>
    Routine.AllWorded methods ∧ Routine.AllWorded classMethods
  | .returnValue _ value => Expr.OptionWorded value
  | .importModule _ _ => True
  | .exportDecl _ declaration => declaration.Worded

def Stmt.AllWorded : List Stmt → Prop
  | [] => True
  | s :: rest => s.Worded ∧ Stmt.AllWorded rest

def Routine.Worded : Routine → Prop
  | ⟨_, _, body⟩ => Stmt.AllWorded body

def Routine.AllWorded : List Routine → Prop
  | [] => True
  | r :: rest => r.Worded ∧ Routine.AllWorded rest

end

namespace Parser

-- ---------------------------------------------------------------------------
-- Readers
-- ---------------------------------------------------------------------------

def Cursor.Worded (c : Cursor) : Prop :=
  (∀ t ∈ c.rest, t.Worded) ∧ c.stop.Worded

/-- The cursor can have moved from `c` to `c'`: over tokens, and to a statement without semicolon
only at the end. -/
structure Cursor.Before (c c' : Cursor) : Prop where
  rest : c'.rest <:+ c.rest
  stop : c'.stop = c.stop
  lenient : c'.lenient = c.lenient
  bare : c'.bare = true → c.bare = true ∨ c'.rest = []

namespace Cursor.Before

theorem refl (c : Cursor) : c.Before c :=
  ⟨List.suffix_refl _, rfl, rfl, .inl⟩

theorem trans {c c' c'' : Cursor} (h : c.Before c') (h' : c'.Before c'') : c.Before c'' where
  rest := h'.rest.trans h.rest
  stop := h'.stop.trans h.stop
  lenient := h'.lenient.trans h.lenient
  bare hbare := by
    rcases h'.bare hbare with hbare' | hend
    · refine (h.bare hbare').imp_right fun hend => ?_
      exact List.suffix_nil.1 (hend ▸ h'.rest)
    · exact .inr hend

theorem worded {c c' : Cursor} (h : c.Before c') (hc : c.Worded) : c'.Worded :=
  ⟨fun t ht => hc.1 t (h.rest.mem ht), h.stop ▸ hc.2⟩

end Cursor.Before

/-- From `c` the reader fails with `e`. -/
def Fails (r : Reader α) (c : Cursor) (e : Error) (c' : Cursor) : Prop :=
  r.run.run c = (.error e, c')

theorem fails_bind {m : Reader α} {f : α → Reader β} (h : Fails (m >>= f) c e c') :
    Fails m c e c' ∨ ∃ a c₁, Reads m c a c₁ ∧ Fails (f a) c₁ e c' := by
  have unfolded : (m >>= f).run.run c =
      (ExceptT.bindCont f (m.run.run c).1).run (m.run.run c).2 := rfl
  unfold Fails Reads at *
  rw [unfolded] at h
  rcases hr : m.run.run c with ⟨e' | a, c₁⟩
  · rw [hr] at h
    cases h
    exact .inl rfl
  · rw [hr] at h
    exact .inr ⟨a, c₁, rfl, h⟩

theorem fails_recovering {r : Reader α} (h : Fails (recovering r) c e c') :
    ∃ c₁, Fails r c e c₁ := by
  unfold Fails recovering at *
  simp only [tryCatch, tryCatchThe, MonadExceptOf.tryCatch, ExceptT.tryCatch, ExceptT.run,
    ExceptT.mk, StateT.run_bind] at h ⊢
  rcases hr : StateT.run r c with ⟨e' | a, c₁⟩
  · rw [hr] at h
    cases h
    exact ⟨c₁, rfl⟩
  · rw [hr] at h
    cases h

/-- A token that is accepted is the next one. -/
theorem reads_acceptIf (h : Reads (acceptIf p) c found c') :
    (found = none ∧ c' = c) ∨ ∃ t rest, c.rest = t :: rest ∧ p t.kind = true ∧ found = some t ∧
      c' = { c with rest := rest } := by
  obtain ⟨_, _, h₁, h₂⟩ := reads_bind.1 h
  obtain ⟨rfl, rfl⟩ := reads_get.1 h₁
  split at h₂
  · next t rest hrest =>
    split at h₂
    · next hp =>
      obtain ⟨_, c₁, hadvance, hpure⟩ := reads_bind.1 h₂
      obtain ⟨rfl, rfl⟩ := reads_pure.1 hpure
      cases hadvance
      exact .inr ⟨t, rest, hrest, hp, rfl, by simp only [hrest, List.tail_cons]⟩
    · exact .inl (reads_pure.1 h₂)
  · exact .inl (reads_pure.1 h₂)

theorem reads_expect (h : Reads (expect kind fault) c t c') :
    ∃ rest, c.rest = t :: rest ∧ t.kind = kind ∧ c' = { c with rest := rest } := by
  obtain ⟨found, c₁, h₁, h₂⟩ := reads_bind.1 h
  obtain ⟨rfl, rfl⟩ | ⟨first, rest, hrest, hkind, rfl, rfl⟩ := reads_acceptIf h₁
  · exact (reads_fail.1 h₂).elim
  · obtain ⟨rfl, rfl⟩ := reads_pure.1 h₂
    exact ⟨rest, hrest, of_decide_eq_true hkind, rfl⟩

/-- Before tokens that spell `this` as they should, the reader moves over tokens and gives what
`Good` says, or fails to read. -/
structure Spells (Good : α → Prop) (r : Reader α) : Prop where
  good : ∀ ⦃c a c'⦄, Reads r c a c' → c.Worded → c.Before c' ∧ Good a
  refused : ∀ ⦃c e c'⦄, Fails r c e c' → c.Worded → ∃ site fault, e = .parse site fault

/-- The reader spells, whatever it gives. -/
abbrev Passes (r : Reader α) : Prop :=
  Spells (fun _ => True) r

namespace Spells

variable {α β : Type} {Good : α → Prop} {Good' : β → Prop}

/-- A reader that cannot fail. -/
theorem of_reads {r : Reader α}
    (h : ∀ c, ∃ a c', Reads r c a c' ∧ (c.Worded → c.Before c' ∧ Good a)) : Spells Good r := by
  constructor
  · intro c a c' hr hc
    obtain ⟨b, c₁, hr', hgood⟩ := h c
    cases hr.symm.trans hr'
    exact hgood hc
  · intro c e c' hr _
    obtain ⟨b, c₁, hr', -⟩ := h c
    cases hr.symm.trans hr'

theorem pure (h : Good a) : Spells Good (Pure.pure a : Reader α) :=
  of_reads fun c => ⟨a, c, rfl, fun _ => ⟨.refl c, h⟩⟩

theorem fail : Spells Good (Parser.fail fault : Reader α) where
  good _ _ _ h _ := (reads_fail.1 h).elim
  refused c e c' h _ := by
    cases h
    exact ⟨_, fault, rfl⟩

theorem throw : Spells Good (MonadExcept.throw (.parse site fault) : Reader α) where
  good _ _ _ h _ := (reads_throw.1 h).elim
  refused c e c' h _ := by
    cases h
    exact ⟨site, fault, rfl⟩

theorem bind {m : Reader α} {f : α → Reader β} (hm : Spells Good m)
    (hf : ∀ a, Good a → Spells Good' (f a)) : Spells Good' (m >>= f) where
  good c b c' h hc := by
    obtain ⟨a, c₁, h₁, h₂⟩ := reads_bind.1 h
    obtain ⟨hbefore, ha⟩ := hm.good h₁ hc
    obtain ⟨hbefore', hb⟩ := (hf a ha).good h₂ (hbefore.worded hc)
    exact ⟨hbefore.trans hbefore', hb⟩
  refused c e c' h hc := by
    obtain h₁ | ⟨a, c₁, h₁, h₂⟩ := fails_bind h
    · exact hm.refused h₁ hc
    · obtain ⟨hbefore, ha⟩ := hm.good h₁ hc
      exact (hf a ha).refused h₂ (hbefore.worded hc)

theorem map {m : Reader α} {g : α → β} (hm : Spells Good m) (hg : ∀ a, Good a → Good' (g a)) :
    Spells Good' (g <$> m) := by
  rw [map_eq_pure_bind]
  exact hm.bind fun a ha => pure (hg a ha)

theorem weaken {Fair : α → Prop} {r : Reader α} (h : Spells Good r) (hgood : ∀ a, Good a → Fair a) :
    Spells Fair r where
  good _ _ _ hr hc := ⟨(h.good hr hc).1, hgood _ (h.good hr hc).2⟩
  refused := h.refused

theorem recovering {r : Reader α} (h : Spells Good r) : Spells Good (Parser.recovering r) where
  good _ _ _ hr hc := h.good (reads_recovering.1 hr) hc
  refused _ _ _ hr hc := by
    obtain ⟨_, hr'⟩ := fails_recovering hr
    exact h.refused hr' hc

theorem get : Spells Cursor.Worded (MonadState.get : Reader Cursor) :=
  of_reads fun c => ⟨c, c, rfl, fun hc => ⟨.refl c, hc⟩⟩

theorem peek : Spells Token.Worded Parser.peek := by
  refine get.bind fun c hc => pure ?_
  unfold Cursor.peek
  cases hrest : c.rest with
  | nil => exact hc.2
  | cons t rest => exact hc.1 t (by simp [hrest])

theorem atEnd : Passes Parser.atEnd :=
  get.bind fun _ _ => pure trivial

theorem check : Passes (Parser.check kind) :=
  get.bind fun _ _ => pure trivial

theorem advance : Passes Parser.advance :=
  of_reads fun c => ⟨_, _, rfl, fun _ =>
    ⟨⟨List.tail_suffix c.rest, rfl, rfl, .inl⟩, trivial⟩⟩

theorem freshId : Passes Parser.freshId :=
  of_reads fun _ => ⟨_, _, rfl, fun _ => ⟨⟨List.suffix_refl _, rfl, rfl, .inl⟩, trivial⟩⟩

theorem acceptIf :
    Spells (fun found => ∀ t ∈ found, t.Worded ∧ p t.kind = true) (Parser.acceptIf p) := by
  refine get.bind fun c hc => ?_
  split
  · next t rest hrest =>
    split
    · next hp =>
      refine advance.bind fun _ _ => pure ?_
      rintro _ ⟨⟩
      exact ⟨hc.1 t (by simp [hrest]), hp⟩
    · exact pure (by simp)
  · exact pure (by simp)

theorem accept? :
    Spells (fun found => ∀ t ∈ found, t.Worded ∧ t.kind = kind) (Parser.accept? kind) :=
  acceptIf.weaken fun found hfound => by simpa using hfound

theorem expect : Spells (fun t => t.Worded ∧ t.kind = kind) (Parser.expect kind fault) := by
  refine accept?.bind fun found hfound => ?_
  cases found with
  | none => exact fail
  | some t => exact pure (hfound t rfl)

end Spells

theorem Passes.pure : Passes (Pure.pure a : Reader α) :=
  Spells.pure trivial

/-- The reader spells, and it moves unless it is at the end. -/
structure Takes (Good : α → Prop) (r : Reader α) : Prop extends Spells Good r where
  less : ∀ ⦃c a c'⦄, Reads r c a c' → c.Worded → c.rest ≠ [] → c'.rest.length < c.rest.length

namespace Takes

variable {α β : Type} {Good : α → Prop} {Good' : β → Prop}

theorem fail : Takes Good (Parser.fail fault : Reader α) :=
  ⟨.fail, fun _ _ _ h _ _ => (reads_fail.1 h).elim⟩

theorem advance : Takes (fun _ => True) Parser.advance := by
  refine ⟨.advance, fun c a c' h _ hne => ?_⟩
  cases h
  have hpos : 0 < c.rest.length := List.length_pos_iff.2 hne
  rw [List.length_tail]
  omega

theorem bind {m : Reader α} {f : α → Reader β} (hm : Takes Good m)
    (hf : ∀ a, Good a → Spells Good' (f a)) : Takes Good' (m >>= f) := by
  refine ⟨hm.toSpells.bind hf, fun c b c' h hc hne => ?_⟩
  obtain ⟨a, c₁, h₁, h₂⟩ := reads_bind.1 h
  obtain ⟨hbefore, ha⟩ := hm.good h₁ hc
  obtain ⟨hbefore', -⟩ := (hf a ha).good h₂ (hbefore.worded hc)
  exact Nat.lt_of_le_of_lt hbefore'.rest.length_le (hm.less h₁ hc hne)

theorem peek_bind {f : Token → Reader β} (hf : ∀ t, t.Worded → Takes Good' (f t)) :
    Takes Good' (Parser.peek >>= f) := by
  refine ⟨Spells.peek.bind fun t ht => (hf t ht).toSpells, fun c b c' h hc hne => ?_⟩
  obtain ⟨t, c₁, h₁, h₂⟩ := reads_bind.1 h
  obtain ⟨-, ht⟩ := Spells.peek.good h₁ hc
  obtain ⟨-, rfl⟩ := reads_peek.1 h₁
  exact (hf t ht).less h₂ hc hne

theorem recovering {r : Reader α} (h : Takes Good r) : Takes Good (Parser.recovering r) :=
  ⟨.recovering h.toSpells, fun _ _ _ hr hc hne => h.less (reads_recovering.1 hr) hc hne⟩

end Takes

/-- What the expression readers with one allowance do. -/
structure ExprSpellers (depth : Nat) : Prop where
  level : ∀ level, Spells Expr.Worded (readLevel depth level)
  operands : ∀ level left, left.Worded → Spells Expr.Worded (readOperands depth level left)
  suffixes : ∀ head, head.Worded → Spells Expr.Worded (readSuffixes depth head)
  items : ∀ close, Spells Expr.AllWorded (readItems depth close)
  itemsFrom : ∀ room, Spells Expr.AllWorded (readItemsFrom depth room)
  primary : Spells Expr.Worded (readPrimary depth)

theorem Level.worded_join (level : Level) (op : Token) {left right : Expr} (hleft : left.Worded)
    (hright : right.Worded) : (level.join op left right).Worded := by
  cases level <;> exact ⟨hleft, hright⟩

theorem readLevel_spells (ih : ExprSpellers depth) (level : Level) :
    Spells Expr.Worded (readLevel (depth + 1) level) := by
  cases level with
  | assignment =>
    refine (ih.level _).bind fun target htarget => Spells.accept?.bind fun equals _ => ?_
    cases equals with
    | none => exact .pure htarget
    | some equals =>
      refine (ih.level _).bind fun value hvalue => ?_
      cases target with
      | var id name => exact Spells.freshId.bind fun _ _ => .pure ⟨htarget, hvalue⟩
      | get object name => exact .pure ⟨htarget, hvalue⟩
      | _ => exact .throw
  | conditional =>
    refine (ih.level _).bind fun condition hcondition => Spells.accept?.bind fun question _ => ?_
    cases question with
    | none => exact .pure hcondition
    | some question =>
      refine (ih.level _).bind fun yes hyes => Spells.expect.bind fun _ _ => ?_
      exact (ih.level _).bind fun no hno => .pure ⟨hcondition, hyes, hno⟩
  | unary =>
    refine Spells.acceptIf.bind fun op _ => ?_
    cases op with
    | none => exact ih.level _
    | some op => exact (ih.level _).map fun right hright => hright
  | call => exact (ih.level _).bind ih.suffixes
  | primary => exact ih.primary
  | _ => exact (ih.level _).bind (ih.operands _)

theorem readOperands_spells (ih : ExprSpellers depth) (level : Level) (left : Expr)
    (hleft : left.Worded) : Spells Expr.Worded (readOperands (depth + 1) level left) := by
  refine Spells.acceptIf.bind fun op _ => ?_
  cases op with
  | none => exact .pure hleft
  | some op =>
    refine (ih.level _).bind fun right hright => ?_
    exact ih.operands _ _ (level.worded_join op hleft hright)

theorem readSuffixes_spells (ih : ExprSpellers depth) (head : Expr) (hhead : head.Worded) :
    Spells Expr.Worded (readSuffixes (depth + 1) head) := by
  refine Spells.peek.bind fun t _ => ?_
  split
  · refine Spells.advance.bind fun _ _ => (ih.items _).bind fun arguments harguments => ?_
    exact Spells.expect.bind fun _ _ => ih.suffixes _ ⟨hhead, harguments⟩
  · refine Spells.advance.bind fun _ _ => ?_
    exact Spells.expect.bind fun _ _ => ih.suffixes _ hhead
  · refine Spells.advance.bind fun _ _ => (ih.level _).bind fun position hposition => ?_
    exact Spells.expect.bind fun _ _ => ih.suffixes _ ⟨hhead, hposition⟩
  · exact .pure hhead

theorem readItems_spells (ih : ExprSpellers depth) (close : Kind) :
    Spells Expr.AllWorded (readItems (depth + 1) close) := by
  refine Spells.check.bind fun closed _ => ?_
  split
  · exact .pure trivial
  · exact ih.itemsFrom _

theorem readItemsFrom_spells (ih : ExprSpellers depth) (room : Nat) :
    Spells Expr.AllWorded (readItemsFrom (depth + 1) room) := by
  cases room with
  | zero => exact .fail
  | succ room =>
    refine (ih.level _).bind fun item hitem => Spells.accept?.bind fun comma _ => ?_
    cases comma with
    | none => exact .pure ⟨hitem, trivial⟩
    | some comma => exact (ih.itemsFrom _).map fun rest hrest => ⟨hitem, hrest⟩

theorem readPrimary_spells (ih : ExprSpellers depth) :
    Spells Expr.Worded (readPrimary (depth + 1)) := by
  refine Spells.peek.bind fun t ht => ?_
  split
  case h_6 hthis =>
    refine Spells.advance.bind fun _ _ => Spells.freshId.bind fun _ _ => ?_
    exact .pure (ht.1 hthis)
  case h_7 hname =>
    refine Spells.advance.bind fun _ _ => Spells.freshId.bind fun _ _ => ?_
    exact .pure (ht.2 hname)
  case h_8 =>
    refine Spells.advance.bind fun _ _ => (ih.level _).bind fun inner hinner => ?_
    exact Spells.expect.bind fun _ _ => .pure hinner
  case h_9 =>
    refine Spells.advance.bind fun _ _ => (ih.items _).bind fun elements helements => ?_
    exact Spells.expect.bind fun _ _ => .pure helements
  case h_10 =>
    split
    · exact Spells.advance.bind fun _ _ => .throw
    · exact .fail
  all_goals exact Spells.advance.bind fun _ _ => .pure trivial

theorem exprSpellers (depth : Nat) : ExprSpellers depth := by
  induction depth with
  | zero =>
    refine ⟨?_, fun _ _ _ => .fail, fun _ _ => .fail, fun _ => .fail, ?_, .fail⟩
    · intro level
      cases level <;> exact .fail
    · intro room
      cases room <;> exact .fail
  | succ depth ih =>
    exact ⟨readLevel_spells ih, readOperands_spells ih, readSuffixes_spells ih,
      readItems_spells ih, readItemsFrom_spells ih, readPrimary_spells ih⟩

theorem expression_spells : Spells Expr.Worded expression :=
  Spells.get.bind fun _ _ => (exprSpellers _).level _

/-- What the statement readers with one allowance do. -/
structure StmtSpellers (depth : Nat) : Prop where
  declaration : Takes Stmt.Worded (readDeclaration depth)
  classBody : Spells Stmt.Worded (readClass depth)
  members : Spells (fun m => Routine.AllWorded m.1 ∧ Routine.AllWorded m.2) (readMembers depth)
  routine : ∀ callable, Spells Routine.Worded (readRoutine depth callable)
  block : Spells Stmt.AllWorded (readBlock depth)
  statement : Takes Stmt.Worded (readStatement depth)

theorem readUnless_spells : Spells Expr.OptionWorded (readUnless close) := by
  refine Spells.check.bind fun closed _ => ?_
  split
  · exact .pure trivial
  · exact expression_spells.map fun e he => he

theorem readVar_spells : Spells Stmt.Worded readVar := by
  refine Spells.expect.bind fun name hname => Spells.accept?.bind fun equals _ => ?_
  have close (initial : Option Expr) (h : Expr.OptionWorded initial) : Spells Stmt.Worded (do
      let _ ← expect .semicolon .variableEnd
      return .var name initial) :=
    Spells.expect.bind fun _ _ => .pure ⟨hname.1.2 hname.2, h⟩
  cases equals with
  | none => exact (Spells.pure trivial).bind close
  | some equals =>
    have initial : Spells Expr.OptionWorded (some <$> expression) :=
      expression_spells.map fun e he => he
    exact initial.bind close

/-- Whether an expression may stand as a statement without semicolon depends on where it ends. -/
theorem endExpression_run (e : Expr) (c : Cursor) :
    (do
      if (← get).lenient && (← atEnd) then
        modify fun c => { c with bare := true }
      else
        let _ ← expect .semicolon .expressionEnd
      return .expression e : Reader Stmt).run.run c =
    if c.lenient && c.rest.isEmpty then (.ok (.expression e), { c with bare := true })
    else (do
      let _ ← expect .semicolon .expressionEnd
      return .expression e : Reader Stmt).run.run c := by
  cases h : c.lenient && c.rest.isEmpty with
  | true =>
    show (if c.lenient && c.rest.isEmpty then _ else _ : Reader Stmt).run.run c = _
    rw [h]
    rfl
  | false =>
    show (if c.lenient && c.rest.isEmpty then _ else _ : Reader Stmt).run.run c = _
    rw [h]
    rfl

theorem endExpression_spells (e : Expr) (he : e.Worded) : Spells Stmt.Worded (do
    if (← get).lenient && (← atEnd) then
      modify fun c => { c with bare := true }
    else
      let _ ← expect .semicolon .expressionEnd
    return .expression e) := by
  have strict : Spells Stmt.Worded (do
      let _ ← expect .semicolon .expressionEnd
      return .expression e) := Spells.expect.bind fun _ _ => .pure he
  constructor
  · intro c a c' h hc
    have h := (endExpression_run e c).symm.trans h
    split at h
    · next hbare =>
      cases h
      have hend : c.rest = [] := by simp_all
      exact ⟨⟨List.suffix_refl _, rfl, rfl, fun _ => .inr hend⟩, he⟩
    · exact strict.good h hc
  · intro c e' c' h hc
    have h := (endExpression_run e c).symm.trans h
    split at h
    · cases h
    · exact strict.refused h hc

theorem readExpressionStatement_takes : Takes Stmt.Worded readExpressionStatement := by
  refine ⟨expression_spells.bind endExpression_spells, fun c s c' h hc hne => ?_⟩
  obtain ⟨e, c₁, h₁, h₂⟩ := reads_bind.1 h
  have hle := (expression_spells.good h₁ hc).1.rest.length_le
  have h₂ := (endExpression_run e c₁).symm.trans h₂
  split at h₂
  · next hbare =>
    cases h₂
    have hend : c₁.rest = [] := by simp_all
    simpa [hend] using List.length_pos_iff.2 hne
  · obtain ⟨t, c₂, hexpect, hpure⟩ := reads_bind.1 h₂
    obtain ⟨rest, hrest, -, rfl⟩ := reads_expect hexpect
    obtain ⟨-, rfl⟩ := reads_pure.1 hpure
    rw [hrest] at hle
    exact hle

theorem readParameters_passes : Passes (readParameters room) := by
  induction room with
  | zero => exact .fail
  | succ room ih =>
    refine Spells.expect.bind fun name _ => Spells.accept?.bind fun comma _ => ?_
    cases comma with
    | none => exact .pure trivial
    | some comma => exact ih.map fun _ _ => trivial

theorem readParameterList_passes : Passes (readParameterList callable) := by
  refine Spells.expect.bind fun _ _ => Spells.check.bind fun closed _ => ?_
  have close (params : List Token) : Passes (do
      let _ ← expect .rightParen .parametersClose
      return params) := Spells.expect.bind fun _ _ => .pure trivial
  dsimp only
  split
  · exact Passes.pure.bind fun params _ => close params
  · exact readParameters_passes.bind fun params _ => close params

theorem readDeclaration_takes (ih : StmtSpellers depth) :
    Takes Stmt.Worded (readDeclaration (depth + 1)) := by
  refine Takes.recovering (Takes.peek_bind fun t _ => ?_)
  split
  · refine Takes.advance.bind fun _ _ => Spells.peek.bind fun path _ => ?_
    split
    · exact Spells.advance.bind fun _ _ => Spells.expect.bind fun _ _ => .pure trivial
    · exact .fail
  · refine Takes.advance.bind fun _ _ => Spells.peek.bind fun next _ => ?_
    split
    · exact Spells.advance.bind fun _ _ => ih.classBody.bind fun s hs => .pure hs
    · exact Spells.advance.bind fun _ _ => (ih.routine _).bind fun r hr => .pure hr
    · exact Spells.advance.bind fun _ _ => readVar_spells.bind fun s hs => .pure hs
    · exact .fail
  · exact Takes.advance.bind fun _ _ => ih.classBody
  · exact Takes.advance.bind fun _ _ => (ih.routine _).bind fun r hr => .pure hr
  · exact Takes.advance.bind fun _ _ => readVar_spells
  · exact ih.statement

theorem readMembers_spells (ih : StmtSpellers depth) :
    Spells (fun m => Routine.AllWorded m.1 ∧ Routine.AllWorded m.2) (readMembers (depth + 1)) := by
  refine Spells.check.bind fun closed _ => Spells.atEnd.bind fun ended _ => ?_
  split
  · exact .pure ⟨trivial, trivial⟩
  · refine Spells.accept?.bind fun keyword _ => ?_
    cases keyword with
    | some keyword =>
      refine (ih.routine _).bind fun first hfirst => ih.members.bind fun rest hrest => ?_
      exact .pure ⟨hrest.1, hfirst, hrest.2⟩
    | none =>
      refine (ih.routine _).bind fun first hfirst => ih.members.bind fun rest hrest => ?_
      exact .pure ⟨⟨hfirst, hrest.1⟩, hrest.2⟩

theorem readRoutine_spells (ih : StmtSpellers depth) (callable : Callable) :
    Spells Routine.Worded (readRoutine (depth + 1) callable) := by
  refine Spells.expect.bind fun name _ => Spells.check.bind fun listed _ => ?_
  have rest (params : Option (List Token)) : Spells Routine.Worded (do
      let _ ← expect .leftBrace (.bodyOpen callable)
      return ⟨name, params, ← readBlock depth⟩) :=
    Spells.expect.bind fun _ _ => ih.block.bind fun body hbody => .pure hbody
  dsimp only
  split
  · have params : Passes (some <$> readParameterList callable) :=
      readParameterList_passes.map fun _ _ => trivial
    exact params.bind fun params _ => rest params
  · exact Passes.pure.bind fun params _ => rest params

theorem readBlock_spells (ih : StmtSpellers depth) :
    Spells Stmt.AllWorded (readBlock (depth + 1)) := by
  refine Spells.check.bind fun closed _ => Spells.atEnd.bind fun ended _ => ?_
  split
  · exact Spells.expect.bind fun _ _ => .pure trivial
  · exact ih.declaration.toSpells.bind fun first hfirst => ih.block.bind fun rest hrest =>
      .pure ⟨hfirst, hrest⟩

theorem forLoop_worded {start : Option Stmt} (hstart : ∀ s ∈ start, s.Worded)
    (hcondition : Expr.OptionWorded condition) (hstep : Expr.OptionWorded step)
    (hbody : body.Worded) : (forLoop start condition step body).Worded := by
  have hcondition' : Expr.Worded (condition.getD (.literal (.bool true))) := by
    cases condition with
    | none => trivial
    | some e => exact hcondition
  cases start <;> cases step
  case none.none => exact ⟨hcondition', hbody⟩
  case none.some => exact ⟨hcondition', hbody, hstep, trivial⟩
  case some.none first => exact ⟨hstart first rfl, ⟨hcondition', hbody⟩, trivial⟩
  case some.some first _ =>
    exact ⟨hstart first rfl, ⟨hcondition', hbody, hstep, trivial⟩, trivial⟩

theorem readStatement_takes (ih : StmtSpellers depth) :
    Takes Stmt.Worded (readStatement (depth + 1)) := by
  refine Takes.peek_bind fun t _ => ?_
  split
  case h_1 => exact Takes.advance.bind fun _ _ => Spells.expect.bind fun _ _ => .pure trivial
  case h_2 =>
    refine Takes.advance.bind fun _ _ => Spells.expect.bind fun _ _ => ?_
    have rest (start : Option Stmt) (hstart : ∀ s ∈ start, s.Worded) : Spells Stmt.Worded (do
        let condition ← readUnless .semicolon
        let _ ← expect .semicolon .forCondition
        let step ← readUnless .rightParen
        let _ ← expect .rightParen .forClose
        return forLoop start condition step (← readStatement depth)) := by
      refine readUnless_spells.bind fun condition hcondition => Spells.expect.bind fun _ _ => ?_
      refine readUnless_spells.bind fun step hstep => Spells.expect.bind fun _ _ => ?_
      exact ih.statement.toSpells.bind fun body hbody =>
        .pure (forLoop_worded hstart hcondition hstep hbody)
    refine Spells.peek.bind fun next _ => ?_
    split
    · exact Spells.advance.bind fun _ _ => (Spells.pure (by simp)).bind rest
    · exact Spells.advance.bind fun _ _ =>
        (readVar_spells.map fun s hs => by simpa using hs).bind rest
    · exact (readExpressionStatement_takes.toSpells.map fun s hs => by simpa using hs).bind rest
  case h_3 =>
    refine Takes.advance.bind fun _ _ => Spells.expect.bind fun _ _ => ?_
    refine expression_spells.bind fun condition hcondition => Spells.expect.bind fun _ _ => ?_
    refine ih.statement.toSpells.bind fun yes hyes => Spells.accept?.bind fun other _ => ?_
    cases other with
    | none => exact .pure ⟨hcondition, hyes⟩
    | some other =>
      have branch : Spells (fun no => ∀ s ∈ no, s.Worded) (some <$> readStatement depth) :=
        ih.statement.toSpells.map fun s hs => by simpa using hs
      refine branch.bind fun no hno => ?_
      cases no with
      | none => exact .pure ⟨hcondition, hyes⟩
      | some no => exact .pure ⟨hcondition, hyes, hno no rfl⟩
  case h_4 =>
    refine Takes.advance.bind fun _ _ => Spells.expect.bind fun _ _ => ?_
    refine expression_spells.bind fun condition hcondition => Spells.expect.bind fun _ _ => ?_
    exact ih.statement.toSpells.bind fun body hbody => .pure ⟨hcondition, hbody⟩
  case h_5 =>
    refine Takes.advance.bind fun _ _ => readUnless_spells.bind fun value hvalue => ?_
    exact Spells.expect.bind fun _ _ => .pure hvalue
  case h_6 => exact Takes.advance.bind fun _ _ => ih.block.bind fun body hbody => .pure hbody
  case h_7 =>
    refine Takes.advance.bind fun _ _ => expression_spells.bind fun e he => ?_
    exact Spells.expect.bind fun _ _ => .pure he
  case h_8 => exact readExpressionStatement_takes

theorem stmtSpellers (depth : Nat) : StmtSpellers depth := by
  induction depth with
  | zero => exact ⟨.recovering .fail, .fail, .fail, fun _ => .fail, .fail, .fail⟩
  | succ depth ih =>
    refine ⟨readDeclaration_takes ih, ?_, readMembers_spells ih, readRoutine_spells ih,
      readBlock_spells ih, readStatement_takes ih⟩
    refine Spells.expect.bind fun name _ => Spells.expect.bind fun _ _ => ?_
    exact ih.members.bind fun members hmembers => Spells.expect.bind fun _ _ => .pure hmembers

theorem declaration_takes : Takes Stmt.Worded declaration := by
  refine ⟨Spells.get.bind fun _ _ => (stmtSpellers _).declaration.toSpells, ?_⟩
  intro c s c' h hc hne
  obtain ⟨_, _, h₁, h₂⟩ := reads_bind.1 h
  obtain ⟨rfl, rfl⟩ := reads_get.1 h₁
  exact (stmtSpellers _).declaration.less h₂ hc hne

-- ---------------------------------------------------------------------------
-- Whole sources
-- ---------------------------------------------------------------------------

theorem readProgram_worded {c c' : Cursor} (h : readProgram fuel c = (.ok body, c'))
    (hc : c.Worded) : Stmt.AllWorded body := by
  induction fuel generalizing c body with
  | zero => cases h
  | succ fuel ih =>
    unfold readProgram at h
    split at h
    · cases h
      trivial
    · split at h
      · next first c₁ hfirst =>
        obtain ⟨hbefore, hworded⟩ := declaration_takes.good hfirst hc
        split at h
        · next rest c₂ hrest =>
          cases h
          exact ⟨hworded, ih hrest (hbefore.worded hc)⟩
        · cases h
      · cases h

theorem readProgram_refused {c c' : Cursor} (h : readProgram fuel c = (.error e, c'))
    (hc : c.Worded) : ∃ site fault, e = .parse site fault := by
  induction fuel generalizing c c' with
  | zero =>
    cases h
    exact ⟨_, _, rfl⟩
  | succ fuel ih =>
    unfold readProgram at h
    split at h
    · cases h
    · split at h
      · next first c₁ hfirst =>
        obtain ⟨hbefore, -⟩ := declaration_takes.good hfirst hc
        split at h
        · cases h
        · next e' c₂ hrest =>
          cases h
          exact ih hrest (hbefore.worded hc)
      · next e' c₁ hfirst =>
        cases h
        exact declaration_takes.refused hfirst hc

end Parser

def Line.Worded : Line → Prop
  | .statements body => Stmt.AllWorded body
  | .expression e => e.Worded

namespace Parser

theorem readLine_spells (fuel : Nat) : Spells Line.Worded (readLine fuel) := by
  induction fuel with
  | zero => exact .fail
  | succ fuel ih =>
    refine Spells.atEnd.bind fun ended _ => ?_
    split
    · exact .pure trivial
    · refine declaration_takes.toSpells.bind fun first hfirst => Spells.get.bind fun c _ => ?_
      split
      · exact .pure hfirst
      · refine ih.bind fun rest hrest => ?_
        cases rest with
        | statements body => exact .pure ⟨hfirst, hrest⟩
        | expression e => exact .pure hrest

theorem loneExpression_spells : Spells Expr.Worded (do
    let e ← expression
    if ← atEnd then return e else fail .trailing) := by
  refine expression_spells.bind fun e he => Spells.atEnd.bind fun ended _ => ?_
  split
  · exact .pure he
  · exact .fail

/-- The tokens that a source was cut into, as a reader finds them. -/
theorem ofTokens_worded (h : ∀ t ∈ tokens, t.Worded) :
    (Cursor.ofTokens tokens lenient start).Worded := by
  refine ⟨fun t ht => h t ((List.takeWhile_sublist _).mem ht), ?_⟩
  cases hstop : tokens.find? (·.kind = .endOfInput) with
  | none =>
    simp only [Cursor.ofTokens, hstop, Option.getD_none]
    exact Token.worded_of_other (by simp [Token.finish]) (by simp [Token.finish])
  | some t =>
    simp only [Cursor.ofTokens, hstop, Option.getD_some]
    exact h t (List.mem_of_find?_eq_some hstop)

theorem program_worded {tokens : List Token} (ht : ∀ t ∈ tokens, t.Worded)
    (h : (program tokens start).1 = .ok body) : Stmt.AllWorded body := by
  rcases hr : readProgram ((Cursor.ofTokens tokens false start).rest.length + 1)
    (Cursor.ofTokens tokens false start) with ⟨result, c⟩
  simp only [program, hr] at h
  subst h
  exact readProgram_worded hr (ofTokens_worded ht)

theorem program_refused {tokens : List Token} (ht : ∀ t ∈ tokens, t.Worded)
    (h : (program tokens start).1 = .error e) : ∃ site fault, e = .parse site fault := by
  rcases hr : readProgram ((Cursor.ofTokens tokens false start).rest.length + 1)
    (Cursor.ofTokens tokens false start) with ⟨result, c⟩
  simp only [program, hr] at h
  subst h
  exact readProgram_refused hr (ofTokens_worded ht)

theorem line_worded {tokens : List Token} (ht : ∀ t ∈ tokens, t.Worded)
    (h : (line tokens start).1 = .ok l) : l.Worded := by
  have hread := readLine_spells ((Cursor.ofTokens tokens true start).rest.length + 1)
  exact (hread.good (Prod.ext h rfl) (ofTokens_worded ht)).2

theorem line_refused {tokens : List Token} (ht : ∀ t ∈ tokens, t.Worded)
    (h : (line tokens start).1 = .error e) : ∃ site fault, e = .parse site fault := by
  have hread := readLine_spells ((Cursor.ofTokens tokens true start).rest.length + 1)
  exact hread.refused (Prod.ext h rfl) (ofTokens_worded ht)

theorem loneExpression_worded {tokens : List Token} (ht : ∀ t ∈ tokens, t.Worded)
    (h : (loneExpression tokens start).1 = .ok e) : e.Worded :=
  (loneExpression_spells.good (Prod.ext h rfl) (ofTokens_worded ht)).2

theorem loneExpression_refused {tokens : List Token} (ht : ∀ t ∈ tokens, t.Worded)
    (h : (loneExpression tokens start).1 = .error e) : ∃ site fault, e = .parse site fault :=
  loneExpression_spells.refused (Prod.ext h rfl) (ofTokens_worded ht)

end Parser

end Treewalk
