import Treewalk.Proofs.Lines
import Treewalk.Proofs.Courses

/-!
# Reading the same with more behind

What has been read strictly, with every semicolon in its place, is read in the same way when the
end of a line may do without one, and an expression is read in the same way when a semicolon stands
behind it: the same tree, with the same identities, and the cursor at the same token. An allowance
may be larger.
-/

namespace Treewalk.Parser

/-- The cursor with other tokens behind its own, in a line that may or may not do without its last
semicolon. -/
def Cursor.followed (c : Cursor) (after : List Token) (lenient : Bool) : Cursor :=
  { c with rest := c.rest ++ after, lenient := lenient }

/-- What reading strictly leaves of a cursor, besides tokens and the next identity. -/
structure Cursor.Strictly (c d : Cursor) : Prop where
  stop : d.stop = c.stop
  lenient : d.lenient = c.lenient
  bare : d.bare = c.bare

/-- What the first reader reads strictly, the second reads with the same result, with the tokens
behind that the first did not have. -/
def Onward (after : List Token) (lenient : Bool) (r r' : Reader α) : Prop :=
  ∀ ⦃c a d⦄, c.stop.kind = .endOfInput → c.lenient = false → Reads r c a d →
    c.Strictly d ∧ Reads r' (c.followed after lenient) a (d.followed after lenient)

/-- The same where the token `t` is next. -/
def OnwardFrom (t : Token) (after : List Token) (lenient : Bool) (r r' : Reader α) : Prop :=
  ∀ ⦃c a d⦄, c.stop.kind = .endOfInput → c.lenient = false → c.peek = t → Reads r c a d →
    c.Strictly d ∧ Reads r' (c.followed after lenient) a (d.followed after lenient)

section

variable {α β : Type} {after : List Token} {lenient : Bool}

theorem Cursor.Strictly.refl (c : Cursor) : c.Strictly c :=
  ⟨rfl, rfl, rfl⟩

theorem Cursor.Strictly.trans {c d e : Cursor} (h : c.Strictly d) (h' : d.Strictly e) :
    c.Strictly e :=
  ⟨h'.stop.trans h.stop, h'.lenient.trans h.lenient, h'.bare.trans h.bare⟩

theorem Cursor.followed_cons {c : Cursor} (h : c.rest = t :: left) :
    (c.followed after lenient).rest = t :: (left ++ after) := by
  simp [Cursor.followed, h]

theorem OnwardFrom.advance_bind {f f' : Unit → Reader β} (ht : t.kind ≠ .endOfInput)
    (hf : Onward after lenient (f ()) (f' ())) :
    OnwardFrom t after lenient (advance >>= f) (advance >>= f') := by
  rintro c b d hc hl rfl h
  obtain ⟨left, hrest⟩ := Cursor.rest_of_peek hc ht
  obtain ⟨⟨⟩, c₁, hadvance, h⟩ := reads_bind.1 h
  cases hadvance
  obtain ⟨hd, hreads⟩ := hf (c := { c with rest := c.rest.tail }) hc hl h
  refine ⟨⟨hd.stop, hd.lenient, hd.bare⟩, reads_bind.2 ⟨(), _, rfl, ?_⟩⟩
  simpa only [Cursor.followed, hrest, List.tail_cons, List.cons_append] using hreads

namespace Onward

theorem from_token {r r' : Reader α} (h : Onward after lenient r r') (t : Token) :
    OnwardFrom t after lenient r r' :=
  fun _ _ _ hc hl _ hr => h hc hl hr

theorem pure (a : α) : Onward after lenient (Pure.pure a) (Pure.pure a) := by
  intro c b d _ _ h
  obtain ⟨rfl, rfl⟩ := reads_pure.1 h
  exact ⟨.refl _, reads_pure.2 ⟨rfl, rfl⟩⟩

theorem fail {r' : Reader α} : Onward after lenient (Parser.fail fault) r' :=
  fun _ _ _ _ _ h => (reads_fail.1 h).elim

theorem throw {r' : Reader α} : Onward after lenient (MonadExcept.throw e) r' :=
  fun _ _ _ _ _ h => (reads_throw.1 h).elim

theorem bind {m m' : Reader α} {f f' : α → Reader β} (hm : Onward after lenient m m')
    (hf : ∀ a, Onward after lenient (f a) (f' a)) :
    Onward after lenient (m >>= f) (m' >>= f') := by
  intro c b d hc hl h
  obtain ⟨a, c₁, h₁, h₂⟩ := reads_bind.1 h
  obtain ⟨hs, hr⟩ := hm hc hl h₁
  obtain ⟨hs', hr'⟩ := hf a (hs.stop ▸ hc) (hs.lenient.trans hl) h₂
  exact ⟨hs.trans hs', reads_bind.2 ⟨a, _, hr, hr'⟩⟩

theorem map {r r' : Reader α} {g : α → β} (h : Onward after lenient r r') :
    Onward after lenient (g <$> r) (g <$> r') := by
  rw [map_eq_pure_bind, map_eq_pure_bind]
  exact h.bind fun a => pure (g a)

theorem freshId : Onward after lenient Parser.freshId Parser.freshId := by
  intro c new d _ _ h
  cases h
  exact ⟨⟨rfl, rfl, rfl⟩, rfl⟩

theorem recovering {r r' : Reader α} (h : Onward after lenient r r') :
    Onward after lenient (Parser.recovering r) (Parser.recovering r') := by
  intro c a d hc hl hr
  obtain ⟨hs, hr'⟩ := h hc hl (reads_recovering.1 hr)
  exact ⟨hs, reads_recovering.2 hr'⟩

/-- None of the tokens behind is taken for one that was not there. -/
theorem acceptIf (hp : ∀ t ∈ after.head?, p t.kind = false) :
    Onward after lenient (Parser.acceptIf p) (Parser.acceptIf p) := by
  intro c found d _ _ h
  unfold Reads at h ⊢
  cases hrest : c.rest with
  | nil =>
    rw [acceptIf_nil hrest] at h
    cases h
    refine ⟨.refl _, ?_⟩
    cases after with
    | nil => exact acceptIf_nil (by simp [Cursor.followed, hrest])
    | cons t left =>
      have hrest' : (c.followed (t :: left) lenient).rest = t :: left := by
        simp [Cursor.followed, hrest]
      rw [acceptIf_cons hrest', if_neg]
      simp [hp t rfl]
  | cons t left =>
    rw [acceptIf_cons hrest] at h
    rw [acceptIf_cons (Cursor.followed_cons hrest)]
    split at h
    · next hkind =>
      cases h
      rw [if_pos hkind]
      exact ⟨⟨rfl, rfl, rfl⟩, rfl⟩
    · next hkind =>
      cases h
      rw [if_neg hkind]
      exact ⟨.refl _, rfl⟩

theorem accept? (hkind : ∀ t ∈ after.head?, t.kind ≠ kind) :
    Onward after lenient (Parser.accept? kind) (Parser.accept? kind) :=
  acceptIf fun t ht => decide_eq_false (hkind t ht)

theorem expect : Onward after lenient (Parser.expect kind fault) (Parser.expect kind fault) := by
  intro c t d _ _ h
  obtain ⟨left, hrest, hkind, rfl⟩ := reads_expect h
  refine ⟨⟨rfl, rfl, rfl⟩, reads_bind.2 ⟨some t, _, ?_, rfl⟩⟩
  unfold Reads
  rw [Parser.accept?, acceptIf_cons (Cursor.followed_cons hrest), if_pos (by simpa using hkind)]
  rfl

theorem check (hkind : ∀ t ∈ after.head?, t.kind ≠ kind) :
    Onward after lenient (Parser.check kind) (Parser.check kind) := by
  intro c found d _ _ h
  cases h
  refine ⟨.refl _, reads_bind.2 ⟨_, _, rfl, reads_pure.2 ⟨?_, rfl⟩⟩⟩
  simp only [Cursor.followed]
  cases c.rest with
  | cons t left => rfl
  | nil =>
    cases after with
    | nil => rfl
    | cons t left => simp [hkind t rfl]

theorem peek_bind {f f' : Token → Reader β} (hf : ∀ t, OnwardFrom t after lenient (f t) (f' t))
    (hend : ∀ t t', t.kind = .endOfInput → t' ∈ after.head? →
      Onward after lenient (f t) (f' t')) :
    Onward after lenient (Parser.peek >>= f) (Parser.peek >>= f') := by
  intro c b d hc hl h
  obtain ⟨t, c₁, hpeek, h⟩ := reads_bind.1 h
  obtain ⟨rfl, rfl⟩ := reads_peek.1 hpeek
  have onward (t' : Token) (ht' : (c₁.followed after lenient).peek = t')
      (h : c₁.Strictly d ∧ Reads (f' t') (c₁.followed after lenient) b (d.followed after lenient)) :
      c₁.Strictly d ∧
        Reads (Parser.peek >>= f') (c₁.followed after lenient) b (d.followed after lenient) :=
    ⟨h.1, reads_bind.2 ⟨t', _, reads_peek.2 ⟨ht'.symm, rfl⟩, h.2⟩⟩
  cases hrest : c₁.rest with
  | cons t left =>
    refine onward _ ?_ (hf _ hc hl rfl h)
    simp [Cursor.peek, Cursor.followed, hrest]
  | nil =>
    cases hafter : after.head? with
    | none =>
      obtain rfl := List.head?_eq_none_iff.1 hafter
      refine onward _ ?_ (hf _ hc hl rfl h)
      simp [Cursor.peek, Cursor.followed, hrest]
    | some t' =>
      have hpeek : c₁.peek.kind = .endOfInput := by simpa [Cursor.peek, hrest] using hc
      refine onward t' ?_ (hend _ t' hpeek hafter hc hl h)
      simp [Cursor.peek, Cursor.followed, hrest, hafter]

end Onward

end

-- ---------------------------------------------------------------------------
-- Expressions
-- ---------------------------------------------------------------------------

/-- The kind of a token that no expression goes on with. -/
def Closing (after : List Token) : Prop :=
  ∀ t ∈ after.head?, t.kind = .semicolon

theorem Closing.not_kind (h : Closing after) (hkind : kind ≠ .semicolon) :
    ∀ t ∈ after.head?, t.kind ≠ kind :=
  fun t ht => by rw [h t ht]; exact hkind.symm

theorem Closing.not_if {p : Kind → Bool} (h : Closing after) (hp : p .semicolon = false) :
    ∀ t ∈ after.head?, p t.kind = false :=
  fun t ht => by rw [h t ht]; exact hp

section

variable {after : List Token} {lenient : Bool}

structure ExprOnward (after : List Token) (lenient : Bool) (depth : Nat) : Prop where
  level : ∀ {depth' level}, depth ≤ depth' →
    Onward after lenient (readLevel depth level) (readLevel depth' level)
  operands : ∀ {depth' level left}, depth ≤ depth' →
    Onward after lenient (readOperands depth level left) (readOperands depth' level left)
  suffixes : ∀ {depth' head}, depth ≤ depth' →
    Onward after lenient (readSuffixes depth head) (readSuffixes depth' head)
  items : ∀ {depth' close}, depth ≤ depth' → close ≠ .semicolon →
    Onward after lenient (readItems depth close) (readItems depth' close)
  itemsFrom : ∀ {depth' room}, depth ≤ depth' →
    Onward after lenient (readItemsFrom depth room) (readItemsFrom depth' room)
  primary : ∀ {depth'}, depth ≤ depth' →
    Onward after lenient (readPrimary depth) (readPrimary depth')

theorem exprOnward_zero : ExprOnward after lenient 0 where
  level {_ level} _ := by cases level <;> exact .fail
  operands _ := .fail
  suffixes _ := .fail
  items _ _ := .fail
  itemsFrom _ := .fail
  primary _ := .fail

theorem readLevel_onward (hafter : Closing after) (ih : ExprOnward after lenient depth)
    (hle : depth ≤ depth') (level : Level) :
    Onward after lenient (readLevel (depth + 1) level) (readLevel (depth' + 1) level) := by
  cases level with
  | assignment =>
    refine (ih.level hle).bind fun target => ?_
    refine (Onward.accept? (hafter.not_kind (by simp))).bind fun equals => ?_
    cases equals with
    | none => exact .pure _
    | some equals =>
      refine (ih.level hle).bind fun value => ?_
      cases target with
      | var id name => exact Onward.freshId.bind fun _ => .pure _
      | get object name => exact .pure _
      | _ => exact .throw
  | conditional =>
    refine (ih.level hle).bind fun condition => ?_
    refine (Onward.accept? (hafter.not_kind (by simp))).bind fun question => ?_
    cases question with
    | none => exact .pure _
    | some question =>
      exact (ih.level hle).bind fun yes => Onward.expect.bind fun _ =>
        (ih.level hle).bind fun no => .pure _
  | unary =>
    refine (Onward.acceptIf (hafter.not_if rfl)).bind fun op => ?_
    cases op with
    | none => exact ih.level hle
    | some op => exact (ih.level hle).map
  | call => exact (ih.level hle).bind fun head => ih.suffixes hle
  | primary => exact ih.primary hle
  | _ => exact (ih.level hle).bind fun left => ih.operands hle

theorem readOperands_onward (hafter : Closing after) (ih : ExprOnward after lenient depth)
    (hle : depth ≤ depth') (level : Level) (left : Expr) :
    Onward after lenient (readOperands (depth + 1) level left)
      (readOperands (depth' + 1) level left) := by
  refine (Onward.acceptIf (hafter.not_if (by cases level <;> rfl))).bind fun op => ?_
  cases op with
  | none => exact .pure _
  | some op => exact (ih.level hle).bind fun right => ih.operands hle

theorem readSuffixes_onward (hafter : Closing after) (ih : ExprOnward after lenient depth)
    (hle : depth ≤ depth') (head : Expr) :
    Onward after lenient (readSuffixes (depth + 1) head) (readSuffixes (depth' + 1) head) := by
  refine .peek_bind (fun t => ?_) fun t t' ht ht' => ?_
  · split
    · next hkind =>
      exact .advance_bind (by simp [hkind]) <| (ih.items hle (by simp)).bind fun arguments =>
        Onward.expect.bind fun paren => ih.suffixes hle
    · next hkind =>
      exact .advance_bind (by simp [hkind]) <| Onward.expect.bind fun name => ih.suffixes hle
    · next hkind =>
      exact .advance_bind (by simp [hkind]) <| (ih.level hle).bind fun position =>
        Onward.expect.bind fun bracket => ih.suffixes hle
    · exact (Onward.pure head).from_token t
  · rw [ht, hafter t' ht']
    exact .pure head

theorem readItems_onward (hafter : Closing after) (ih : ExprOnward after lenient depth)
    (hle : depth ≤ depth') (hclose : close ≠ .semicolon) :
    Onward after lenient (readItems (depth + 1) close) (readItems (depth' + 1) close) := by
  refine (Onward.check (hafter.not_kind hclose)).bind fun closed => ?_
  split
  · exact .pure _
  · exact ih.itemsFrom hle

theorem readItemsFrom_onward (hafter : Closing after) (ih : ExprOnward after lenient depth)
    (hle : depth ≤ depth') (room : Nat) :
    Onward after lenient (readItemsFrom (depth + 1) room) (readItemsFrom (depth' + 1) room) := by
  cases room with
  | zero => exact .fail
  | succ room =>
    refine (ih.level hle).bind fun item => ?_
    refine (Onward.accept? (hafter.not_kind (by simp))).bind fun comma => ?_
    cases comma with
    | none => exact .pure _
    | some comma => exact (ih.itemsFrom hle).map

theorem readPrimary_onward (ih : ExprOnward after lenient depth) (hle : depth ≤ depth') :
    Onward after lenient (readPrimary (depth + 1)) (readPrimary (depth' + 1)) := by
  refine .peek_bind (fun t => ?_) fun t t' ht ht' => ?_
  · split
    case _ hkind | _ hkind | _ hkind | _ hkind | _ hkind =>
      exact .advance_bind (by simp [hkind]) (.pure _)
    case _ hkind | _ hkind =>
      exact .advance_bind (by simp [hkind]) (Onward.freshId.bind fun _ => .pure _)
    case _ hkind =>
      exact .advance_bind (by simp [hkind]) <| (ih.level hle).bind fun inner =>
        Onward.expect.bind fun _ => .pure _
    case _ hkind =>
      exact .advance_bind (by simp [hkind]) <| (ih.items hle (by simp)).bind fun elements =>
        Onward.expect.bind fun _ => .pure _
    case _ kind _ =>
      split
      · next hwants =>
        refine .advance_bind ?_ .throw
        intro hend
        simp [hend, wantsLeft] at hwants
      · exact Onward.fail.from_token t
  · rw [ht]
    exact .fail

theorem exprOnward (hafter : Closing after) : (depth : Nat) → ExprOnward after lenient depth
  | 0 => exprOnward_zero
  | depth + 1 => by
    have ih : ExprOnward after lenient depth := exprOnward hafter depth
    have larger {depth' : Nat} (h : depth + 1 ≤ depth') : ∃ k, depth' = k + 1 ∧ depth ≤ k :=
      ⟨depth' - 1, by omega, by omega⟩
    constructor
    · intro depth' level h
      obtain ⟨k, rfl, hle⟩ := larger h
      exact readLevel_onward hafter ih hle level
    · intro depth' level left h
      obtain ⟨k, rfl, hle⟩ := larger h
      exact readOperands_onward hafter ih hle level left
    · intro depth' head h
      obtain ⟨k, rfl, hle⟩ := larger h
      exact readSuffixes_onward hafter ih hle head
    · intro depth' close h hclose
      obtain ⟨k, rfl, hle⟩ := larger h
      exact readItems_onward hafter ih hle hclose
    · intro depth' room h
      obtain ⟨k, rfl, hle⟩ := larger h
      exact readItemsFrom_onward hafter ih hle room
    · intro depth' h
      obtain ⟨k, rfl, hle⟩ := larger h
      exact readPrimary_onward ih hle

/-- More tokens, and a larger allowance with them. -/
theorem expression_onward (hafter : Closing after) (lenient : Bool) :
    Onward after lenient expression expression := by
  intro c e d hc hl h
  obtain ⟨_, _, hget, h⟩ := reads_bind.1 h
  cases hget
  have hle : 16 * c.rest.length + 16 ≤ 16 * (c.followed after lenient).rest.length + 16 := by
    simp only [Cursor.followed, List.length_append]
    omega
  obtain ⟨hs, hr⟩ := (exprOnward hafter _).level hle hc hl h
  exact ⟨hs, reads_bind.2 ⟨_, _, rfl, hr⟩⟩

end

-- ---------------------------------------------------------------------------
-- Statements
-- ---------------------------------------------------------------------------

theorem closing_nil : Closing [] :=
  fun _ h => nomatch h

theorem nil_not_kind {kind : Kind} : ∀ t ∈ ([] : List Token).head?, t.kind ≠ kind :=
  fun _ h => nomatch h

theorem Onward.atEnd : Onward [] true Parser.atEnd Parser.atEnd := by
  intro c ended d _ _ h
  cases h
  refine ⟨.refl _, reads_atEnd.2 ⟨?_, rfl⟩⟩
  rw [Cursor.followed, List.append_nil]

theorem Onward.peeks {f : Token → Reader β} (hf : ∀ t, OnwardFrom t [] true (f t) (f t)) :
    Onward [] true (Parser.peek >>= f) (Parser.peek >>= f) :=
  .peek_bind hf fun _ _ _ h => nomatch h

theorem Onward.expression : Onward [] true Parser.expression Parser.expression :=
  expression_onward closing_nil true

theorem readImport_onward : Onward [] true (readImport keyword) (readImport keyword) := by
  refine .peeks fun path => ?_
  split
  · next hkind => exact .advance_bind (by simp [hkind]) (Onward.expect.bind fun _ => .pure _)
  · exact Onward.fail.from_token path

theorem readParameters_onward :
    (room : Nat) → Onward [] true (readParameters room) (readParameters room)
  | 0 => .fail
  | room + 1 => by
    refine Onward.expect.bind fun name => (Onward.accept? nil_not_kind).bind fun comma => ?_
    cases comma with
    | none => exact .pure _
    | some comma => exact (readParameters_onward room).map

theorem readParameterList_onward :
    Onward [] true (readParameterList callable) (readParameterList callable) := by
  refine Onward.expect.bind fun _ => (Onward.check nil_not_kind).bind fun closed => ?_
  split
  · exact (Onward.pure _).bind fun params => Onward.expect.bind fun _ => .pure _
  · exact (readParameters_onward _).bind fun params => Onward.expect.bind fun _ => .pure _

theorem readVar_onward : Onward [] true readVar readVar := by
  refine Onward.expect.bind fun name => (Onward.accept? nil_not_kind).bind fun equals => ?_
  cases equals with
  | none => exact (Onward.pure _).bind fun initial => Onward.expect.bind fun _ => .pure _
  | some equals =>
    exact Onward.expression.map.bind fun initial => Onward.expect.bind fun _ => .pure _

theorem readUnless_onward : Onward [] true (readUnless close) (readUnless close) := by
  refine (Onward.check nil_not_kind).bind fun closed => ?_
  split
  · exact .pure _
  · exact Onward.expression.map

/-- Where a semicolon is read, the end has not been reached. -/
theorem readExpressionStatement_onward :
    Onward [] true readExpressionStatement readExpressionStatement := by
  refine Onward.expression.bind fun e => ?_
  intro c s d hc hl h
  replace h := (endExpression_run e c).symm.trans h
  rw [hl, Bool.false_and, if_neg Bool.false_ne_true] at h
  obtain ⟨t, c₁, hexpect, -⟩ := reads_bind.1 h
  obtain ⟨left, hrest, -, -⟩ := reads_expect hexpect
  have strict : Onward [] true (do
      let _ ← expect .semicolon .expressionEnd
      return Stmt.expression e) (do
      let _ ← expect .semicolon .expressionEnd
      return Stmt.expression e) := Onward.expect.bind fun _ => .pure _
  obtain ⟨hs, hr⟩ := strict hc hl h
  refine ⟨hs, (endExpression_run e _).trans ?_⟩
  rw [if_neg (by simp [Cursor.followed, hrest])]
  exact hr

structure StmtOnward (depth : Nat) : Prop where
  declaration : Onward [] true (readDeclaration depth) (readDeclaration depth)
  classBody : Onward [] true (readClass depth) (readClass depth)
  members : Onward [] true (readMembers depth) (readMembers depth)
  routine : ∀ callable, Onward [] true (readRoutine depth callable) (readRoutine depth callable)
  block : Onward [] true (readBlock depth) (readBlock depth)
  statement : Onward [] true (readStatement depth) (readStatement depth)

theorem readDeclaration_onward (ih : StmtOnward depth) :
    Onward [] true (readDeclaration (depth + 1)) (readDeclaration (depth + 1)) := by
  refine .recovering (.peeks fun t => ?_)
  split
  case _ hkind => exact .advance_bind (by simp [hkind]) readImport_onward
  case _ hkind =>
    refine .advance_bind (by simp [hkind]) (.peeks fun word => ?_)
    split
    case _ hword =>
      exact .advance_bind (by simp [hword]) (ih.classBody.bind fun _ => .pure _)
    case _ hword =>
      exact .advance_bind (by simp [hword]) ((ih.routine _).bind fun _ => .pure _)
    case _ hword => exact .advance_bind (by simp [hword]) (readVar_onward.bind fun _ => .pure _)
    case _ => exact Onward.fail.from_token word
  case _ hkind => exact .advance_bind (by simp [hkind]) ih.classBody
  case _ hkind => exact .advance_bind (by simp [hkind]) ((ih.routine _).bind fun _ => .pure _)
  case _ hkind => exact .advance_bind (by simp [hkind]) readVar_onward
  case _ => exact ih.statement.from_token t

theorem readClass_onward (ih : StmtOnward depth) :
    Onward [] true (readClass (depth + 1)) (readClass (depth + 1)) :=
  Onward.expect.bind fun _ => Onward.expect.bind fun _ => ih.members.bind fun _ =>
    Onward.expect.bind fun _ => .pure _

theorem readMembers_onward (ih : StmtOnward depth) :
    Onward [] true (readMembers (depth + 1)) (readMembers (depth + 1)) := by
  refine (Onward.check nil_not_kind).bind fun closed => Onward.atEnd.bind fun ended => ?_
  split
  · exact .pure _
  · refine (Onward.accept? nil_not_kind).bind fun keyword => ?_
    cases keyword <;>
      exact (ih.routine .method).bind fun first => ih.members.bind fun found => .pure _

theorem readRoutine_onward (ih : StmtOnward depth) (callable : Callable) :
    Onward [] true (readRoutine (depth + 1) callable) (readRoutine (depth + 1) callable) := by
  refine Onward.expect.bind fun name => (Onward.check nil_not_kind).bind fun opened => ?_
  dsimp only
  split
  · exact readParameterList_onward.map.bind fun params => Onward.expect.bind fun _ =>
      ih.block.bind fun _ => .pure _
  · exact (Onward.pure none).bind fun params => Onward.expect.bind fun _ =>
      ih.block.bind fun _ => .pure _

theorem readBlock_onward (ih : StmtOnward depth) :
    Onward [] true (readBlock (depth + 1)) (readBlock (depth + 1)) := by
  refine (Onward.check nil_not_kind).bind fun closed => Onward.atEnd.bind fun ended => ?_
  split
  · exact Onward.expect.bind fun _ => .pure _
  · exact ih.declaration.bind fun first => ih.block.bind fun _ => .pure _

theorem readStatement_onward (ih : StmtOnward depth) :
    Onward [] true (readStatement (depth + 1)) (readStatement (depth + 1)) := by
  refine .peeks fun t => ?_
  split
  case _ hkind => exact .advance_bind (by simp [hkind]) (Onward.expect.bind fun _ => .pure _)
  case _ hkind =>
    refine .advance_bind (by simp [hkind]) (Onward.expect.bind fun _ => .peeks fun first => ?_)
    have cycle (start : Option Stmt) : Onward [] true (do
        let condition ← readUnless .semicolon
        let _ ← expect .semicolon .forCondition
        let step ← readUnless .rightParen
        let _ ← expect .rightParen .forClose
        return forLoop start condition step (← readStatement depth)) (do
        let condition ← readUnless .semicolon
        let _ ← expect .semicolon .forCondition
        let step ← readUnless .rightParen
        let _ ← expect .rightParen .forClose
        return forLoop start condition step (← readStatement depth)) :=
      readUnless_onward.bind fun condition => Onward.expect.bind fun _ =>
        readUnless_onward.bind fun step => Onward.expect.bind fun _ =>
          ih.statement.bind fun _ => .pure _
    dsimp only
    split
    case _ hfirst => exact .advance_bind (by simp [hfirst]) ((Onward.pure none).bind cycle)
    case _ hfirst => exact .advance_bind (by simp [hfirst]) (readVar_onward.map.bind cycle)
    case _ => exact (readExpressionStatement_onward.map.bind cycle).from_token first
  case _ hkind =>
    refine .advance_bind (by simp [hkind]) (Onward.expect.bind fun _ => ?_)
    refine Onward.expression.bind fun condition => Onward.expect.bind fun _ => ?_
    refine ih.statement.bind fun yes => (Onward.accept? nil_not_kind).bind fun keyword => ?_
    cases keyword with
    | none => exact (Onward.pure none).bind fun no => .pure _
    | some keyword => exact ih.statement.map.bind fun no => .pure _
  case _ hkind =>
    refine .advance_bind (by simp [hkind]) (Onward.expect.bind fun _ => ?_)
    exact Onward.expression.bind fun condition => Onward.expect.bind fun _ =>
      ih.statement.bind fun _ => .pure _
  case _ hkind =>
    exact .advance_bind (by simp [hkind]) <| readUnless_onward.bind fun value =>
      Onward.expect.bind fun _ => .pure _
  case _ hkind => exact .advance_bind (by simp [hkind]) (ih.block.bind fun _ => .pure _)
  case _ hkind =>
    exact .advance_bind (by simp [hkind]) <| Onward.expression.bind fun e =>
      Onward.expect.bind fun _ => .pure _
  case _ => exact readExpressionStatement_onward.from_token t

theorem stmtOnward : (depth : Nat) → StmtOnward depth
  | 0 => ⟨Onward.fail.recovering, .fail, .fail, fun _ => .fail, .fail, .fail⟩
  | depth + 1 => by
    have ih := stmtOnward depth
    exact ⟨readDeclaration_onward ih, readClass_onward ih, readMembers_onward ih,
      readRoutine_onward ih, readBlock_onward ih, readStatement_onward ih⟩

theorem declaration_onward : Onward [] true declaration declaration := by
  intro c s d hc hl h
  obtain ⟨_, _, hget, h⟩ := reads_bind.1 h
  cases hget
  obtain ⟨hs, hr⟩ := (stmtOnward _).declaration hc hl h
  refine ⟨hs, reads_bind.2 ⟨_, _, rfl, ?_⟩⟩
  simpa only [Cursor.followed, List.append_nil] using hr

end Treewalk.Parser
