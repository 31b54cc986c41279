import Mathlib
import Treewalk.Prepared

/-!
# The nodes of a tree that was read

Reading gives every node that refers to a variable an identity of its own, above all identities
that were used before, and puts declarations only where a declaration may stand: neither the
branches of an `if` nor the body of a loop declares a name in the scope around it. Both are shown
reader by reader, for every list of tokens.
-/

namespace Treewalk

-- ---------------------------------------------------------------------------
-- Identities and shape of a tree
-- ---------------------------------------------------------------------------

mutual

/-- The identities of the nodes that refer to variables. -/
def Expr.ids : Expr → List NodeId
  | .literal _ => []
  | .unary _ right => right.ids
  | .binary _ left right => left.ids ++ right.ids
  | .logical _ left right => left.ids ++ right.ids
  | .conditional condition yes no => condition.ids ++ yes.ids ++ no.ids
  | .group inner => inner.ids
  | .var id _ => [id]
  | .assign id _ value => value.ids ++ [id]
  | .call callee _ arguments => callee.ids ++ Expr.idsOfAll arguments
  | .get object _ => object.ids
  | .set object _ value => object.ids ++ value.ids
  | .this id _ => [id]
  | .array elements => Expr.idsOfAll elements
  | .index target _ position => target.ids ++ position.ids

def Expr.idsOfAll : List Expr → List NodeId
  | [] => []
  | e :: rest => e.ids ++ Expr.idsOfAll rest

end

def Expr.idsOfOption : Option Expr → List NodeId
  | none => []
  | some e => e.ids

mutual

def Stmt.ids : Stmt → List NodeId
  | .expression e => e.ids
  | .print e => e.ids
  | .var _ initial => Expr.idsOfOption initial
  | .block body => Stmt.idsOfAll body
  | .ifElse condition yes none => condition.ids ++ yes.ids
  | .ifElse condition yes (some no) => condition.ids ++ yes.ids ++ no.ids
  | .whileLoop condition body => condition.ids ++ body.ids
  | .breakLoop _ => []
  | .function routine => routine.ids
  | .classDecl _ methods classMethods =>
    Routine.idsOfAll methods ++ Routine.idsOfAll classMethods
  | .returnValue _ value => Expr.idsOfOption value
  | .importModule _ _ => []
  | .exportDecl _ declaration => declaration.ids

def Stmt.idsOfAll : List Stmt → List NodeId
  | [] => []
  | s :: rest => s.ids ++ Stmt.idsOfAll rest

def Routine.ids : Routine → List NodeId
  | ⟨_, _, body⟩ => Stmt.idsOfAll body

def Routine.idsOfAll : List Routine → List NodeId
  | [] => []
  | r :: rest => r.ids ++ Routine.idsOfAll rest

end

/-- The name that a statement adds to the scope around it. -/
def Stmt.declares : Stmt → Option Token
  | .exportDecl _ declaration => declaration.declares
  | .var name _ => some name
  | .function routine => some routine.name
  | .classDecl name _ _ => some name
  | _ => none

mutual

/-- Declarations stand only where the grammar has them, and functions have parameter lists. -/
def Stmt.Proper : Stmt → Prop
  | .block body => Stmt.AllProper body
  | .ifElse _ yes none => yes.declares = none ∧ yes.Proper
  | .ifElse _ yes (some no) =>
    yes.declares = none ∧ yes.Proper ∧ no.declares = none ∧ no.Proper
  | .whileLoop _ body => body.declares = none ∧ body.Proper
  | .function routine => routine.params.isSome ∧ routine.Proper
  | .classDecl _ methods classMethods =>
    Routine.AllProper methods ∧ Routine.AllProper classMethods
  | .exportDecl _ declaration => declaration.declared?.isSome ∧ declaration.Proper
  | _ => True

def Stmt.AllProper : List Stmt → Prop
  | [] => True
  | s :: rest => s.Proper ∧ Stmt.AllProper rest

def Routine.Proper : Routine → Prop
  | ⟨_, _, body⟩ => Stmt.AllProper body

def Routine.AllProper : List Routine → Prop
  | [] => True
  | r :: rest => r.Proper ∧ Routine.AllProper rest

end

/-- The identities are all different, and none was used before `low` or is left for after
`high`. -/
structure Fresh (ids : List Nat) (low high : Nat) : Prop where
  nodup : ids.Nodup
  range : ∀ id ∈ ids, low ≤ id ∧ id < high
  le : low ≤ high

namespace Fresh

theorem nil (h : low ≤ high) : Fresh [] low high :=
  ⟨.nil, by simp, h⟩

theorem append (ha : Fresh as low mid) (hb : Fresh bs mid high) : Fresh (as ++ bs) low high where
  nodup := by
    refine List.nodup_append.2 ⟨ha.nodup, hb.nodup, ?_⟩
    rintro a hma b hmb rfl
    have := (ha.range a hma).2
    have := (hb.range a hmb).1
    omega
  range := by
    intro id hid
    have := ha.le
    have := hb.le
    rcases List.mem_append.1 hid with h | h
    · have := ha.range id h
      omega
    · have := hb.range id h
      omega
  le := Nat.le_trans ha.le hb.le

theorem earlier (h : Fresh ids low high) (hle : low' ≤ low) : Fresh ids low' high where
  nodup := h.nodup
  range := fun id hid => ⟨Nat.le_trans hle (h.range id hid).1, (h.range id hid).2⟩
  le := Nat.le_trans hle h.le

theorem perm (h : Fresh as low high) (hp : as.Perm bs) : Fresh bs low high :=
  ⟨hp.nodup_iff.1 h.nodup, fun id hid => h.range id (hp.mem_iff.2 hid), h.le⟩

theorem single (id : Nat) : Fresh [id] id (id + 1) :=
  ⟨by simp, by simp, by omega⟩

end Fresh

namespace Parser

-- ---------------------------------------------------------------------------
-- Readers that succeed
-- ---------------------------------------------------------------------------

/-- Before `c` the reader succeeds with `a`, and leaves the cursor `c'`. -/
def Reads (r : Reader α) (c : Cursor) (a : α) (c' : Cursor) : Prop :=
  r.run.run c = (.ok a, c')

theorem reads_pure : Reads (pure a) c b c' ↔ b = a ∧ c' = c := by
  constructor
  · intro h
    cases h
    exact ⟨rfl, rfl⟩
  · rintro ⟨rfl, rfl⟩
    rfl

theorem reads_bind {m : Reader α} {f : α → Reader β} :
    Reads (m >>= f) c b c' ↔ ∃ a c₁, Reads m c a c₁ ∧ Reads (f a) c₁ b c' := by
  have unfolded : (m >>= f).run.run c =
      (ExceptT.bindCont f (m.run.run c).1).run (m.run.run c).2 := rfl
  unfold Reads
  rw [unfolded]
  rcases m.run.run c with ⟨_ | a, c₁⟩
  · exact ⟨fun h => (nomatch h), fun ⟨_, _, h, _⟩ => (nomatch h)⟩
  · constructor
    · exact fun h => ⟨a, c₁, rfl, h⟩
    · rintro ⟨_, _, h, hf⟩
      cases h
      exact hf

theorem reads_map {m : Reader α} {g : α → β} :
    Reads (g <$> m) c b c' ↔ ∃ a, Reads m c a c' ∧ b = g a := by
  rw [map_eq_pure_bind, reads_bind]
  simp only [reads_pure]
  constructor
  · rintro ⟨a, _, h, rfl, rfl⟩
    exact ⟨a, h, rfl⟩
  · rintro ⟨a, h, rfl⟩
    exact ⟨a, _, h, rfl, rfl⟩

theorem reads_get : Reads (get : Reader Cursor) c a c' ↔ a = c ∧ c' = c := by
  constructor
  · intro h
    cases h
    exact ⟨rfl, rfl⟩
  · rintro ⟨rfl, rfl⟩
    rfl

theorem reads_throw : Reads (throw e : Reader α) c a c' ↔ False :=
  ⟨fun h => (nomatch h), False.elim⟩

theorem reads_fail : Reads (fail fault : Reader α) c a c' ↔ False :=
  ⟨fun h => (nomatch h), False.elim⟩

theorem reads_peek : Reads peek c t c' ↔ t = c.peek ∧ c' = c := by
  simp only [peek, reads_bind, reads_get, reads_pure]
  constructor
  · rintro ⟨_, _, ⟨rfl, rfl⟩, rfl, rfl⟩
    exact ⟨rfl, rfl⟩
  · rintro ⟨rfl, rfl⟩
    exact ⟨_, _, ⟨rfl, rfl⟩, rfl, rfl⟩

/-- Recovering changes no success: the handler fails as the reader did. -/
theorem reads_recovering {r : Reader α} : Reads (recovering r) c a c' ↔ Reads r c a c' := by
  unfold Reads recovering
  simp only [tryCatch, tryCatchThe, MonadExceptOf.tryCatch, ExceptT.tryCatch, ExceptT.run,
    ExceptT.mk, StateT.run_bind]
  rcases hr : StateT.run r c with ⟨_ | _, _⟩
  · exact ⟨fun h => (nomatch h), fun h => (nomatch h)⟩
  · rfl

/-- A reader that makes no node. -/
def Still (r : Reader α) : Prop :=
  ∀ ⦃c a c'⦄, Reads r c a c' → c'.nextId = c.nextId

theorem Still.pure : Still (pure a : Reader α) := by
  intro c b c' h
  rw [(reads_pure.1 h).2]

theorem Still.fail : Still (fail fault : Reader α) :=
  fun _ _ _ h => (reads_fail.1 h).elim

theorem Still.bind {m : Reader α} {f : α → Reader β} (hm : Still m) (hf : ∀ a, Still (f a)) :
    Still (m >>= f) := by
  intro c b c' h
  obtain ⟨a, c₁, h₁, h₂⟩ := reads_bind.1 h
  rw [hf a h₂, hm h₁]

theorem Still.get : Still (get : Reader Cursor) := by
  intro c a c' h
  rw [(reads_get.1 h).2]

theorem still_peek : Still peek :=
  Still.get.bind fun _ => Still.pure

theorem still_atEnd : Still atEnd :=
  Still.get.bind fun _ => Still.pure

theorem still_check : Still (check kind) :=
  Still.get.bind fun _ => Still.pure

theorem still_advance : Still advance := by
  intro c a c' h
  cases h
  rfl

theorem still_acceptIf : Still (acceptIf p) := by
  refine Still.get.bind fun c => ?_
  split
  · split
    · exact still_advance.bind fun _ => Still.pure
    · exact Still.pure
  · exact Still.pure

theorem still_accept? : Still (accept? kind) :=
  still_acceptIf

theorem still_expect : Still (expect kind fault) := by
  refine still_accept?.bind fun found => ?_
  split
  · exact Still.pure
  · exact Still.fail

theorem reads_freshId : Reads freshId c new c' ↔
    new = c.nextId ∧ c' = { c with nextId := c.nextId + 1 } := by
  constructor
  · intro h
    cases h
    exact ⟨rfl, rfl⟩
  · rintro ⟨rfl, rfl⟩
    rfl

-- ---------------------------------------------------------------------------
-- Expressions
-- ---------------------------------------------------------------------------

/-- The reader makes new nodes with identities of their own; `ids` tells which. -/
def Numbers (ids : α → List NodeId) (r : Reader α) : Prop :=
  ∀ ⦃c a c'⦄, Reads r c a c' → Fresh (ids a) c.nextId c'.nextId

/-- The reader adds new nodes to those of `head`. -/
def Extends (head : Expr) (r : Reader Expr) : Prop :=
  ∀ ⦃c e c'⦄, Reads r c e c' → ∃ new, e.ids = head.ids ++ new ∧ Fresh new c.nextId c'.nextId

/-- What the expression readers with one allowance do. -/
structure ExprReaders (depth : Nat) : Prop where
  level : ∀ level, Numbers Expr.ids (readLevel depth level)
  operands : ∀ level left, Extends left (readOperands depth level left)
  suffixes : ∀ head, Extends head (readSuffixes depth head)
  items : ∀ close, Numbers Expr.idsOfAll (readItems depth close)
  itemsFrom : ∀ room, Numbers Expr.idsOfAll (readItemsFrom depth room)
  primary : Numbers Expr.ids (readPrimary depth)

theorem Numbers.continued {r : Reader Expr} {f : Expr → Reader Expr} (hr : Numbers Expr.ids r)
    (hf : ∀ e, Extends e (f e)) : Numbers Expr.ids (r >>= f) := by
  intro c e c' h
  obtain ⟨head, c₁, h₁, h₂⟩ := reads_bind.1 h
  obtain ⟨new, hids, hnew⟩ := hf head h₂
  rw [hids]
  exact (hr h₁).append hnew

theorem Level.ids_join (level : Level) (op : Token) (left right : Expr) :
    (level.join op left right).ids = left.ids ++ right.ids := by
  cases level <;> rfl

theorem readAssignment_numbers (ih : ExprReaders depth) :
    Numbers Expr.ids (readLevel (depth + 1) .assignment) := by
  intro c e c' h
  simp only [readLevel, reads_bind] at h
  obtain ⟨target, c₁, h₁, equals, c₂, h₂, h⟩ := h
  have htarget := ih.level _ h₁
  have hc₂ := still_accept? h₂
  cases equals with
  | none =>
    obtain ⟨rfl, rfl⟩ := reads_pure.1 h
    rwa [hc₂]
  | some equals =>
    obtain ⟨value, c₃, h₃, h⟩ := reads_bind.1 h
    have hvalue := ih.level _ h₃
    rw [hc₂] at hvalue
    cases target with
    | var id name =>
      simp only [reads_bind, reads_freshId, reads_pure] at h
      obtain ⟨new, c₄, ⟨rfl, rfl⟩, rfl, rfl⟩ := h
      exact (hvalue.append (.single _)).earlier htarget.le
    | get object name =>
      obtain ⟨rfl, rfl⟩ := reads_pure.1 h
      exact htarget.append hvalue
    | _ => exact (reads_throw.1 h).elim

theorem readConditional_numbers (ih : ExprReaders depth) :
    Numbers Expr.ids (readLevel (depth + 1) .conditional) := by
  intro c e c' h
  simp only [readLevel, reads_bind] at h
  obtain ⟨condition, c₁, h₁, question, c₂, h₂, h⟩ := h
  have hcondition := ih.level _ h₁
  have hc₂ := still_accept? h₂
  cases question with
  | none =>
    obtain ⟨rfl, rfl⟩ := reads_pure.1 h
    rwa [hc₂]
  | some question =>
    simp only [reads_bind, reads_pure] at h
    obtain ⟨yes, c₃, h₃, _, c₄, h₄, no, c₅, h₅, rfl, rfl⟩ := h
    have hyes := ih.level _ h₃
    have hno := ih.level _ h₅
    rw [hc₂] at hyes
    rw [still_expect h₄] at hno
    exact (hcondition.append hyes).append hno

theorem readUnary_numbers (ih : ExprReaders depth) :
    Numbers Expr.ids (readLevel (depth + 1) .unary) := by
  intro c e c' h
  simp only [readLevel, reads_bind] at h
  obtain ⟨op, c₁, h₁, h⟩ := h
  rw [← still_acceptIf h₁]
  cases op with
  | none => exact ih.level _ h
  | some op =>
    obtain ⟨right, h₂, rfl⟩ := reads_map.1 h
    simpa only [Expr.ids] using ih.level _ h₂

theorem readLevel_numbers (ih : ExprReaders depth) (level : Level) :
    Numbers Expr.ids (readLevel (depth + 1) level) := by
  cases level with
  | assignment => exact readAssignment_numbers ih
  | conditional => exact readConditional_numbers ih
  | unary => exact readUnary_numbers ih
  | call => exact (ih.level _).continued ih.suffixes
  | primary => exact ih.primary
  | _ => exact (ih.level _).continued (ih.operands _)

theorem readOperands_extends (ih : ExprReaders depth) (level : Level) (left : Expr) :
    Extends left (readOperands (depth + 1) level left) := by
  intro c e c' h
  simp only [readOperands, reads_bind] at h
  obtain ⟨op, c₁, h₁, h⟩ := h
  have hc₁ := still_acceptIf h₁
  cases op with
  | none =>
    obtain ⟨rfl, rfl⟩ := reads_pure.1 h
    exact ⟨[], by simp, .nil (Nat.le_of_eq hc₁.symm)⟩
  | some op =>
    obtain ⟨right, c₂, h₂, h⟩ := reads_bind.1 h
    obtain ⟨new, hids, hnew⟩ := ih.operands _ _ h
    refine ⟨right.ids ++ new, ?_, ?_⟩
    · rw [hids, Level.ids_join, List.append_assoc]
    · rw [← hc₁]
      exact (ih.level _ h₂).append hnew

theorem readSuffixes_extends (ih : ExprReaders depth) (head : Expr) :
    Extends head (readSuffixes (depth + 1) head) := by
  intro c e c' h
  simp only [readSuffixes, reads_bind] at h
  obtain ⟨t, c₁, h₁, h⟩ := h
  have hc₁ := still_peek h₁
  split at h
  · simp only [reads_bind] at h
    obtain ⟨_, c₂, h₂, arguments, c₃, h₃, paren, c₄, h₄, h⟩ := h
    obtain ⟨new, hids, hnew⟩ := ih.suffixes _ h
    have harguments := ih.items _ h₃
    rw [still_advance h₂, hc₁] at harguments
    rw [still_expect h₄] at hnew
    exact ⟨_, by rw [hids, Expr.ids, List.append_assoc], harguments.append hnew⟩
  · simp only [reads_bind] at h
    obtain ⟨_, c₂, h₂, name, c₃, h₃, h⟩ := h
    obtain ⟨new, hids, hnew⟩ := ih.suffixes _ h
    rw [still_expect h₃, still_advance h₂, hc₁] at hnew
    exact ⟨new, by rw [hids, Expr.ids], hnew⟩
  · simp only [reads_bind] at h
    obtain ⟨_, c₂, h₂, position, c₃, h₃, bracket, c₄, h₄, h⟩ := h
    obtain ⟨new, hids, hnew⟩ := ih.suffixes _ h
    have hposition := ih.level _ h₃
    rw [still_advance h₂, hc₁] at hposition
    rw [still_expect h₄] at hnew
    exact ⟨_, by rw [hids, Expr.ids, List.append_assoc], hposition.append hnew⟩
  · obtain ⟨rfl, rfl⟩ := reads_pure.1 h
    exact ⟨[], by simp, .nil (Nat.le_of_eq hc₁.symm)⟩

theorem readItems_numbers (ih : ExprReaders depth) (close : Kind) :
    Numbers Expr.idsOfAll (readItems (depth + 1) close) := by
  intro c es c' h
  simp only [readItems, reads_bind] at h
  obtain ⟨closed, c₁, h₁, h⟩ := h
  rw [← still_check h₁]
  split at h
  · obtain ⟨rfl, rfl⟩ := reads_pure.1 h
    exact .nil (Nat.le_refl _)
  · exact ih.itemsFrom _ h

theorem readItemsFrom_numbers (ih : ExprReaders depth) (room : Nat) :
    Numbers Expr.idsOfAll (readItemsFrom (depth + 1) room) := by
  intro c es c' h
  cases room with
  | zero => exact (reads_fail.1 h).elim
  | succ room =>
    simp only [readItemsFrom, reads_bind] at h
    obtain ⟨item, c₁, h₁, comma, c₂, h₂, h⟩ := h
    have hitem := ih.level _ h₁
    have hc₂ := still_accept? h₂
    cases comma with
    | none =>
      obtain ⟨rfl, rfl⟩ := reads_pure.1 h
      rw [hc₂]
      simpa [Expr.idsOfAll] using hitem
    | some comma =>
      obtain ⟨rest, h₃, rfl⟩ := reads_map.1 h
      have hrest := ih.itemsFrom _ h₃
      rw [hc₂] at hrest
      exact hitem.append hrest

theorem readPrimary_numbers (ih : ExprReaders depth) :
    Numbers Expr.ids (readPrimary (depth + 1)) := by
  intro c e c' h
  simp only [readPrimary, reads_bind] at h
  obtain ⟨t, c₁, h₁, h⟩ := h
  rw [← still_peek h₁]
  split at h
  case h_6 | h_7 =>
    simp only [reads_bind, reads_freshId, reads_pure] at h
    obtain ⟨_, c₂, h₂, new, c₃, ⟨rfl, rfl⟩, rfl, rfl⟩ := h
    rw [← still_advance h₂]
    exact .single _
  case h_8 =>
    simp only [reads_bind, reads_pure] at h
    obtain ⟨_, c₂, h₂, inner, c₃, h₃, _, c₄, h₄, rfl, rfl⟩ := h
    rw [← still_advance h₂, still_expect h₄]
    simpa only [Expr.ids] using ih.level _ h₃
  case h_9 =>
    simp only [reads_bind, reads_pure] at h
    obtain ⟨_, c₂, h₂, elements, c₃, h₃, _, c₄, h₄, rfl, rfl⟩ := h
    rw [← still_advance h₂, still_expect h₄]
    simpa only [Expr.ids] using ih.items _ h₃
  case h_10 =>
    split at h
    · simp [reads_bind, reads_throw] at h
    · exact (reads_fail.1 h).elim
  all_goals
    simp only [reads_bind, reads_pure] at h
    obtain ⟨_, c₂, h₂, rfl, rfl⟩ := h
    exact .nil (Nat.le_of_eq (still_advance h₂).symm)

theorem exprReaders (depth : Nat) : ExprReaders depth := by
  induction depth with
  | zero =>
    refine ⟨?_, ?_, ?_, ?_, ?_, ?_⟩
    · intro level c e c' h
      cases level <;> exact (reads_fail.1 h).elim
    · exact fun _ _ _ _ _ h => (reads_fail.1 h).elim
    · exact fun _ _ _ _ h => (reads_fail.1 h).elim
    · exact fun _ _ _ _ h => (reads_fail.1 h).elim
    · intro room c es c' h
      cases room <;> exact (reads_fail.1 h).elim
    · exact fun _ _ _ h => (reads_fail.1 h).elim
  | succ depth ih =>
    exact ⟨readLevel_numbers ih, readOperands_extends ih, readSuffixes_extends ih,
      readItems_numbers ih, readItemsFrom_numbers ih, readPrimary_numbers ih⟩

theorem expression_numbers : Numbers Expr.ids expression := by
  intro c e c' h
  simp only [expression, reads_bind, reads_get] at h
  obtain ⟨_, _, ⟨rfl, rfl⟩, h⟩ := h
  exact (exprReaders _).level _ h

-- ---------------------------------------------------------------------------
-- Statements
-- ---------------------------------------------------------------------------

/-- The reader makes what is as `Good` says, with new nodes. -/
def Makes (ids : α → List NodeId) (Good : α → Prop) (r : Reader α) : Prop :=
  ∀ ⦃c a c'⦄, Reads r c a c' → Fresh (ids a) c.nextId c'.nextId ∧ Good a

/-- A declaration that may be exported. -/
def IsDefinition (s : Stmt) : Prop :=
  s.declared?.isSome ∧ s.Proper

/-- A statement that may stand as a branch or as the body of a loop. -/
def IsBranch (s : Stmt) : Prop :=
  s.declares = none ∧ s.Proper

/-- What the statement readers with one allowance do. -/
structure StmtReaders (depth : Nat) : Prop where
  declaration : Makes Stmt.ids Stmt.Proper (readDeclaration depth)
  classBody : Makes Stmt.ids IsDefinition (readClass depth)
  members : Makes (fun m => Routine.idsOfAll m.1 ++ Routine.idsOfAll m.2)
    (fun m => Routine.AllProper m.1 ∧ Routine.AllProper m.2) (readMembers depth)
  routine : ∀ callable, Makes Routine.ids
    (fun r => (callable = .function → r.params.isSome) ∧ r.Proper) (readRoutine depth callable)
  block : Makes Stmt.idsOfAll Stmt.AllProper (readBlock depth)
  statement : Makes Stmt.ids IsBranch (readStatement depth)

theorem readUnless_numbers : Numbers Expr.idsOfOption (readUnless close) := by
  intro c e c' h
  simp only [readUnless, reads_bind] at h
  obtain ⟨closed, c₁, h₁, h⟩ := h
  rw [← still_check h₁]
  split at h
  · obtain ⟨rfl, rfl⟩ := reads_pure.1 h
    exact .nil (Nat.le_refl _)
  · obtain ⟨e, he, rfl⟩ := reads_map.1 h
    exact expression_numbers he

theorem readVar_makes : Makes Stmt.ids IsDefinition readVar := by
  intro c s c' h
  simp only [readVar, reads_bind] at h
  obtain ⟨name, c₁, h₁, equals, c₂, h₂, h⟩ := h
  rw [← still_expect h₁, ← still_accept? h₂]
  cases equals with
  | none =>
    simp only [reads_bind, reads_pure] at h
    obtain ⟨_, _, ⟨rfl, rfl⟩, _, c₃, h₃, rfl, rfl⟩ := h
    rw [still_expect h₃]
    exact ⟨.nil (Nat.le_refl _), rfl, trivial⟩
  | some equals =>
    simp only [reads_bind, reads_map, reads_pure] at h
    obtain ⟨_, c₃, ⟨e, he, rfl⟩, _, c₄, h₄, rfl, rfl⟩ := h
    rw [still_expect h₄]
    exact ⟨expression_numbers he, rfl, trivial⟩

theorem readImport_makes : Makes Stmt.ids Stmt.Proper (readImport keyword) := by
  intro c s c' h
  simp only [readImport, reads_bind] at h
  obtain ⟨path, c₁, h₁, h⟩ := h
  split at h
  · simp only [reads_bind, reads_pure] at h
    obtain ⟨_, c₂, h₂, _, c₃, h₃, rfl, rfl⟩ := h
    rw [still_expect h₃, still_advance h₂, still_peek h₁]
    exact ⟨.nil (Nat.le_refl _), trivial⟩
  · exact (reads_fail.1 h).elim

theorem readExpressionStatement_makes : Makes Stmt.ids IsBranch readExpressionStatement := by
  intro c s c' h
  simp only [readExpressionStatement, reads_bind, reads_get] at h
  obtain ⟨e, c₁, h₁, _, _, ⟨rfl, rfl⟩, ended, c₂, h₂, h⟩ := h
  have hids := expression_numbers h₁
  rw [← still_atEnd h₂] at hids
  split at h
  · obtain ⟨_, c₃, h₃, h⟩ := reads_bind.1 h
    obtain ⟨rfl, rfl⟩ := reads_pure.1 h
    cases h₃
    exact ⟨hids, rfl, trivial⟩
  · simp only [reads_bind, reads_pure] at h
    obtain ⟨_, c₃, h₃, rfl, rfl⟩ := h
    rw [still_expect h₃]
    exact ⟨hids, rfl, trivial⟩

theorem still_readParameters : Still (readParameters room) := by
  induction room with
  | zero => exact Still.fail
  | succ room ih =>
    refine still_expect.bind fun name => still_accept?.bind fun comma => ?_
    cases comma with
    | none => exact Still.pure
    | some comma =>
      intro c params c' h
      obtain ⟨rest, h, -⟩ := reads_map.1 h
      exact ih h

theorem still_readParameterList : Still (readParameterList callable) := by
  refine still_expect.bind fun _ => still_check.bind fun closed => ?_
  have close (params : List Token) : Still (do
      let _ ← expect .rightParen .parametersClose
      return params) := still_expect.bind fun _ => Still.pure
  dsimp only
  split
  · exact Still.pure.bind close
  · exact still_readParameters.bind close

theorem readDeclaration_makes (ih : StmtReaders depth) :
    Makes Stmt.ids Stmt.Proper (readDeclaration (depth + 1)) := by
  intro c s c' h
  simp only [readDeclarationWith, reads_recovering, reads_bind] at h
  obtain ⟨t, c₁, h₁, h⟩ := h
  rw [← still_peek h₁]
  split at h
  · obtain ⟨_, c₂, h₂, h⟩ := reads_bind.1 h
    rw [← still_advance h₂]
    exact readImport_makes h
  · simp only [reads_bind] at h
    obtain ⟨_, c₂, h₂, next, c₃, h₃, h⟩ := h
    rw [← still_advance h₂, ← still_peek h₃]
    split at h
    · simp only [reads_bind, reads_pure] at h
      obtain ⟨_, c₄, h₄, s, c₅, h₅, rfl, rfl⟩ := h
      rw [← still_advance h₄]
      exact ih.classBody h₅
    · simp only [reads_bind, reads_pure] at h
      obtain ⟨_, c₄, h₄, r, c₅, h₅, rfl, rfl⟩ := h
      rw [← still_advance h₄]
      obtain ⟨hids, hlisted, hproper⟩ := ih.routine _ h₅
      exact ⟨hids, rfl, hlisted rfl, hproper⟩
    · simp only [reads_bind, reads_pure] at h
      obtain ⟨_, c₄, h₄, s, c₅, h₅, rfl, rfl⟩ := h
      rw [← still_advance h₄]
      exact readVar_makes h₅
    · exact (reads_fail.1 h).elim
  · obtain ⟨_, c₂, h₂, h⟩ := reads_bind.1 h
    rw [← still_advance h₂]
    obtain ⟨hids, -, hproper⟩ := ih.classBody h
    exact ⟨hids, hproper⟩
  · simp only [reads_bind, reads_pure] at h
    obtain ⟨_, c₂, h₂, r, c₃, h₃, rfl, rfl⟩ := h
    rw [← still_advance h₂]
    obtain ⟨hids, hlisted, hproper⟩ := ih.routine _ h₃
    exact ⟨hids, hlisted rfl, hproper⟩
  · obtain ⟨_, c₂, h₂, h⟩ := reads_bind.1 h
    rw [← still_advance h₂]
    obtain ⟨hids, -, hproper⟩ := readVar_makes h
    exact ⟨hids, hproper⟩
  · obtain ⟨hids, -, hproper⟩ := ih.statement h
    exact ⟨hids, hproper⟩

theorem readClass_makes (ih : StmtReaders depth) :
    Makes Stmt.ids IsDefinition (readClass (depth + 1)) := by
  intro c s c' h
  simp only [readClassWith, reads_bind, reads_pure] at h
  obtain ⟨name, c₁, h₁, _, c₂, h₂, ⟨methods, classMethods⟩, c₃, h₃, _, c₄, h₄, rfl, rfl⟩ := h
  obtain ⟨hids, hproper⟩ := ih.members h₃
  rw [← still_expect h₁, ← still_expect h₂, still_expect h₄]
  exact ⟨hids, rfl, hproper⟩

theorem readMembers_makes (ih : StmtReaders depth) :
    Makes (fun m => Routine.idsOfAll m.1 ++ Routine.idsOfAll m.2)
      (fun m => Routine.AllProper m.1 ∧ Routine.AllProper m.2) (readMembers (depth + 1)) := by
  intro c members c' h
  simp only [readMembersWith, reads_bind] at h
  obtain ⟨closed, c₁, h₁, ended, c₂, h₂, h⟩ := h
  rw [← still_check h₁, ← still_atEnd h₂]
  split at h
  · obtain ⟨rfl, rfl⟩ := reads_pure.1 h
    exact ⟨.nil (Nat.le_refl _), trivial, trivial⟩
  · obtain ⟨keyword, c₃, h₃, h⟩ := reads_bind.1 h
    rw [← still_accept? h₃]
    cases keyword with
    | some keyword =>
      simp only [reads_bind, reads_pure] at h
      obtain ⟨first, c₄, h₄, ⟨methods, classMethods⟩, c₅, h₅, rfl, rfl⟩ := h
      obtain ⟨hfirst, -, hproper⟩ := ih.routine _ h₄
      obtain ⟨hrest, hmethods, hclassMethods⟩ := ih.members h₅
      refine ⟨(hfirst.append hrest).perm ?_, hmethods, hproper, hclassMethods⟩
      rw [← List.append_assoc]
      simpa only [Routine.idsOfAll, List.append_assoc] using List.perm_append_comm.append_right _
    | none =>
      simp only [reads_bind, reads_pure] at h
      obtain ⟨first, c₄, h₄, ⟨methods, classMethods⟩, c₅, h₅, rfl, rfl⟩ := h
      obtain ⟨hfirst, -, hproper⟩ := ih.routine _ h₄
      obtain ⟨hrest, hmethods, hclassMethods⟩ := ih.members h₅
      refine ⟨?_, ⟨hproper, hmethods⟩, hclassMethods⟩
      simpa only [Routine.idsOfAll, List.append_assoc] using hfirst.append hrest

theorem readRoutine_makes (ih : StmtReaders depth) (callable : Callable) :
    Makes Routine.ids (fun r => (callable = .function → r.params.isSome) ∧ r.Proper)
      (readRoutine (depth + 1) callable) := by
  intro c r c' h
  simp only [readRoutineWith, reads_bind] at h
  obtain ⟨name, c₁, h₁, listed, c₂, h₂, h⟩ := h
  rw [← still_expect h₁, ← still_check h₂]
  split at h
  · simp only [reads_bind, reads_map, reads_pure] at h
    obtain ⟨_, c₃, ⟨params, h₃, rfl⟩, _, c₄, h₄, body, c₅, h₅, rfl, rfl⟩ := h
    rw [← still_readParameterList h₃, ← still_expect h₄]
    obtain ⟨hids, hproper⟩ := ih.block h₅
    exact ⟨hids, fun _ => rfl, hproper⟩
  · next hgetter =>
    simp only [reads_bind, reads_pure] at h
    obtain ⟨_, _, ⟨rfl, rfl⟩, _, c₄, h₄, body, c₅, h₅, rfl, rfl⟩ := h
    rw [← still_expect h₄]
    obtain ⟨hids, hproper⟩ := ih.block h₅
    exact ⟨hids, fun hcallable => by simp [hcallable] at hgetter, hproper⟩

theorem readBlock_makes (ih : StmtReaders depth) :
    Makes Stmt.idsOfAll Stmt.AllProper (readBlock (depth + 1)) := by
  intro c body c' h
  simp only [readBlockWith, reads_bind] at h
  obtain ⟨closed, c₁, h₁, ended, c₂, h₂, h⟩ := h
  rw [← still_check h₁, ← still_atEnd h₂]
  split at h
  · simp only [reads_bind, reads_pure] at h
    obtain ⟨_, c₃, h₃, rfl, rfl⟩ := h
    exact ⟨.nil (Nat.le_of_eq (still_expect h₃).symm), trivial⟩
  · simp only [reads_bind, reads_pure] at h
    obtain ⟨first, c₃, h₃, rest, c₄, h₄, rfl, rfl⟩ := h
    obtain ⟨hfirst, hfirstProper⟩ := ih.declaration h₃
    obtain ⟨hrest, hrestProper⟩ := ih.block h₄
    exact ⟨hfirst.append hrest, hfirstProper, hrestProper⟩

def idsOfStart : Option Stmt → List NodeId
  | none => []
  | some s => s.ids

/-- A `for` statement has the nodes of its parts, the step behind the body that it follows. -/
theorem forLoop_ids (start : Option Stmt) (condition step : Option Expr) (body : Stmt) :
    (forLoop start condition step body).ids =
      idsOfStart start ++ Expr.idsOfOption condition ++ (body.ids ++ Expr.idsOfOption step) := by
  cases start <;> cases condition <;> cases step <;>
    simp [forLoop, idsOfStart, Stmt.ids, Stmt.idsOfAll, Expr.ids, Expr.idsOfOption]

theorem forLoop_isBranch {start : Option Stmt} (hstart : ∀ s ∈ start, s.Proper)
    (hbody : IsBranch body) : IsBranch (forLoop start condition step body) := by
  cases step with
  | none =>
    cases start with
    | none => exact ⟨rfl, hbody⟩
    | some s => exact ⟨rfl, hstart s rfl, hbody, trivial⟩
  | some e =>
    have hround : IsBranch (.block [body, .expression e]) := ⟨rfl, hbody.2, trivial, trivial⟩
    cases start with
    | none => exact ⟨rfl, hround⟩
    | some s => exact ⟨rfl, hstart s rfl, hround, trivial⟩

/-- What follows the first clause of a `for` statement. -/
theorem readForRest_makes (ih : StmtReaders depth) (start : Option Stmt)
    (hids : Fresh (idsOfStart start) low c.nextId) (hstart : ∀ s ∈ start, s.Proper)
    (h : Reads (do
      let condition ← readUnless .semicolon
      let _ ← expect .semicolon .forCondition
      let step ← readUnless .rightParen
      let _ ← expect .rightParen .forClose
      return forLoop start condition step (← readStatement depth)) c s c') :
    Fresh s.ids low c'.nextId ∧ IsBranch s := by
  simp only [reads_bind, reads_pure] at h
  obtain ⟨condition, c₁, h₁, _, c₂, h₂, step, c₃, h₃, _, c₄, h₄, body, c₅, h₅, rfl, rfl⟩ := h
  obtain ⟨hbody, hbranch⟩ := ih.statement h₅
  have hstep := readUnless_numbers h₃
  rw [still_expect h₂] at hstep
  rw [still_expect h₄] at hbody
  refine ⟨?_, forLoop_isBranch hstart hbranch⟩
  rw [forLoop_ids]
  refine (((hids.append (readUnless_numbers h₁)).append hstep).append hbody).perm ?_
  rw [List.append_assoc]
  exact List.perm_append_comm.append_left _

theorem readStatement_makes (ih : StmtReaders depth) :
    Makes Stmt.ids IsBranch (readStatement (depth + 1)) := by
  intro c s c' h
  simp only [readStatementWith, reads_bind] at h
  obtain ⟨t, c₁, h₁, h⟩ := h
  rw [← still_peek h₁]
  split at h
  case h_1 =>
    simp only [reads_bind, reads_pure] at h
    obtain ⟨_, c₂, h₂, _, c₃, h₃, rfl, rfl⟩ := h
    rw [still_expect h₃, still_advance h₂]
    exact ⟨.nil (Nat.le_refl _), rfl, trivial⟩
  case h_2 =>
    simp only [reads_bind] at h
    obtain ⟨_, c₂, h₂, _, c₃, h₃, next, c₄, h₄, h⟩ := h
    rw [← still_advance h₂, ← still_expect h₃, ← still_peek h₄]
    split at h
    · simp only [reads_bind] at h
      obtain ⟨_, c₅, h₅, _, c₆, h₆, h⟩ := h
      obtain ⟨rfl, rfl⟩ := reads_pure.1 h₆
      refine readForRest_makes ih none (.nil (Nat.le_of_eq (still_advance h₅).symm)) (by simp) ?_
      simpa only [reads_bind] using h
    · simp only [reads_bind, reads_map] at h
      obtain ⟨_, c₅, h₅, _, c₆, ⟨start, h₆, rfl⟩, h⟩ := h
      obtain ⟨hids, -, hproper⟩ := readVar_makes h₆
      rw [still_advance h₅] at hids
      refine readForRest_makes ih (some start) hids (by simpa using hproper) ?_
      simpa only [reads_bind] using h
    · simp only [reads_bind, reads_map] at h
      obtain ⟨_, c₅, ⟨start, h₅, rfl⟩, h⟩ := h
      obtain ⟨hids, -, hproper⟩ := readExpressionStatement_makes h₅
      refine readForRest_makes ih (some start) hids (by simpa using hproper) ?_
      simpa only [reads_bind] using h
  case h_3 =>
    simp only [reads_bind] at h
    obtain ⟨_, c₂, h₂, _, c₃, h₃, condition, c₄, h₄, _, c₅, h₅, yes, c₆, h₆, other, c₇, h₇, h⟩ := h
    rw [← still_advance h₂, ← still_expect h₃]
    have hcondition := expression_numbers h₄
    obtain ⟨hyes, hyesBranch⟩ := ih.statement h₆
    rw [still_expect h₅] at hyes
    have hc₇ := still_accept? h₇
    cases other with
    | none =>
      simp only [reads_bind, reads_pure] at h
      obtain ⟨_, _, ⟨rfl, rfl⟩, rfl, rfl⟩ := h
      rw [hc₇]
      exact ⟨hcondition.append hyes, rfl, hyesBranch⟩
    | some other =>
      simp only [reads_bind, reads_map, reads_pure] at h
      obtain ⟨_, c₈, ⟨no, h₈, rfl⟩, rfl, rfl⟩ := h
      obtain ⟨hno, hnoBranch⟩ := ih.statement h₈
      rw [hc₇] at hno
      exact ⟨(hcondition.append hyes).append hno, rfl, hyesBranch.1, hyesBranch.2, hnoBranch⟩
  case h_4 =>
    simp only [reads_bind, reads_pure] at h
    obtain ⟨_, c₂, h₂, _, c₃, h₃, condition, c₄, h₄, _, c₅, h₅, body, c₆, h₆, rfl, rfl⟩ := h
    rw [← still_advance h₂, ← still_expect h₃]
    obtain ⟨hbody, hbranch⟩ := ih.statement h₆
    rw [still_expect h₅] at hbody
    exact ⟨(expression_numbers h₄).append hbody, rfl, hbranch⟩
  case h_5 =>
    simp only [reads_bind, reads_pure] at h
    obtain ⟨_, c₂, h₂, value, c₃, h₃, _, c₄, h₄, rfl, rfl⟩ := h
    rw [← still_advance h₂, still_expect h₄]
    exact ⟨readUnless_numbers h₃, rfl, trivial⟩
  case h_6 =>
    simp only [reads_bind, reads_pure] at h
    obtain ⟨_, c₂, h₂, body, c₃, h₃, rfl, rfl⟩ := h
    rw [← still_advance h₂]
    obtain ⟨hids, hproper⟩ := ih.block h₃
    exact ⟨hids, rfl, hproper⟩
  case h_7 =>
    simp only [reads_bind, reads_pure] at h
    obtain ⟨_, c₂, h₂, e, c₃, h₃, _, c₄, h₄, rfl, rfl⟩ := h
    rw [← still_advance h₂, still_expect h₄]
    exact ⟨expression_numbers h₃, rfl, trivial⟩
  case h_8 => exact readExpressionStatement_makes h

theorem stmtReaders (depth : Nat) : StmtReaders depth := by
  induction depth with
  | zero =>
    refine ⟨?_, ?_, ?_, ?_, ?_, ?_⟩
    · exact fun _ _ _ h => (reads_fail.1 (reads_recovering.1 h)).elim
    · exact fun _ _ _ h => (reads_fail.1 h).elim
    · exact fun _ _ _ h => (reads_fail.1 h).elim
    · exact fun _ _ _ _ h => (reads_fail.1 h).elim
    · exact fun _ _ _ h => (reads_fail.1 h).elim
    · exact fun _ _ _ h => (reads_fail.1 h).elim
  | succ depth ih =>
    exact ⟨readDeclaration_makes ih, readClass_makes ih, readMembers_makes ih,
      readRoutine_makes ih, readBlock_makes ih, readStatement_makes ih⟩

theorem declaration_makes : Makes Stmt.ids Stmt.Proper declaration := by
  intro c s c' h
  simp only [declarationWith, reads_bind, reads_get] at h
  obtain ⟨_, _, ⟨rfl, rfl⟩, h⟩ := h
  exact (stmtReaders _).declaration h

-- ---------------------------------------------------------------------------
-- Whole sources
-- ---------------------------------------------------------------------------

theorem readProgram_makes {c c' : Cursor} (h : readProgram fuel c = (.ok body, c')) :
    Fresh (Stmt.idsOfAll body) c.nextId c'.nextId ∧ Stmt.AllProper body := by
  induction fuel generalizing c body with
  | zero => cases h
  | succ fuel ih =>
    unfold readProgram at h
    split at h
    · cases h
      exact ⟨.nil (Nat.le_refl _), trivial⟩
    · split at h
      · next first c₁ hfirst =>
        obtain ⟨hids, hproper⟩ := declaration_makes hfirst
        split at h
        · next rest c₂ hrest =>
          cases h
          obtain ⟨hidsRest, hproperRest⟩ := ih hrest
          exact ⟨hids.append hidsRest, hproper, hproperRest⟩
        · cases h
      · cases h

end Parser

/-- The identities in a source, whatever it was read as. -/
def Line.ids : Line → List NodeId
  | .statements body => Stmt.idsOfAll body
  | .expression e => e.ids

def Line.Proper : Line → Prop
  | .statements body => Stmt.AllProper body
  | .expression _ => True

namespace Parser

theorem readLine_makes (fuel : Nat) : Makes Line.ids Line.Proper (readLine fuel) := by
  induction fuel with
  | zero => exact fun _ _ _ h => (reads_fail.1 h).elim
  | succ fuel ih =>
    intro c line c' h
    simp only [readLine, reads_bind] at h
    obtain ⟨ended, c₁, h₁, h⟩ := h
    rw [← still_atEnd h₁]
    split at h
    · obtain ⟨rfl, rfl⟩ := reads_pure.1 h
      exact ⟨.nil (Nat.le_refl _), trivial⟩
    · simp only [reads_bind, reads_get] at h
      obtain ⟨first, c₂, h₂, _, _, ⟨rfl, rfl⟩, h⟩ := h
      obtain ⟨hids, hproper⟩ := declaration_makes h₂
      split at h
      · obtain ⟨rfl, rfl⟩ := reads_pure.1 h
        exact ⟨hids, trivial⟩
      · obtain ⟨rest, c₃, h₃, h⟩ := reads_bind.1 h
        obtain ⟨hidsRest, hproperRest⟩ := ih h₃
        -- The statements before a last expression are not part of what the line is read as.
        cases rest with
        | statements body =>
          obtain ⟨rfl, rfl⟩ := reads_pure.1 h
          exact ⟨hids.append hidsRest, hproper, hproperRest⟩
        | expression e =>
          obtain ⟨rfl, rfl⟩ := reads_pure.1 h
          exact ⟨hidsRest.earlier hids.le, trivial⟩

theorem program_makes {tokens : List Token} {start next : NodeId}
    (h : program tokens start = (.ok body, next)) :
    Fresh (Stmt.idsOfAll body) start next ∧ Stmt.AllProper body := by
  simp only [program] at h
  rcases hr : readProgram ((Cursor.ofTokens tokens false start).rest.length + 1)
    (Cursor.ofTokens tokens false start) with ⟨result, c⟩
  rw [hr] at h
  cases h
  exact readProgram_makes hr

theorem line_makes {tokens : List Token} {start next : NodeId} {l : Line}
    (h : line tokens start = (.ok l, next)) : Fresh l.ids start next ∧ l.Proper := by
  simp only [line] at h
  rcases hr : (readLine ((Cursor.ofTokens tokens true start).rest.length + 1)).run.run
    (Cursor.ofTokens tokens true start) with ⟨result, c⟩
  rw [hr] at h
  cases h
  exact readLine_makes _ hr

theorem loneExpression_makes {tokens : List Token} {start next : NodeId}
    (h : loneExpression tokens start = (.ok e, next)) : Fresh e.ids start next := by
  simp only [loneExpression] at h
  rcases hr : (do
      let e ← expression
      if ← atEnd then return e else fail .trailing : Reader Expr).run.run
    (Cursor.ofTokens tokens false start) with ⟨result, c⟩
  rw [hr] at h
  cases h
  obtain ⟨e', c₁, h₁, h⟩ := reads_bind.1 hr
  obtain ⟨ended, c₂, h₂, h⟩ := reads_bind.1 h
  split at h
  · obtain ⟨rfl, rfl⟩ := reads_pure.1 h
    rw [still_atEnd h₂]
    exact expression_numbers h₁
  · exact (reads_fail.1 h).elim

end Parser

end Treewalk
