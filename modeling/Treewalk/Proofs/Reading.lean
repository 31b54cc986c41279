import Treewalk.Proofs.Words
import Treewalk.Proofs.Grammar

/-!
# What is read is of the grammar

A reader that succeeds has gone over some tokens and leaves the others as they were. `Covers` says
how the result and those tokens belong together, and composes as readers do. For the readers of
expressions they belong together as the grammar says: the tree is one of its level, and each token
has its mark in the tree.
-/

namespace Treewalk.Parser

-- ---------------------------------------------------------------------------
-- The tokens that a reader goes over
-- ---------------------------------------------------------------------------

/-- From `c` the cursor can have gone over the tokens, to `c'`. -/
structure Cursor.Over (c : Cursor) (tokens : List Token) (c' : Cursor) : Prop where
  rest : c.rest = tokens ++ c'.rest
  stop : c'.stop = c.stop
  lenient : c'.lenient = c.lenient
  bare : c'.bare = c.bare

namespace Cursor.Over

theorem refl (c : Cursor) : c.Over [] c :=
  ⟨rfl, rfl, rfl, rfl⟩

theorem trans {c c' c'' : Cursor} (h : c.Over us c') (h' : c'.Over vs c'') :
    c.Over (us ++ vs) c'' where
  rest := by rw [h.rest, h'.rest, List.append_assoc]
  stop := h'.stop.trans h.stop
  lenient := h'.lenient.trans h.lenient
  bare := h'.bare.trans h.bare

theorem one {c : Cursor} (h : c.rest = t :: left) : c.Over [t] { c with rest := left } :=
  ⟨h, rfl, rfl, rfl⟩

end Cursor.Over

/-- If the reader succeeds before the token `t`, it goes over tokens that `Good` relates to its
result. -/
def CoversFrom (t : Token) (Good : α → List Token → Prop) (r : Reader α) : Prop :=
  ∀ ⦃c a c'⦄, c.stop.kind = .endOfInput → c.peek = t → Reads r c a c' →
    ∃ tokens, c.Over tokens c' ∧ Good a tokens

/-- If the reader succeeds, it goes over tokens that `Good` relates to its result. -/
def Covers (Good : α → List Token → Prop) (r : Reader α) : Prop :=
  ∀ ⦃c a c'⦄, c.stop.kind = .endOfInput → Reads r c a c' →
    ∃ tokens, c.Over tokens c' ∧ Good a tokens

namespace Covers

variable {α β : Type} {Good : α → List Token → Prop} {Good' : β → List Token → Prop}

theorem pure (h : Good a []) : Covers Good (Pure.pure a : Reader α) := by
  intro c b c' _ hr
  obtain ⟨rfl, rfl⟩ := reads_pure.1 hr
  exact ⟨[], .refl c', h⟩

theorem fail : Covers Good (Parser.fail fault : Reader α) :=
  fun _ _ _ _ hr => (reads_fail.1 hr).elim

theorem throw : Covers Good (MonadExcept.throw e : Reader α) :=
  fun _ _ _ _ hr => (reads_throw.1 hr).elim

theorem bind {m : Reader α} {f : α → Reader β} (hm : Covers Good m)
    (hf : ∀ a us, Good a us → Covers (fun b vs => Good' b (us ++ vs)) (f a)) :
    Covers Good' (m >>= f) := by
  intro c b c' hc hr
  obtain ⟨a, c₁, h₁, h₂⟩ := reads_bind.1 hr
  obtain ⟨us, hover, ha⟩ := hm hc h₁
  obtain ⟨vs, hover', hb⟩ := hf a us ha (hover.stop ▸ hc) h₂
  exact ⟨us ++ vs, hover.trans hover', hb⟩

theorem map {m : Reader α} {g : α → β} (hm : Covers Good m)
    (hg : ∀ a us, Good a us → Good' (g a) us) : Covers Good' (g <$> m) := by
  rw [map_eq_pure_bind]
  refine hm.bind fun a us ha => pure ?_
  rw [List.append_nil]
  exact hg a us ha

theorem weaken {Fair : α → List Token → Prop} {r : Reader α} (h : Covers Good r)
    (hgood : ∀ a us, Good a us → Fair a us) : Covers Fair r := by
  intro c a c' hc hr
  obtain ⟨us, hover, ha⟩ := h hc hr
  exact ⟨us, hover, hgood a us ha⟩

theorem from_token {r : Reader α} (h : Covers Good r) (t : Token) : CoversFrom t Good r :=
  fun _ _ _ hc _ hr => h hc hr

theorem check : Covers (fun _ us => us = []) (Parser.check kind) := by
  intro c a c' _ hr
  obtain ⟨_, _, h₁, h₂⟩ := reads_bind.1 hr
  obtain ⟨rfl, rfl⟩ := reads_get.1 h₁
  obtain ⟨-, rfl⟩ := reads_pure.1 h₂
  exact ⟨[], .refl _, rfl⟩

theorem freshId : Covers (fun _ us => us = []) Parser.freshId := by
  intro c new c' _ hr
  obtain ⟨-, rfl⟩ := reads_freshId.1 hr
  exact ⟨[], ⟨rfl, rfl, rfl, rfl⟩, rfl⟩

theorem acceptIf :
    Covers (fun found us => us = found.toList ∧ ∀ t ∈ found, p t.kind = true)
      (Parser.acceptIf p) := by
  intro c found c' _ hr
  obtain ⟨rfl, rfl⟩ | ⟨t, rest, hrest, hp, rfl, rfl⟩ := reads_acceptIf hr
  · exact ⟨[], .refl _, rfl, by simp⟩
  · exact ⟨[t], .one hrest, rfl, by simpa using hp⟩

theorem accept? :
    Covers (fun found us => us = found.toList ∧ ∀ t ∈ found, t.kind = kind)
      (Parser.accept? kind) := by
  intro c found c' hc hr
  obtain ⟨us, hover, hus, hfound⟩ := acceptIf hc hr
  exact ⟨us, hover, hus, fun t ht => of_decide_eq_true (hfound t ht)⟩

theorem expect : Covers (fun t us => us = [t] ∧ t.kind = kind) (Parser.expect kind fault) := by
  intro c t c' _ hr
  obtain ⟨rest, hrest, hkind, rfl⟩ := reads_expect hr
  exact ⟨[t], .one hrest, rfl, hkind⟩

theorem peek_bind {f : Token → Reader β} (hf : ∀ t, CoversFrom t Good' (f t)) :
    Covers Good' (Parser.peek >>= f) := by
  intro c b c' hc hr
  obtain ⟨t, c₁, h₁, h₂⟩ := reads_bind.1 hr
  obtain ⟨rfl, rfl⟩ := reads_peek.1 h₁
  exact hf _ hc rfl h₂

end Covers

/-- Only the closing token is not gone over. -/
theorem CoversFrom.advance_bind {f : Unit → Reader β} (ht : t.kind ≠ .endOfInput)
    (hf : Covers (fun b us => Good b (t :: us)) (f ())) :
    CoversFrom t Good (advance >>= f) := by
  intro c b c' hc hpeek hr
  obtain ⟨⟨⟩, c₁, h₁, h₂⟩ := reads_bind.1 hr
  obtain rfl : { c with rest := c.rest.tail } = c₁ := congrArg Prod.snd h₁
  cases hrest : c.rest with
  | nil =>
    rw [Cursor.peek, hrest] at hpeek
    exact absurd (hpeek ▸ hc) ht
  | cons first left =>
    rw [Cursor.peek, hrest] at hpeek
    obtain rfl : first = t := hpeek
    have hover : c.Over [first] { c with rest := c.rest.tail } := ⟨by simp [hrest], rfl, rfl, rfl⟩
    obtain ⟨us, hover', hgood⟩ := hf (hover.stop ▸ hc) h₂
    exact ⟨first :: us, hover.trans hover', hgood⟩

-- ---------------------------------------------------------------------------
-- Expressions
-- ---------------------------------------------------------------------------

theorem above_tighter (h : level ≠ .primary) : Above level level.tighter := by
  cases level <;> first | contradiction | constructor

theorem unary_iff : Unary kind ↔ isUnaryOperator kind = true := by
  constructor
  · rintro (_ | _) <;> rfl
  · intro h
    unfold isUnaryOperator at h
    split at h
    · exact .bang
    · exact .minus
    · cases h

theorem isOperator_iff : level.isOperator kind = true ↔ Logical level kind ∨ Binary level kind := by
  constructor
  · intro h
    unfold Level.isOperator at h
    split at h <;> first | exact .inl (by constructor) | exact .inr (by constructor) | cases h
  · rintro (h | h) <;> cases h <;> rfl

theorem join_logical (h : Logical level kind) : level.join = .logical := by
  cases h <;> rfl

theorem join_binary (h : Binary level kind) : level.join = .binary := by
  cases h <;> rfl

theorem phrase_join (hleft : Phrase level left us) (hop : level.isOperator op.kind = true)
    (hright : Phrase level.tighter right vs) :
    Phrase level (level.join op left right) (us ++ op :: vs) := by
  have habove : Above level level.tighter := above_tighter (by rintro rfl; cases hop)
  obtain hlogical | hbinary := isOperator_iff.1 hop
  · rw [join_logical hlogical]
    exact ⟨.logical hlogical habove hleft.derives hright.derives,
      hleft.written.append (.cons rfl hright.written)⟩
  · rw [join_binary hbinary]
    exact ⟨.binary hbinary habove hleft.derives hright.derives,
      hleft.written.append (.cons rfl hright.written)⟩

/-- What the expression readers with one allowance go over. -/
structure ExprCovers (depth : Nat) : Prop where
  level : ∀ level, Covers (Phrase level) (readLevel depth level)
  operands : ∀ level left us, Phrase level left us →
    Covers (fun e vs => Phrase level e (us ++ vs)) (readOperands depth level left)
  suffixes : ∀ head us, Phrase .call head us →
    Covers (fun e vs => Phrase .call e (us ++ vs)) (readSuffixes depth head)
  items : ∀ close, Covers (Items listLimit) (readItems depth close)
  itemsFrom : ∀ room,
    Covers (fun items us => items ≠ [] ∧ Items room items us) (readItemsFrom depth room)
  primary : Covers (Phrase .primary) (readPrimary depth)

theorem readAssignment_covers (ih : ExprCovers depth) :
    Covers (Phrase .assignment) (readLevel (depth + 1) .assignment) := by
  refine (ih.level _).bind fun target us htarget => Covers.accept?.bind fun equals vs hequals => ?_
  obtain ⟨rfl, hequal⟩ := hequals
  cases equals with
  | none => exact .pure (by simpa using htarget.tighter .assignment)
  | some equals =>
    refine (ih.level _).bind fun value ws hvalue => ?_
    have hkind : equals.kind = .equal := hequal equals rfl
    cases target with
    | var node name =>
      refine Covers.freshId.bind fun new _ hnone => .pure ?_
      obtain rfl := hnone
      simpa using htarget.assign hkind hvalue
    | get object name =>
      refine .pure ?_
      simpa using htarget.set hkind hvalue
    | _ => exact .throw

theorem readConditional_covers (ih : ExprCovers depth) :
    Covers (Phrase .conditional) (readLevel (depth + 1) .conditional) := by
  refine (ih.level _).bind fun condition us hcondition =>
    Covers.accept?.bind fun question vs hquestion => ?_
  obtain ⟨rfl, hquestion⟩ := hquestion
  cases question with
  | none => exact .pure (by simpa using hcondition.tighter .conditional)
  | some question =>
    refine (ih.level _).bind fun yes vs hyes => Covers.expect.bind fun colon _ hcolon => ?_
    refine (ih.level _).bind fun no ws hno => .pure ?_
    obtain ⟨rfl, hcolon⟩ := hcolon
    simpa using hcondition.conditional (hquestion question rfl) hyes hcolon hno

theorem readUnary_covers (ih : ExprCovers depth) :
    Covers (Phrase .unary) (readLevel (depth + 1) .unary) := by
  refine Covers.acceptIf.bind fun op us hop => ?_
  obtain ⟨rfl, hop⟩ := hop
  cases op with
  | none => exact (ih.level .call).weaken fun e us he => he.tighter .unary
  | some op => exact (ih.level _).map fun right vs hright => hright.unary (unary_iff.2 (hop op rfl))

theorem readLevel_covers (ih : ExprCovers depth) (level : Level) :
    Covers (Phrase level) (readLevel (depth + 1) level) := by
  cases level with
  | assignment => exact readAssignment_covers ih
  | conditional => exact readConditional_covers ih
  | unary => exact readUnary_covers ih
  | call => exact (ih.level _).bind fun head us hhead => ih.suffixes head us (hhead.tighter .call)
  | primary => exact ih.primary
  | _ =>
    refine (ih.level _).bind fun left us hleft => ih.operands _ left us ?_
    exact hleft.tighter (above_tighter (by decide))

theorem readOperands_covers (ih : ExprCovers depth) (hleft : Phrase level left us) :
    Covers (fun e vs => Phrase level e (us ++ vs)) (readOperands (depth + 1) level left) := by
  refine Covers.acceptIf.bind fun op vs hop => ?_
  obtain ⟨rfl, hop⟩ := hop
  cases op with
  | none => exact .pure (by simpa using hleft)
  | some op =>
    refine (ih.level _).bind fun right ws hright => ?_
    have hjoin := phrase_join hleft (hop op rfl) hright
    exact (ih.operands _ _ _ hjoin).weaken fun e vs he => by simpa using he

theorem readSuffixes_covers (ih : ExprCovers depth) (hhead : Phrase .call head us) :
    Covers (fun e vs => Phrase .call e (us ++ vs)) (readSuffixes (depth + 1) head) := by
  refine Covers.peek_bind fun t => ?_
  split
  · next hopen =>
    refine .advance_bind (by simp [hopen]) <| (ih.items _).bind fun arguments vs harguments =>
      Covers.expect.bind fun paren ws hparen => ?_
    obtain ⟨rfl, hparen⟩ := hparen
    have hcall := hhead.call hopen harguments hparen
    exact (ih.suffixes _ _ hcall).weaken fun e vs he => by simpa using he
  · next hdot =>
    refine .advance_bind (by simp [hdot]) <| Covers.expect.bind fun name vs hname => ?_
    obtain ⟨rfl, hname⟩ := hname
    exact (ih.suffixes _ _ (hhead.get hdot hname)).weaken fun e vs he => by simpa using he
  · next hopen =>
    refine .advance_bind (by simp [hopen]) <| (ih.level _).bind fun position vs hposition =>
      Covers.expect.bind fun bracket ws hbracket => ?_
    obtain ⟨rfl, hbracket⟩ := hbracket
    have hindex := hhead.index hopen hposition hbracket
    exact (ih.suffixes _ _ hindex).weaken fun e vs he => by simpa using he
  · exact Covers.from_token (.pure (by simpa using hhead)) t

theorem readItems_covers (ih : ExprCovers depth) (close : Kind) :
    Covers (Items listLimit) (readItems (depth + 1) close) := by
  refine Covers.check.bind fun closed us hus => ?_
  obtain rfl := hus
  split
  · exact .pure (.none _)
  · exact (ih.itemsFrom _).weaken fun items us hitems => hitems.2

theorem readItemsFrom_covers (ih : ExprCovers depth) (room : Nat) :
    Covers (fun items us => items ≠ [] ∧ Items room items us) (readItemsFrom (depth + 1) room) := by
  cases room with
  | zero => exact .fail
  | succ room =>
    refine (ih.level _).bind fun item us hitem => Covers.accept?.bind fun comma vs hcomma => ?_
    obtain ⟨rfl, hcomma⟩ := hcomma
    cases comma with
    | none =>
      refine .pure ⟨by simp, ?_⟩
      simpa using Items.one hitem
    | some comma =>
      refine (ih.itemsFrom _).map fun rest ws hrest => ⟨by simp, ?_⟩
      exact .cons hitem (hcomma comma rfl) hrest.2 hrest.1

theorem readPrimary_covers (ih : ExprCovers depth) :
    Covers (Phrase .primary) (readPrimary (depth + 1)) := by
  refine Covers.peek_bind fun t => ?_
  split
  case h_8 hopen =>
    refine .advance_bind (by simp [hopen]) <| (ih.level _).bind fun e us he =>
      Covers.expect.bind fun closing vs hclosing => .pure ?_
    obtain ⟨rfl, hclosing⟩ := hclosing
    simpa using Phrase.group hopen he hclosing
  case h_9 hopen =>
    refine .advance_bind (by simp [hopen]) <| (ih.items _).bind fun elements us helements =>
      Covers.expect.bind fun closing vs hclosing => .pure ?_
    obtain ⟨rfl, hclosing⟩ := hclosing
    simpa using Phrase.array hopen helements hclosing
  case h_6 hthis =>
    refine .advance_bind (by simp [hthis]) <| Covers.freshId.bind fun new us hus => .pure ?_
    obtain rfl := hus
    exact .this new hthis
  case h_7 hname =>
    refine .advance_bind (by simp [hname]) <| Covers.freshId.bind fun new us hus => .pure ?_
    obtain rfl := hus
    exact .var new hname
  case h_10 =>
    split
    · intro c e c' _ _ hr
      obtain ⟨_, _, _, hr⟩ := reads_bind.1 hr
      exact (reads_throw.1 hr).elim
    · exact Covers.from_token .fail t
  all_goals
    rename_i hkind
    exact .advance_bind (by simp [hkind]) (.pure (.literal hkind))

theorem exprCovers (depth : Nat) : ExprCovers depth := by
  induction depth with
  | zero =>
    exact ⟨fun _ => .fail, fun _ _ _ _ => .fail, fun _ _ _ => .fail, fun _ => .fail,
      fun _ => .fail, .fail⟩
  | succ depth ih =>
    exact ⟨readLevel_covers ih, fun _ _ _ => readOperands_covers ih,
      fun _ _ => readSuffixes_covers ih, readItems_covers ih, readItemsFrom_covers ih,
      readPrimary_covers ih⟩

theorem expression_covers : Covers (Phrase .assignment) expression := by
  intro c e c' hc hr
  obtain ⟨_, _, h₁, h₂⟩ := reads_bind.1 hr
  obtain ⟨rfl, rfl⟩ := reads_get.1 h₁
  exact (exprCovers _).level .assignment hc h₂

end Treewalk.Parser
