import Treewalk.Proofs.Reading

/-!
# What is of the grammar is read

A phrase is read to its end and no further, whatever tokens come behind it, as long as the next one
cannot go on with it. The allowance suffices when it grows with the number of tokens: a level takes
one from it, and between two tokens of a phrase lie fewer levels than a token pays for.
-/

namespace Treewalk

namespace Parser

-- ---------------------------------------------------------------------------
-- Readers that must succeed
-- ---------------------------------------------------------------------------

/-- Before the tokens, with the others behind them, the reader goes over the tokens and gives a
good result. -/
def Finds (Good : α → Prop) (r : Reader α) (tokens after : List Token) : Prop :=
  ∀ c : Cursor, c.rest = tokens ++ after → c.stop.kind = .endOfInput →
    ∃ a c', Reads r c a c' ∧ c.Over tokens c' ∧ Good a

namespace Finds

variable {α β : Type} {Good : α → Prop} {Good' : β → Prop}

theorem pure (h : Good a) : Finds Good (Pure.pure a : Reader α) [] after :=
  fun c _ _ => ⟨a, c, reads_pure.2 ⟨rfl, rfl⟩, .refl c, h⟩

theorem bind {m : Reader α} {f : α → Reader β} (hm : Finds Good m us (vs ++ after))
    (hf : ∀ a, Good a → Finds Good' (f a) vs after) : Finds Good' (m >>= f) (us ++ vs) after := by
  intro c hrest hc
  rw [List.append_assoc] at hrest
  obtain ⟨a, c₁, h₁, hover, ha⟩ := hm c hrest hc
  have hrest' : c₁.rest = vs ++ after := List.append_cancel_left (hover.rest.symm.trans hrest)
  obtain ⟨b, c₂, h₂, hover', hb⟩ := hf a ha c₁ hrest' (hover.stop ▸ hc)
  exact ⟨b, c₂, reads_bind.2 ⟨a, c₁, h₁, h₂⟩, hover.trans hover', hb⟩

/-- What is done behind the last token goes over none. -/
theorem bind_last {m : Reader α} {f : α → Reader β} (hm : Finds Good m us after)
    (hf : ∀ a, Good a → Finds Good' (f a) [] after) : Finds Good' (m >>= f) us after := by
  have h : Finds Good' (m >>= f) (us ++ []) after := hm.bind hf
  rwa [List.append_nil] at h

theorem map {m : Reader α} {g : α → β} (hm : Finds Good m us after)
    (hg : ∀ a, Good a → Good' (g a)) : Finds Good' (g <$> m) us after := by
  rw [map_eq_pure_bind]
  exact hm.bind_last fun a ha => pure (hg a ha)

/-- A reader that is sure of its result, followed by another. -/
theorem bind_eq {m : Reader α} {f : α → Reader β} (hm : Finds (· = a) m us (vs ++ after))
    (hf : Finds Good' (f a) vs after) : Finds Good' (m >>= f) (us ++ vs) after :=
  hm.bind fun _ hb => hb ▸ hf

theorem accept (hp : p t.kind = true) : Finds (· = some t) (acceptIf p) [t] after := by
  intro c hrest _
  refine ⟨some t, { c with rest := after }, ?_, .one hrest, rfl⟩
  refine reads_bind.2 ⟨c, c, reads_get.2 ⟨rfl, rfl⟩, ?_⟩
  simp only [hrest, List.cons_append, List.nil_append, hp, if_true]
  refine reads_bind.2 ⟨(), { c with rest := c.rest.tail }, rfl, reads_pure.2 ⟨rfl, ?_⟩⟩
  simp [hrest]

theorem decline (hp : ∀ t ∈ after.head?, p t.kind = false) :
    Finds (· = none) (acceptIf p) [] after := by
  intro c hrest _
  refine ⟨none, c, reads_bind.2 ⟨c, c, reads_get.2 ⟨rfl, rfl⟩, ?_⟩, .refl c, rfl⟩
  rw [List.nil_append] at hrest
  split
  · next t left hleft =>
    have ht : p t.kind = false := hp t (by rw [← hrest, hleft]; rfl)
    simp only [ht, Bool.false_eq_true, if_false]
    exact reads_pure.2 ⟨rfl, rfl⟩
  · exact reads_pure.2 ⟨rfl, rfl⟩

theorem accept? (ht : t.kind = kind) : Finds (· = some t) (Parser.accept? kind) [t] after :=
  accept (decide_eq_true ht)

theorem expect (ht : t.kind = kind) : Finds (· = t) (Parser.expect kind fault) [t] after :=
  bind_eq (accept? ht) (pure rfl)

theorem advance : Finds (· = ()) Parser.advance [t] after := by
  intro c hrest _
  exact ⟨(), { c with rest := c.rest.tail }, rfl, ⟨by simp [hrest], rfl, rfl, rfl⟩, rfl⟩

theorem check : Finds (· = after.head?.any (·.kind = kind)) (Parser.check kind) [] after := by
  intro c hrest _
  refine ⟨_, c, reads_bind.2 ⟨c, c, reads_get.2 ⟨rfl, rfl⟩, reads_pure.2 ⟨rfl, rfl⟩⟩, .refl c, ?_⟩
  rw [hrest, List.nil_append]

theorem freshId : Finds (fun _ => True) Parser.freshId [] after :=
  fun _ _ _ => ⟨_, _, rfl, ⟨rfl, rfl, rfl, rfl⟩, trivial⟩

theorem peek_bind {f : Token → Reader β} (hf : Finds Good' (f t) (t :: vs) after) :
    Finds Good' (peek >>= f) (t :: vs) after := by
  intro c hrest hc
  have hpeek : c.peek = t := by rw [Cursor.peek, hrest]; rfl
  obtain ⟨b, c', hr, hover, hb⟩ := hf c hrest hc
  exact ⟨b, c', reads_bind.2 ⟨t, c, reads_peek.2 ⟨hpeek.symm, rfl⟩, hr⟩, hover, hb⟩

/-- Behind the last token of all stands the closing one. -/
theorem peek_after_bind {f : Token → Reader β}
    (hf : ∀ t, after.head? = some t ∨ t.kind = .endOfInput → Finds Good' (f t) [] after) :
    Finds Good' (peek >>= f) [] after := by
  intro c hrest hc
  have hpeek : after.head? = some c.peek ∨ c.peek.kind = .endOfInput := by
    rw [Cursor.peek, hrest, List.nil_append]
    cases after with
    | nil => exact .inr hc
    | cons t left => exact .inl rfl
  obtain ⟨b, c', hr, hover, hb⟩ := hf c.peek hpeek c hrest hc
  exact ⟨b, c', reads_bind.2 ⟨c.peek, c, reads_peek.2 ⟨rfl, rfl⟩, hr⟩, hover, hb⟩

end Finds

-- ---------------------------------------------------------------------------
-- What can come behind a phrase
-- ---------------------------------------------------------------------------

/-- The number of levels that bind looser. -/
def Level.rank : Level → Nat
  | assignment => 0
  | disjunction => 1
  | conjunction => 2
  | sequence => 3
  | conditional => 4
  | equality => 5
  | comparison => 6
  | term => 7
  | factor => 8
  | unary => 9
  | call => 10
  | primary => 11

theorem Level.rank_le (level : Level) : level.rank ≤ 11 := by
  cases level <;> decide

theorem above_eq_tighter (h : Above level next) : next = level.tighter := by
  cases h <;> rfl

theorem rank_above (h : Above level next) : next.rank = level.rank + 1 := by
  cases h <;> rfl

/-- The level of the phrases that the token goes on with, if it stands behind one. -/
def extends? : Kind → Option Level
  | .equal => some .assignment
  | .kwOr => some .disjunction
  | .kwAnd => some .conjunction
  | .comma => some .sequence
  | .question => some .conditional
  | .bangEqual | .equalEqual => some .equality
  | .greater | .greaterEqual | .less | .lessEqual => some .comparison
  | .minus | .plus => some .term
  | .slash | .star | .percent | .bar | .caret => some .factor
  | .leftParen | .dot | .leftBracket => some .call
  | _ => none

theorem isOperator_ne_primary {level : Level} (h : level.isOperator kind = true) :
    level ≠ .primary := by
  rintro rfl
  cases h

theorem extends?_operator (h : level.isOperator kind = true) : extends? kind = some level := by
  obtain h | h := isOperator_iff.1 h <;> cases h <;> rfl

/-- A phrase of the level ends before the tokens: the next one goes on with looser phrases only. -/
def Ends (level : Level) (after : List Token) : Prop :=
  ∀ t ∈ after.head?, ∀ other ∈ extends? t.kind, other.rank < level.rank

namespace Ends

theorem nil (level : Level) : Ends level [] := by
  simp [Ends]

theorem before (h : extends? t.kind = none) (level : Level) : Ends level (t :: rest) := by
  simp [Ends, h]

theorem before_looser (h : extends? t.kind = some other) (hlt : other.rank < level.rank) :
    Ends level (t :: rest) := by
  simpa [Ends, h] using hlt

theorem of_none (h : ∀ t ∈ after.head?, extends? t.kind = none) (level : Level) :
    Ends level after := by
  intro t ht other hother
  rw [h t ht] at hother
  cases hother

theorem above (h : Ends level after) (habove : Above level next) : Ends next after := by
  intro t ht other hother
  have hlt := h t ht other hother
  have hrank := rank_above habove
  omega

theorem extends?_ne (h : Ends level after) (ht : t ∈ after.head?) : extends? t.kind ≠ some level :=
  fun hextends => Nat.lt_irrefl _ (h t ht level hextends)

theorem not_kind (h : Ends level after) (hkind : extends? kind = some level) :
    ∀ t ∈ after.head?, decide (t.kind = kind) = false := by
  intro t ht
  refine decide_eq_false fun heq => ?_
  exact h.extends?_ne ht (heq ▸ hkind)

theorem not_operator (h : Ends level after) :
    ∀ t ∈ after.head?, level.isOperator t.kind = false := by
  intro t ht
  by_contra hop
  exact h.extends?_ne ht (extends?_operator (by simpa using hop))

/-- No token goes on with a primary phrase as such. -/
theorem primary : Ends .primary after := by
  intro t _ other hother
  unfold extends? at hother
  split at hother <;> cases hother <;> decide

end Ends

-- ---------------------------------------------------------------------------
-- What a phrase begins with
-- ---------------------------------------------------------------------------

/-- What can be told of the first token of a phrase of the level. -/
structure Opens (level : Level) (t : Token) : Prop where
  paren : t.kind ≠ .rightParen
  bracket : t.kind ≠ .rightBracket
  operand : Level.call.rank ≤ level.rank → isUnaryOperator t.kind = false

namespace Opens

theorem above (habove : Above level next) (h : Opens next t) : Opens level t where
  paren := h.paren
  bracket := h.bracket
  operand hlevel := h.operand (by rw [rank_above habove]; omega)

theorem loosened (hlevel : level.rank < Level.call.rank) (h : Opens next t) : Opens level t :=
  ⟨h.paren, h.bracket, fun htight => by omega⟩

theorem of_kind (h : t.kind = kind) (hparen : kind ≠ .rightParen)
    (hbracket : kind ≠ .rightBracket) (hunary : isUnaryOperator kind = false) : Opens level t :=
  ⟨h ▸ hparen, h ▸ hbracket, fun _ => h ▸ hunary⟩

theorem of_unary (h : Unary t.kind) : Opens .unary t where
  paren hkind := by rw [hkind] at h; cases h
  bracket hkind := by rw [hkind] at h; cases h
  operand hlevel := absurd hlevel (by decide)

theorem literal (value : Literal) (h : t.kind = value.kind) : Opens .primary t := by
  rcases value with _ | _ | ⟨_ | _⟩ | _ <;>
    exact of_kind h (by simp [Literal.kind]) (by simp [Literal.kind]) rfl

end Opens

def Begins (level : Level) (tokens : List Token) : Prop :=
  ∃ t rest, tokens = t :: rest ∧ Opens level t

namespace Begins

theorem with_kind (hw : Written (.kind kind :: ms) us) (h : ∀ t, t.kind = kind → Opens level t) :
    Begins level us := by
  obtain ⟨t, rest, rfl, ht, -⟩ := Written.kind_iff.1 hw
  exact ⟨t, rest, rfl, h t ht⟩

theorem with_token (hw : Written (.token t :: ms) us) (h : Opens level t) : Begins level us := by
  obtain ⟨rest, rfl, -⟩ := Written.token_iff.1 hw
  exact ⟨t, rest, rfl, h⟩

theorem with_left (hw : Written (as ++ bs) us) (h : ∀ {vs}, Written as vs → Begins level vs) :
    Begins level us := by
  obtain ⟨vs, ws, rfl, hleft, -⟩ := Written.append_iff.1 hw
  obtain ⟨t, rest, rfl, ht⟩ := h hleft
  exact ⟨t, rest ++ ws, rfl, ht⟩

theorem imp (h : Begins level us) (himp : ∀ t, Opens level t → Opens other t) :
    Begins other us := by
  obtain ⟨t, rest, hus, ht⟩ := h
  exact ⟨t, rest, hus, himp t ht⟩

theorem length_pos (h : Begins level us) : 0 < us.length := by
  obtain ⟨t, rest, rfl, -⟩ := h
  exact Nat.succ_pos _

end Begins

/-- No phrase begins with a token that closes a list, and calls do not begin with an operator. -/
theorem derives_begins (h : Derives level e) (hw : Written e.marks us) : Begins level us := by
  induction h generalizing us with
  | tighter habove _ ih => exact (ih hw).imp fun _ => .above habove
  | assign hname _ _ => exact .with_token hw (.of_kind hname (by decide) (by decide) rfl)
  | set _ _ _ ih =>
    exact .with_left hw fun hobject => (ih hobject).imp fun _ => .loosened (by decide)
  | logical _ _ _ _ ih => exact .with_left hw ih
  | binary _ _ _ _ ih => exact .with_left hw ih
  | conditional _ _ _ ih =>
    exact .with_left hw fun hcondition => (ih hcondition).imp fun _ => .loosened (by decide)
  | unary hop _ _ => exact .with_token hw (.of_unary hop)
  | call _ _ _ _ ih => exact .with_left hw ih
  | get _ _ ih => exact .with_left hw ih
  | index _ _ _ ih => exact .with_left hw ih
  | literal => exact .with_kind hw fun t ht => .literal _ ht
  | this hkeyword => exact .with_token hw (.of_kind hkeyword (by decide) (by decide) rfl)
  | var hname => exact .with_token hw (.of_kind hname (by decide) (by decide) rfl)
  | group _ _ => exact .with_kind hw fun t ht => .of_kind ht (by decide) (by decide) rfl
  | array _ _ _ => exact .with_kind hw fun t ht => .of_kind ht (by decide) (by decide) rfl

theorem phrase_begins (h : Phrase level e us) : Begins level us :=
  derives_begins h.derives h.written

theorem items_begin (h : Items room items us) (hne : items ≠ []) : Begins .conditional us := by
  cases items with
  | nil => contradiction
  | cons item rest =>
    have hitem : Derives .conditional item := h.derives item (by simp)
    cases rest with
    | nil => exact derives_begins hitem h.written
    | cons next rest => exact .with_left h.written (derives_begins hitem)

-- ---------------------------------------------------------------------------
-- Phrases are read
-- ---------------------------------------------------------------------------

/-- The allowance suffices for the phrases that it can pay for, each token with sixteen. -/
def Complete (depth : Nat) : Prop :=
  ∀ ⦃level e us after⦄, Phrase level e us → Ends level after →
    16 * us.length ≤ depth + level.rank → Finds (Same e) (readLevel depth level) us after

theorem readItemsFrom_finds (ih : ∀ d < depth, Complete d) (hitems : Items room items us)
    (hne : items ≠ []) (hends : ∀ t ∈ after.head?, extends? t.kind = none)
    (hdepth : 16 * us.length ≤ depth) :
    Finds (SameAll items) (readItemsFrom depth room) us after := by
  induction items generalizing depth room us with
  | nil => contradiction
  | cons item rest ihrest =>
    obtain _ | room := room
    · exact absurd hitems.few (by simp)
    cases rest with
    | nil =>
      have hitem : Phrase .conditional item us := ⟨hitems.derives item (by simp), hitems.written⟩
      have hpos := (phrase_begins hitem).length_pos
      obtain _ | depth := depth
      · omega
      have hend : Ends .conditional after := .of_none hends _
      have hfinds := ih depth (by omega) hitem hend (by simp only [Level.rank]; omega)
      refine hfinds.bind_last fun found hfound => (Finds.decline ?_).bind_eq (.pure ?_)
      · exact (Ends.of_none hends .sequence).not_kind rfl
      · exact hfound.one
    | cons next rest =>
      obtain ⟨vs, ws, rfl, hitem, hrest⟩ := Written.append_iff.1 hitems.written
      obtain ⟨comma, ws, rfl, hcomma, hrest⟩ := Written.kind_iff.1 hrest
      have hitem : Phrase .conditional item vs := ⟨hitems.derives item (by simp), hitem⟩
      have hrest : Items room (next :: rest) ws :=
        ⟨fun e he => hitems.derives e (by simp [he]), hrest, by simpa using hitems.few⟩
      have hpos := (phrase_begins hitem).length_pos
      rw [List.length_append, List.length_cons] at hdepth
      obtain _ | depth := depth
      · omega
      -- Items are read above the level of the comma, so that it ends them.
      have hend : Ends .conditional (comma :: ws ++ after) :=
        .before_looser (by rw [hcomma]; rfl) (by decide)
      have hfinds := ih depth (by omega) hitem hend (by simp only [Level.rank]; omega)
      refine hfinds.bind fun found hfound => (Finds.accept? hcomma).bind_eq ?_
      refine (ihrest (fun d hd => ih d (by omega)) hrest (by simp) (by omega)).map ?_
      exact fun others hothers => hfound.cons hothers

theorem readItems_finds (ih : ∀ d < depth, Complete d) (hitems : Items listLimit items us)
    (hclosing : closing.kind = close) (hclose : close = .rightParen ∨ close = .rightBracket)
    (hdepth : 16 * us.length < depth) :
    Finds (SameAll items) (readItems depth close) us (closing :: after) := by
  obtain _ | depth := depth
  · omega
  refine Finds.check.bind_eq ?_
  cases items with
  | nil =>
    obtain rfl := Written.nil_iff.1 hitems.written
    simp only [List.nil_append, List.head?_cons, Option.any_some, hclosing, decide_true, if_true]
    exact .pure rfl
  | cons item rest =>
    obtain ⟨t, left, rfl, ht⟩ := items_begin hitems (by simp)
    have hne : t.kind ≠ close := by
      rintro rfl
      exact hclose.elim ht.paren ht.bracket
    simp only [List.cons_append, List.head?_cons, Option.any_some, hne, decide_false,
      Bool.false_eq_true, if_false]
    refine readItemsFrom_finds (fun d hd => ih d (by omega)) hitems (by simp) ?_ (by omega)
    rintro _ ⟨⟩
    obtain rfl | rfl := hclose <;> rw [hclosing] <;> rfl

theorem phrase_disjunction (h : Phrase .call e us) : Phrase .disjunction e us :=
  .tighter .disjunction <| .tighter .conjunction <| .tighter .sequence <| .tighter .conditional <|
    .tighter .equality <| .tighter .comparison <| .tighter .term <| .tighter .factor <|
    .tighter .unary h

theorem readAssignment_finds (ih : Complete depth) (h : Phrase .assignment e us)
    (hends : Ends .assignment after) (hdepth : 16 * us.length ≤ depth + 1) :
    Finds (Same e) (readLevel (depth + 1) .assignment) us after := by
  obtain ⟨hderives, hwritten⟩ := h
  cases hderives with
  | tighter habove hderives =>
    cases habove
    have hfinds := ih ⟨hderives, hwritten⟩ (hends.above .assignment) hdepth
    exact hfinds.bind_last fun target htarget =>
      (Finds.decline (hends.not_kind rfl)).bind_eq (.pure htarget)
  | assign hname hvalue =>
    obtain ⟨_, rfl, hrest⟩ := Written.token_iff.1 hwritten
    obtain ⟨equals, vs, rfl, hequals, hvalue'⟩ := Written.kind_iff.1 hrest
    simp only [List.length_cons] at hdepth
    have htarget := phrase_disjunction (.tighter .call (.var 0 hname))
    have hend : Ends .disjunction (equals :: vs ++ after) :=
      .before_looser (by rw [hequals]; rfl) (by decide)
    have hfinds := ih htarget hend (by simp [Level.rank]; omega)
    have hfinds' := ih ⟨hvalue, hvalue'⟩ hends (by simp [Level.rank]; omega)
    refine hfinds.bind fun target hsame => (Finds.accept? hequals).bind_eq ?_
    refine hfinds'.bind_last fun found hfound => ?_
    obtain ⟨node, rfl⟩ := hsame.var
    exact Finds.freshId.bind fun new _ => .pure hfound.assign
  | set hobject hname hvalue =>
    obtain ⟨us, _, rfl, hobject', hrest⟩ := Written.append_iff.1 hwritten
    obtain ⟨dot, _, rfl, hdot, hrest'⟩ := Written.kind_iff.1 hrest
    obtain ⟨_, rfl, hrest''⟩ := Written.token_iff.1 hrest'
    obtain ⟨equals, vs, rfl, hequals, hvalue'⟩ := Written.kind_iff.1 hrest''
    simp only [List.length_cons, List.length_append] at hdepth
    -- The property is read as one that is taken; only the `=` behind it tells otherwise.
    have htarget := phrase_disjunction (.get ⟨hobject, hobject'⟩ hdot hname)
    have hend : Ends .disjunction (equals :: vs ++ after) :=
      .before_looser (by rw [hequals]; rfl) (by decide)
    have hfinds := ih htarget hend (by simp [Level.rank]; omega)
    have hfinds' := ih ⟨hvalue, hvalue'⟩ hends (by simp [Level.rank]; omega)
    rw [List.append_cons, List.append_cons, List.append_assoc us]
    refine hfinds.bind fun target hsame => (Finds.accept? hequals).bind_eq ?_
    refine hfinds'.bind_last fun found hfound => ?_
    obtain ⟨object', rfl, hobject'⟩ := hsame.get
    exact .pure (hobject'.set hfound)
  | logical hop => cases hop
  | binary hop => cases hop

theorem readConditional_finds (ih : Complete depth) (h : Phrase .conditional e us)
    (hends : Ends .conditional after) (hdepth : 16 * us.length ≤ depth + 5) :
    Finds (Same e) (readLevel (depth + 1) .conditional) us after := by
  obtain ⟨hderives, hwritten⟩ := h
  cases hderives with
  | tighter habove hderives =>
    cases habove
    have hfinds := ih ⟨hderives, hwritten⟩ (hends.above .conditional) hdepth
    exact hfinds.bind_last fun condition hcondition =>
      (Finds.decline (hends.not_kind rfl)).bind_eq (.pure hcondition)
  | conditional hcondition hyes hno =>
    obtain ⟨us, _, rfl, hcondition', hrest⟩ := Written.append_iff.1 hwritten
    obtain ⟨question, _, rfl, hquestion, hrest'⟩ := Written.kind_iff.1 hrest
    obtain ⟨vs, _, rfl, hyes', hrest''⟩ := Written.append_iff.1 hrest'
    obtain ⟨colon, ws, rfl, hcolon, hno'⟩ := Written.kind_iff.1 hrest''
    simp only [List.length_cons, List.length_append] at hdepth
    have hend : Ends .equality (question :: (vs ++ colon :: ws) ++ after) :=
      .before_looser (by rw [hquestion]; rfl) (by decide)
    have hend' : Ends .assignment (colon :: ws ++ after) := .before (by rw [hcolon]; rfl) _
    have hfinds := ih ⟨hcondition, hcondition'⟩ hend (by simp [Level.rank]; omega)
    have hfinds' := ih ⟨hyes, hyes'⟩ hend' (by simp [Level.rank]; omega)
    have hfinds'' := ih ⟨hno, hno'⟩ hends (by simp [Level.rank]; omega)
    refine hfinds.bind fun condition' hcondition => (Finds.accept? hquestion).bind_eq ?_
    refine hfinds'.bind fun yes' hyes => (Finds.expect hcolon).bind_eq ?_
    exact hfinds''.bind_last fun no' hno => .pure (hcondition.conditional hyes hno)
  | logical hop => cases hop
  | binary hop => cases hop

theorem readUnary_finds (ih : Complete depth) (h : Phrase .unary e us)
    (hends : Ends .unary after) (hdepth : 16 * us.length ≤ depth + 10) :
    Finds (Same e) (readLevel (depth + 1) .unary) us after := by
  obtain ⟨hderives, hwritten⟩ := h
  cases hderives with
  | tighter habove hderives =>
    cases habove
    have hfinds := ih ⟨hderives, hwritten⟩ (hends.above .unary) hdepth
    obtain ⟨t, rest, rfl, ht⟩ := derives_begins hderives hwritten
    refine (Finds.decline ?_).bind_eq hfinds
    rintro _ ⟨⟩
    exact ht.operand (by decide)
  | unary hop hright =>
    obtain ⟨vs, rfl, hright'⟩ := Written.token_iff.1 hwritten
    simp only [List.length_cons] at hdepth
    have hfinds := ih ⟨hright, hright'⟩ hends (by simp [Level.rank]; omega)
    refine (Finds.accept (unary_iff.1 hop)).bind_eq ?_
    exact hfinds.map fun right' hright => hright.unary
  | logical hop => cases hop
  | binary hop => cases hop

/-- The reader that comes `first` and those that read `more` behind it reach the end of `e`, and
more is read from there. Each token of `e` takes at most one from the allowance. -/
def Reaches (depth : Nat) (first : Reader Expr) (more : Nat → Expr → Reader Expr) (e : Expr)
    (us rest : List Token) : Prop :=
  ∀ ⦃Good vs after⦄, rest = vs ++ after →
    (∀ d found, d ≤ depth → depth ≤ d + us.length → Same e found →
      Finds Good (more d found) vs after) →
    Finds Good (first >>= more depth) (us ++ vs) after

theorem Reaches.start {more : Nat → Expr → Reader Expr} (h : Finds (Same e) first us rest) :
    Reaches depth first more e us rest := by
  intro Good vs after hrest hmore
  subst hrest
  exact h.bind fun found hfound => hmore depth found (Nat.le_refl _) (Nat.le_add_right _ _) hfound

/-- Where no more is read, the reading is at its end. -/
theorem Reaches.finish {more : Nat → Expr → Reader Expr} (h : Reaches depth first more e us rest)
    (hmore : ∀ d found, d ≤ depth → depth ≤ d + us.length → Same e found →
      Finds (Same e) (more d found) [] rest) : Finds (Same e) (first >>= more depth) us rest := by
  have hfinds := h rfl hmore
  rwa [List.append_nil] at hfinds

theorem same_join {level : Level} (h : Same left left') (h' : Same right right') :
    Same (level.join op left right) (level.join op left' right') := by
  cases level <;> simp_all only [Same, Level.join, Expr.unnumbered]

/-- The levels at which operators stand between operands. -/
def Level.isChain : Level → Bool
  | assignment | conditional | unary | call | primary => false
  | _ => true

theorem readLevel_chain (h : level.isChain = true) (depth : Nat) :
    readLevel (depth + 1) level = readLevel depth level.tighter >>= readOperands depth level := by
  cases level <;> first | rfl | cases h

/-- One more operand of a chain. -/
theorem operand_reaches (ih : ∀ d < depth + 1, Complete d) (hop : level.isOperator op.kind = true)
    (hleft : ∀ {us rest}, Written left.marks us → Ends level.tighter rest →
      16 * us.length ≤ depth + 1 + level.rank →
      Reaches depth first (readOperands · level) left us rest)
    (hright : Derives level.tighter right)
    (hw : Written (left.marks ++ .token op :: right.marks) us)
    (hends : Ends level.tighter rest) (hdepth : 16 * us.length ≤ depth + 1 + level.rank) :
    Reaches depth first (readOperands · level) (level.join op left right) us rest := by
  obtain ⟨us, _, rfl, hleft', hrest⟩ := Written.append_iff.1 hw
  obtain ⟨vs, rfl, hright'⟩ := Written.token_iff.1 hrest
  have hrank := rank_above (above_tighter (isOperator_ne_primary hop))
  have hrank_le := level.rank_le
  have hend : Ends level.tighter (op :: vs ++ rest) :=
    .before_looser (extends?_operator hop) (by omega)
  simp only [List.length_append, List.length_cons] at hdepth
  intro Good ws after hafter hmore
  subst hafter
  simp only [List.length_append, List.length_cons] at hmore
  rw [List.append_assoc]
  refine hleft hleft' hend (by omega) (by simp) fun d left' hle hd hsame => ?_
  -- The operator and the operand before it have paid for the levels of the next operand.
  obtain _ | d := d
  · omega
  have hfinds := ih d (by omega) ⟨hright, hright'⟩ hends (by omega)
  refine (Finds.accept hop).bind_eq (hfinds.bind fun right' hsame' => ?_)
  exact hmore d _ (by omega) (by omega) (same_join hsame hsame')

theorem operands_reach (ih : ∀ d < depth + 1, Complete d) (hlevel : level.isChain = true)
    (h : Derives level e) (hw : Written e.marks us) (hends : Ends level.tighter rest)
    (hdepth : 16 * us.length ≤ depth + 1 + level.rank) :
    Reaches depth (readLevel depth level.tighter) (readOperands · level) e us rest := by
  induction h generalizing us rest with
  | tighter habove hnext =>
    obtain rfl := above_eq_tighter habove
    refine .start (ih depth (Nat.lt_succ_self _) ⟨hnext, hw⟩ hends ?_)
    rw [rank_above habove]
    omega
  | logical hop habove hleft hright ihleft =>
    obtain rfl := above_eq_tighter habove
    rw [← join_logical hop]
    exact operand_reaches ih (isOperator_iff.2 (.inl hop)) (ihleft hlevel) hright hw hends hdepth
  | binary hop habove hleft hright ihleft =>
    obtain rfl := above_eq_tighter habove
    rw [← join_binary hop]
    exact operand_reaches ih (isOperator_iff.2 (.inr hop)) (ihleft hlevel) hright hw hends hdepth
  | _ => cases hlevel

theorem readChain_finds (ih : ∀ d < depth + 1, Complete d) (hlevel : level.isChain = true)
    (h : Phrase level e us) (hends : Ends level after)
    (hdepth : 16 * us.length ≤ depth + 1 + level.rank) :
    Finds (Same e) (readLevel (depth + 1) level) us after := by
  have habove : Above level level.tighter := above_tighter (by rintro rfl; cases hlevel)
  rw [readLevel_chain hlevel]
  have hreach := operands_reach ih hlevel h.derives h.written (hends.above habove) hdepth
  refine hreach.finish fun d found hle hd hsame => ?_
  have hrank := level.rank_le
  have hpos := (phrase_begins h).length_pos
  obtain _ | d := d
  · omega
  refine (Finds.decline hends.not_operator).bind_last ?_
  rintro _ rfl
  exact .pure hsame

theorem readSuffixes_arguments (ih : ∀ d < depth, Complete d) (hopen : opening.kind = .leftParen)
    (harguments : Items listLimit arguments us) (hparen : paren.kind = .rightParen)
    (hdepth : 16 * us.length < depth)
    (hmore : ∀ found, SameAll arguments found →
      Finds Good (readSuffixes depth (.call head paren found)) vs after) :
    Finds Good (readSuffixes (depth + 1) head) (opening :: (us ++ paren :: vs)) after := by
  refine .peek_bind ?_
  simp only [hopen]
  refine Finds.advance.bind_eq ?_
  refine (readItems_finds ih harguments hparen (.inl rfl) hdepth).bind fun found hfound => ?_
  exact (Finds.expect hparen).bind_eq (hmore found hfound)

theorem readSuffixes_property (hdot : dot.kind = .dot) (hname : name.kind = .identifier)
    (hmore : Finds Good (readSuffixes depth (.get head name)) vs after) :
    Finds Good (readSuffixes (depth + 1) head) (dot :: name :: vs) after := by
  refine .peek_bind ?_
  simp only [hdot]
  refine Finds.advance.bind_eq ?_
  exact (Finds.expect hname).bind_eq hmore

theorem readSuffixes_index (ih : Complete depth) (hopen : opening.kind = .leftBracket)
    (hposition : Phrase .assignment position us) (hbracket : bracket.kind = .rightBracket)
    (hdepth : 16 * us.length ≤ depth)
    (hmore : ∀ found, Same position found →
      Finds Good (readSuffixes depth (.index head bracket found)) vs after) :
    Finds Good (readSuffixes (depth + 1) head) (opening :: (us ++ bracket :: vs)) after := by
  have hend : Ends .assignment (bracket :: vs ++ after) := .before (by rw [hbracket]; rfl) _
  refine .peek_bind ?_
  simp only [hopen]
  refine Finds.advance.bind_eq ?_
  refine (ih hposition hend hdepth).bind fun found hfound => ?_
  exact (Finds.expect hbracket).bind_eq (hmore found hfound)

/-- One more suffix, if its reader goes over it with what allowance is left. -/
theorem Reaches.suffix (hhead : Reaches depth first readSuffixes head us (vs ++ rest))
    (hsuffix : ∀ {d head' Good ws after}, d < depth → depth ≤ d + 1 + us.length → Same head head' →
      (∀ found, Same e found → Finds Good (readSuffixes d found) ws after) →
      Finds Good (readSuffixes (d + 1) head') (vs ++ ws) after)
    (hvs : vs ≠ []) (hdepth : us.length < depth) :
    Reaches depth first readSuffixes e (us ++ vs) rest := by
  intro Good ws after hafter hmore
  subst hafter
  have hpos := List.length_pos_iff.2 hvs
  rw [List.length_append] at hmore
  rw [List.append_assoc]
  refine hhead (List.append_assoc _ _ _).symm fun d head' hle hd hsame => ?_
  obtain _ | d := d
  · omega
  exact hsuffix hle hd hsame fun found hfound => hmore d found (by omega) (by omega) hfound

theorem suffixes_reach (ih : ∀ d < depth + 1, Complete d) (hlevel : level = .call)
    (h : Derives level e) (hw : Written e.marks us) (hdepth : 16 * us.length ≤ depth + 11) :
    Reaches depth (readLevel depth .primary) readSuffixes e us rest := by
  induction h generalizing us rest with
  | tighter habove hnext =>
    cases habove <;> cases hlevel
    exact .start (ih depth (Nat.lt_succ_self _) ⟨hnext, hw⟩ .primary hdepth)
  | call hcallee harguments hfew hparen ihcallee =>
    obtain ⟨us, _, rfl, hcallee', hrest⟩ := Written.append_iff.1 hw
    obtain ⟨opening, vs, _, rfl, hopen, harguments', rfl⟩ := hrest.enclosed
    simp only [List.length_append, List.length_cons, List.length_nil] at hdepth
    refine (ihcallee rfl hcallee' (by omega)).suffix (fun hlt hd hsame hmore => ?_) (by simp)
      (by omega)
    have hitems : Items listLimit _ vs := ⟨harguments, harguments', hfew⟩
    rw [List.cons_append, List.append_assoc]
    refine readSuffixes_arguments (fun d hd => ih d (by omega)) hopen hitems hparen (by omega) ?_
    exact fun found hfound => hmore _ (hsame.call hfound)
  | get hobject hname ihobject =>
    obtain ⟨us, _, rfl, hobject', hrest⟩ := Written.append_iff.1 hw
    obtain ⟨dot, _, rfl, hdot, hrest'⟩ := Written.kind_iff.1 hrest
    obtain ⟨_, rfl, ⟨⟩⟩ := Written.token_iff.1 hrest'
    simp only [List.length_append, List.length_cons, List.length_nil] at hdepth
    refine (ihobject rfl hobject' (by omega)).suffix (fun hlt hd hsame hmore => ?_) (by simp)
      (by omega)
    exact readSuffixes_property hdot hname (hmore _ hsame.property)
  | index htarget hposition hbracket ihtarget =>
    obtain ⟨us, _, rfl, htarget', hrest⟩ := Written.append_iff.1 hw
    obtain ⟨opening, vs, _, rfl, hopen, hposition', rfl⟩ := hrest.enclosed
    simp only [List.length_append, List.length_cons, List.length_nil] at hdepth
    refine (ihtarget rfl htarget' (by omega)).suffix (fun hlt hd hsame hmore => ?_) (by simp)
      (by omega)
    have hphrase : Phrase .assignment _ vs := ⟨hposition, hposition'⟩
    rw [List.cons_append, List.append_assoc]
    refine readSuffixes_index (ih _ (by omega)) hopen hphrase hbracket (by omega) ?_
    exact fun found hfound => hmore _ (hsame.index hfound)
  | logical hop =>
    subst hlevel
    cases hop
  | binary hop =>
    subst hlevel
    cases hop
  | _ => cases hlevel

theorem readCall_finds (ih : ∀ d < depth + 1, Complete d) (h : Phrase .call e us)
    (hends : Ends .call after) (hdepth : 16 * us.length ≤ depth + 11) :
    Finds (Same e) (readLevel (depth + 1) .call) us after := by
  refine (suffixes_reach ih rfl h.derives h.written hdepth).finish fun d found hle hd hsame => ?_
  have hpos := (phrase_begins h).length_pos
  obtain _ | d := d
  · omega
  refine .peek_after_bind fun t ht => ?_
  have hother : extends? t.kind ≠ some .call := by
    obtain ht | ht := ht
    · exact hends.extends?_ne ht
    · rw [ht]
      decide
  split
  · next hkind => exact absurd (by rw [hkind]; rfl) hother
  · next hkind => exact absurd (by rw [hkind]; rfl) hother
  · next hkind => exact absurd (by rw [hkind]; rfl) hother
  · exact .pure hsame

theorem readPrimary_finds (ih : ∀ d < depth, Complete d) (h : Phrase .primary e us)
    (hdepth : 16 * us.length ≤ depth + 12) : Finds (Same e) (readPrimary depth) us after := by
  have hpos := (phrase_begins h).length_pos
  obtain _ | depth := depth
  · omega
  obtain ⟨hderives, hw⟩ := h
  cases hderives with
  | @literal value =>
    obtain ⟨t, _, rfl, hkind, ⟨⟩⟩ := Written.kind_iff.1 hw
    refine .peek_bind ?_
    rcases value with _ | _ | ⟨_ | _⟩ | _ <;>
    · simp only [hkind, Literal.kind]
      refine Finds.advance.bind_eq (.pure rfl)
  | this hkeyword =>
    obtain ⟨_, rfl, ⟨⟩⟩ := Written.token_iff.1 hw
    refine .peek_bind ?_
    simp only [hkeyword]
    exact Finds.advance.bind_eq (Finds.freshId.bind_last fun new _ => .pure rfl)
  | var hname =>
    obtain ⟨_, rfl, ⟨⟩⟩ := Written.token_iff.1 hw
    refine .peek_bind ?_
    simp only [hname]
    exact Finds.advance.bind_eq (Finds.freshId.bind_last fun new _ => .pure rfl)
  | group hinner =>
    obtain ⟨opening, vs, closing, rfl, hopen, hinner', hclose⟩ := hw.enclosed
    simp only [List.length_append, List.length_cons, List.length_nil] at hdepth
    have hend : Ends .assignment ([closing] ++ after) := .before (by rw [hclose]; rfl) _
    have hfinds := ih depth (by omega) ⟨hinner, hinner'⟩ hend (by simp [Level.rank]; omega)
    refine .peek_bind ?_
    simp only [hopen]
    refine Finds.advance.bind_eq (hfinds.bind fun found hsame => ?_)
    exact (Finds.expect hclose).bind_last fun _ _ => .pure hsame.group
  | array helements hfew =>
    obtain ⟨opening, vs, closing, rfl, hopen, helements', hclose⟩ := hw.enclosed
    simp only [List.length_append, List.length_cons, List.length_nil] at hdepth
    have hitems : Items listLimit _ vs := ⟨helements, helements', hfew⟩
    have hfinds : Finds (SameAll _) (readItems depth .rightBracket) vs ([closing] ++ after) :=
      readItems_finds (fun d hd => ih d (by omega)) hitems hclose (.inr rfl) (by omega)
    refine .peek_bind ?_
    simp only [hopen]
    refine Finds.advance.bind_eq (hfinds.bind fun found hsame => ?_)
    exact (Finds.expect hclose).bind_last fun _ _ => .pure (congrArg Expr.array hsame)
  | tighter habove => cases habove
  | logical hop => cases hop
  | binary hop => cases hop

/-- By induction on the allowance, since a target of an assignment is no part of the tree that is
read. -/
theorem complete (depth : Nat) : Complete depth := by
  induction depth using Nat.strong_induction_on with
  | h depth ih =>
    intro level e us after h hends hdepth
    have hpos := (phrase_begins h).length_pos
    have hrank := level.rank_le
    obtain _ | depth := depth
    · omega
    have ih' : Complete depth := ih depth (Nat.lt_succ_self _)
    cases level with
    | assignment => exact readAssignment_finds ih' h hends hdepth
    | conditional => exact readConditional_finds ih' h hends hdepth
    | unary => exact readUnary_finds ih' h hends hdepth
    | call => exact readCall_finds ih h hends hdepth
    | primary => exact readPrimary_finds (fun d hd => ih d (by omega)) h hdepth
    | _ => exact readChain_finds ih rfl h hends hdepth

theorem expression_finds (h : Phrase .assignment e us) (hends : Ends .assignment after) :
    Finds (Same e) expression us after := by
  intro c hrest hc
  have hdepth : 16 * us.length ≤ 16 * c.rest.length + 16 + Level.assignment.rank := by
    rw [hrest, List.length_append]
    omega
  obtain ⟨found, c', hr, hover, hsame⟩ := complete _ h hends hdepth c hrest hc
  exact ⟨found, c', reads_bind.2 ⟨c, c, reads_get.2 ⟨rfl, rfl⟩, hr⟩, hover, hsame⟩

-- ---------------------------------------------------------------------------
-- An expression of its own
-- ---------------------------------------------------------------------------

theorem ofTokens_closed (hbody : ∀ t ∈ body, t.kind ≠ .endOfInput)
    (hstop : stop.kind = .endOfInput) :
    Cursor.ofTokens (body ++ [stop]) lenient start = ⟨body, stop, lenient, false, start⟩ := by
  have htake : (body ++ [stop]).takeWhile (·.kind ≠ .endOfInput) = body := by
    rw [List.takeWhile_append_of_pos (by simpa using hbody)]
    simp [hstop]
  have hfind : (body ++ [stop]).find? (·.kind = .endOfInput) = some stop := by
    rw [List.find?_append, List.find?_eq_none.2 (by simpa using hbody)]
    simp [hstop]
  rw [Cursor.ofTokens, htake, hfind, Option.getD_some]

theorem reads_atEnd : Reads atEnd c ended c' ↔ ended = c.rest.isEmpty ∧ c' = c := by
  simp only [atEnd, reads_bind, reads_get, reads_pure]
  constructor
  · rintro ⟨_, _, ⟨rfl, rfl⟩, rfl, rfl⟩
    exact ⟨rfl, rfl⟩
  · rintro ⟨rfl, rfl⟩
    exact ⟨_, _, ⟨rfl, rfl⟩, rfl, rfl⟩

/-- One expression is read, up to the end. -/
theorem loneExpression_ok_iff : (loneExpression tokens start).1 = .ok e ↔
    ∃ c, Reads expression (.ofTokens tokens false start) e c ∧ c.rest = [] := by
  let reader : Reader Expr := do
    let e ← expression
    if ← atEnd then return e else fail .trailing
  have hreader : (loneExpression tokens start).1 = .ok e ↔
      ∃ c, Reads reader (.ofTokens tokens false start) e c :=
    ⟨fun h => ⟨_, Prod.ext h rfl⟩, fun ⟨_, h⟩ => congrArg Prod.fst h⟩
  rw [hreader]
  constructor
  · rintro ⟨c, h⟩
    obtain ⟨e', c₁, h₁, h⟩ := reads_bind.1 h
    obtain ⟨ended, c₂, h₂, h⟩ := reads_bind.1 h
    obtain ⟨rfl, rfl⟩ := reads_atEnd.1 h₂
    split at h
    · next hend =>
      obtain ⟨rfl, rfl⟩ := reads_pure.1 h
      exact ⟨c, h₁, List.isEmpty_iff.1 hend⟩
    · exact (reads_fail.1 h).elim
  · rintro ⟨c, h, hend⟩
    refine ⟨c, reads_bind.2 ⟨e, c, h, reads_bind.2 ⟨true, c, reads_atEnd.2 ⟨?_, rfl⟩, rfl⟩⟩⟩
    rw [hend, List.isEmpty_nil]

theorem loneExpression_phrase (hbody : ∀ t ∈ body, t.kind ≠ .endOfInput)
    (hstop : stop.kind = .endOfInput)
    (h : (loneExpression (body ++ [stop]) start).1 = .ok e) : Phrase .assignment e body := by
  obtain ⟨c, hr, hend⟩ := loneExpression_ok_iff.1 h
  rw [ofTokens_closed hbody hstop] at hr
  obtain ⟨us, hover, hphrase⟩ := expression_covers hstop hr
  have hus : body = us ++ c.rest := hover.rest
  rw [hend, List.append_nil] at hus
  exact hus ▸ hphrase

theorem loneExpression_finds (hbody : ∀ t ∈ body, t.kind ≠ .endOfInput)
    (hstop : stop.kind = .endOfInput) (h : Phrase .assignment e body) (start : NodeId) :
    ∃ found, (loneExpression (body ++ [stop]) start).1 = .ok found ∧ Same e found := by
  have hfinds := expression_finds h (.nil _) ⟨body, stop, false, false, start⟩
    (List.append_nil body).symm hstop
  obtain ⟨found, c, hr, hover, hsame⟩ := hfinds
  refine ⟨found, loneExpression_ok_iff.2 ⟨c, ?_, ?_⟩, hsame⟩
  · rwa [ofTokens_closed hbody hstop]
  · exact List.append_cancel_left (hover.rest.symm.trans (List.append_nil body).symm)

end Parser

/-- Reading an expression gives the trees of the grammar: all of them, nothing else, and for the
same tokens only one. -/
theorem expressions_are_phrases (hbody : ∀ t ∈ body, t.kind ≠ .endOfInput)
    (hstop : stop.kind = .endOfInput) (start : NodeId) :
    (∀ e, (∃ found, (Parser.loneExpression (body ++ [stop]) start).1 = .ok found ∧ Same e found) ↔
      Derives .assignment e ∧ Written e.marks body) ∧
    ∀ e e', Derives .assignment e → Written e.marks body →
      Derives .assignment e' → Written e'.marks body → Same e e' := by
  have complete {e : Expr} (hderives : Derives .assignment e) (hwritten : Written e.marks body) :
      ∃ found, (Parser.loneExpression (body ++ [stop]) start).1 = .ok found ∧ Same e found :=
    Parser.loneExpression_finds hbody hstop ⟨hderives, hwritten⟩ start
  refine ⟨fun e => ⟨?_, fun ⟨hderives, hwritten⟩ => complete hderives hwritten⟩, ?_⟩
  · rintro ⟨found, hfound, hsame⟩
    have hphrase := (Parser.loneExpression_phrase hbody hstop hfound).same hsame.symm
    exact ⟨hphrase.derives, hphrase.written⟩
  · intro e e' hderives hwritten hderives' hwritten'
    obtain ⟨found, hfound, hsame⟩ := complete hderives hwritten
    obtain ⟨found', hfound', hsame'⟩ := complete hderives' hwritten'
    obtain rfl : found = found' := by
      rw [hfound] at hfound'
      exact Except.ok.inj hfound'
    exact hsame.trans hsame'.symm

/-- `a.b = c and d, -f(x)[y]` -/
def mixedTokens : List Token :=
  [⟨.identifier, "a", 1⟩, ⟨.dot, ".", 1⟩, ⟨.identifier, "b", 1⟩, ⟨.equal, "=", 1⟩,
    ⟨.identifier, "c", 1⟩, ⟨.kwAnd, "and", 1⟩, ⟨.identifier, "d", 1⟩, ⟨.comma, ",", 1⟩,
    ⟨.minus, "-", 1⟩, ⟨.identifier, "f", 1⟩, ⟨.leftParen, "(", 1⟩, ⟨.identifier, "x", 1⟩,
    ⟨.rightParen, ")", 1⟩, ⟨.leftBracket, "[", 1⟩, ⟨.identifier, "y", 1⟩, ⟨.rightBracket, "]", 1⟩]

def mixedTree : Expr :=
  .set (.var 0 ⟨.identifier, "a", 1⟩) ⟨.identifier, "b", 1⟩ <|
    .logical ⟨.kwAnd, "and", 1⟩ (.var 1 ⟨.identifier, "c", 1⟩) <|
      .binary ⟨.comma, ",", 1⟩ (.var 2 ⟨.identifier, "d", 1⟩) <|
        .unary ⟨.minus, "-", 1⟩ <|
          .index (.call (.var 3 ⟨.identifier, "f", 1⟩) ⟨.rightParen, ")", 1⟩
            [.var 4 ⟨.identifier, "x", 1⟩]) ⟨.rightBracket, "]", 1⟩ (.var 5 ⟨.identifier, "y", 1⟩)

/-- An assignment takes in all of it, and the comma binds tighter than `and`. -/
theorem comma_binds_tighter :
    (∀ t ∈ mixedTokens, t.kind ≠ .endOfInput) ∧ (Token.finish 1).kind = .endOfInput ∧
      (Parser.loneExpression (mixedTokens ++ [Token.finish 1]) 0).1 = .ok mixedTree ∧
      Derives .assignment mixedTree ∧ Written mixedTree.marks mixedTokens := by
  have hbody : ∀ t ∈ mixedTokens, t.kind ≠ .endOfInput := by decide
  have hread : (Parser.loneExpression (mixedTokens ++ [Token.finish 1]) 0).1 = .ok mixedTree := by
    decide +kernel
  exact ⟨hbody, rfl, hread, ((expressions_are_phrases hbody rfl 0).1 _).1 ⟨_, hread, rfl⟩⟩

end Treewalk
