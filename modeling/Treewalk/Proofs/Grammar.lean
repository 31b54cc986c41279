import Mathlib
import Treewalk.Parser.Expression

/-!
# The grammar of expressions

`Derives` has a rule for each way in which the grammar in `Treewalk.Parser.Expression` makes a tree
of a level. It is stated apart from the readers and shares no table with them.

A tree leaves a mark for each token that it was made from: the token itself where the tree keeps
it, and its kind where it does not. A `Phrase` is a tree of a level with the tokens of its marks.
-/

open Treewalk.Parser (Level)

namespace Treewalk

-- ---------------------------------------------------------------------------
-- Trees of a level
-- ---------------------------------------------------------------------------

/-- A level and the one whose trees are its operands. -/
inductive Above : Level → Level → Prop
  | assignment : Above .assignment .disjunction
  | disjunction : Above .disjunction .conjunction
  | conjunction : Above .conjunction .sequence
  | sequence : Above .sequence .conditional
  | conditional : Above .conditional .equality
  | equality : Above .equality .comparison
  | comparison : Above .comparison .term
  | term : Above .term .factor
  | factor : Above .factor .unary
  | unary : Above .unary .call
  | call : Above .call .primary

/-- The operators that may leave their right operand alone. -/
inductive Logical : Level → Kind → Prop
  | or : Logical .disjunction .kwOr
  | and : Logical .conjunction .kwAnd

inductive Binary : Level → Kind → Prop
  | comma : Binary .sequence .comma
  | notEqual : Binary .equality .bangEqual
  | equal : Binary .equality .equalEqual
  | greater : Binary .comparison .greater
  | greaterEqual : Binary .comparison .greaterEqual
  | less : Binary .comparison .less
  | lessEqual : Binary .comparison .lessEqual
  | minus : Binary .term .minus
  | plus : Binary .term .plus
  | slash : Binary .factor .slash
  | star : Binary .factor .star
  | percent : Binary .factor .percent
  | bar : Binary .factor .bar
  | caret : Binary .factor .caret

inductive Unary : Kind → Prop
  | bang : Unary .bang
  | minus : Unary .minus

/-- The grammar makes the tree at the level. Operators of one level group to the left. -/
inductive Derives : Level → Expr → Prop
  | tighter : Above level next → Derives next e → Derives level e
  | assign : name.kind = .identifier → Derives .assignment value →
    Derives .assignment (.assign node name value)
  | set : Derives .call object → name.kind = .identifier → Derives .assignment value →
    Derives .assignment (.set object name value)
  | logical : Logical level op.kind → Above level next → Derives level left →
    Derives next right → Derives level (.logical op left right)
  | binary : Binary level op.kind → Above level next → Derives level left →
    Derives next right → Derives level (.binary op left right)
  | conditional : Derives .equality condition → Derives .assignment yes →
    Derives .conditional no → Derives .conditional (.conditional condition yes no)
  | unary : Unary op.kind → Derives .unary right → Derives .unary (.unary op right)
  | call : Derives .call callee → (∀ e ∈ arguments, Derives .conditional e) →
    arguments.length ≤ 255 → paren.kind = .rightParen →
    Derives .call (.call callee paren arguments)
  | get : Derives .call object → name.kind = .identifier → Derives .call (.get object name)
  | index : Derives .call target → Derives .assignment position →
    bracket.kind = .rightBracket → Derives .call (.index target bracket position)
  | literal : Derives .primary (.literal value)
  | this : keyword.kind = .kwThis → Derives .primary (.this node keyword)
  | var : name.kind = .identifier → Derives .primary (.var node name)
  | group : Derives .assignment e → Derives .primary (.group e)
  | array : (∀ e ∈ elements, Derives .conditional e) → elements.length ≤ 255 →
    Derives .primary (.array elements)

-- ---------------------------------------------------------------------------
-- The tokens of a tree
-- ---------------------------------------------------------------------------

/-- What a tree tells of one of its tokens. -/
inductive Mark where
  | token (t : Token)
  | kind (k : Kind)

def Mark.Fits : Mark → Token → Prop
  | .token t, u => u = t
  | .kind k, u => u.kind = k

/-- The kind of token that a literal is written with. -/
def Literal.kind : Literal → Kind
  | .number value => .number value
  | .text contents => .text contents
  | .bool true => .kwTrue
  | .bool false => .kwFalse
  | .nil => .kwNil

mutual

/-- The marks of the tokens of an expression, in the order in which they are written. -/
def Expr.marks : Expr → List Mark
  | .literal value => [.kind value.kind]
  | .unary op right => .token op :: right.marks
  | .binary op left right => left.marks ++ .token op :: right.marks
  | .logical op left right => left.marks ++ .token op :: right.marks
  | .conditional condition yes no =>
    condition.marks ++ .kind .question :: (yes.marks ++ .kind .colon :: no.marks)
  | .group inner => .kind .leftParen :: (inner.marks ++ [.kind .rightParen])
  | .var _ name => [.token name]
  | .assign _ name value => .token name :: .kind .equal :: value.marks
  | .call callee paren arguments =>
    callee.marks ++ .kind .leftParen :: (Expr.marksOfAll arguments ++ [.token paren])
  | .get object name => object.marks ++ [.kind .dot, .token name]
  | .set object name value =>
    object.marks ++ .kind .dot :: .token name :: .kind .equal :: value.marks
  | .this _ keyword => [.token keyword]
  | .array elements => .kind .leftBracket :: (Expr.marksOfAll elements ++ [.kind .rightBracket])
  | .index target bracket position =>
    target.marks ++ .kind .leftBracket :: (position.marks ++ [.token bracket])

/-- The marks of expressions with commas between them. -/
def Expr.marksOfAll : List Expr → List Mark
  | [] => []
  | [e] => e.marks
  | e :: rest => e.marks ++ .kind .comma :: Expr.marksOfAll rest

end

theorem Expr.marksOfAll_cons {rest : List Expr} (h : rest ≠ []) :
    Expr.marksOfAll (e :: rest) = e.marks ++ .kind .comma :: Expr.marksOfAll rest := by
  cases rest with
  | nil => contradiction
  | cons next rest => rfl

/-- The tokens are those that the marks tell of. -/
abbrev Written (marks : List Mark) (tokens : List Token) : Prop :=
  List.Forall₂ Mark.Fits marks tokens

namespace Written

theorem append (h : Written as ts) (h' : Written bs us) : Written (as ++ bs) (ts ++ us) :=
  List.rel_append h h'

theorem append_iff : Written (as ++ bs) ts ↔
    ∃ us vs, ts = us ++ vs ∧ Written as us ∧ Written bs vs := by
  constructor
  · intro h
    induction as generalizing ts with
    | nil => exact ⟨[], ts, rfl, .nil, h⟩
    | cons a as ih =>
      cases h with
      | @cons _ t _ rest hfits hrest =>
        obtain ⟨us, vs, rfl, hus, hvs⟩ := ih hrest
        exact ⟨t :: us, vs, rfl, .cons hfits hus, hvs⟩
  · rintro ⟨us, vs, rfl, hus, hvs⟩
    exact hus.append hvs

theorem kind_iff : Written (.kind k :: as) ts ↔
    ∃ t us, ts = t :: us ∧ t.kind = k ∧ Written as us := by
  rw [Written, List.forall₂_cons_left_iff]
  constructor
  · rintro ⟨t, us, ht, hus, rfl⟩
    exact ⟨t, us, rfl, ht, hus⟩
  · rintro ⟨t, us, rfl, ht, hus⟩
    exact ⟨t, us, ht, hus, rfl⟩

theorem token_iff : Written (.token t :: as) ts ↔ ∃ us, ts = t :: us ∧ Written as us := by
  rw [Written, List.forall₂_cons_left_iff]
  constructor
  · rintro ⟨_, us, rfl, hus, rfl⟩
    exact ⟨us, rfl, hus⟩
  · rintro ⟨us, rfl, hus⟩
    exact ⟨t, us, rfl, hus, rfl⟩

theorem nil_iff : Written [] ts ↔ ts = [] := by
  rw [Written, List.forall₂_nil_left_iff]

/-- What stands between two tokens that open and close it. -/
theorem enclosed (h : Written (.kind k :: (as ++ [a])) ts) : ∃ opening us closing,
    ts = opening :: (us ++ [closing]) ∧ opening.kind = k ∧ Written as us ∧ a.Fits closing := by
  obtain ⟨opening, _, rfl, hopen, hrest⟩ := kind_iff.1 h
  obtain ⟨us, _, rfl, hinner, hlast⟩ := append_iff.1 hrest
  cases hlast with
  | cons hclose hnil =>
    cases hnil
    exact ⟨opening, us, _, rfl, hopen, hinner, hclose⟩

theorem kind (h : t.kind = k) : Written [.kind k] [t] :=
  .cons h .nil

theorem token (t : Token) : Written [.token t] [t] :=
  .cons rfl .nil

end Written

-- ---------------------------------------------------------------------------
-- Phrases
-- ---------------------------------------------------------------------------

/-- The tokens are a phrase of the level, and `e` is its tree. -/
structure Phrase (level : Level) (e : Expr) (tokens : List Token) : Prop where
  derives : Derives level e
  written : Written e.marks tokens

/-- The tokens are a list of at most `room` items. -/
structure Items (room : Nat) (items : List Expr) (tokens : List Token) : Prop where
  derives : ∀ e ∈ items, Derives .conditional e
  written : Written (Expr.marksOfAll items) tokens
  few : items.length ≤ room

theorem Derives.var_kind (h : Derives level (.var node name)) : name.kind = .identifier := by
  generalize he : Expr.var node name = e at h
  induction h with
  | tighter _ _ ih => exact ih he
  | var hname =>
    cases he
    exact hname
  | _ => cases he

theorem Derives.get_parts (h : Derives level (.get object name)) :
    Derives .call object ∧ name.kind = .identifier := by
  generalize he : Expr.get object name = e at h
  induction h with
  | tighter _ _ ih => exact ih he
  | get hobject hname =>
    cases he
    exact ⟨hobject, hname⟩
  | _ => cases he

namespace Phrase

theorem tighter (habove : Above level next) (h : Phrase next e us) : Phrase level e us :=
  ⟨.tighter habove h.derives, h.written⟩

theorem assign (h : Phrase level (.var node name) us) (hequals : equals.kind = .equal)
    (hvalue : Phrase .assignment value vs) :
    Phrase .assignment (.assign new name value) (us ++ equals :: vs) where
  derives := .assign h.derives.var_kind hvalue.derives
  written := h.written.append (.cons hequals hvalue.written)

theorem set (h : Phrase level (.get object name) us) (hequals : equals.kind = .equal)
    (hvalue : Phrase .assignment value vs) :
    Phrase .assignment (.set object name value) (us ++ equals :: vs) where
  derives := .set h.derives.get_parts.1 h.derives.get_parts.2 hvalue.derives
  written := by
    have hequal : (Mark.kind .equal).Fits equals := hequals
    simpa [Expr.marks] using h.written.append (.cons hequal hvalue.written)

theorem conditional (h : Phrase .equality condition us) (hquestion : question.kind = .question)
    (hyes : Phrase .assignment yes vs) (hcolon : colon.kind = .colon)
    (hno : Phrase .conditional no ws) :
    Phrase .conditional (.conditional condition yes no)
      (us ++ question :: (vs ++ colon :: ws)) where
  derives := .conditional h.derives hyes.derives hno.derives
  written := h.written.append (.cons hquestion (hyes.written.append (.cons hcolon hno.written)))

theorem unary (hop : Unary op.kind) (h : Phrase .unary right us) :
    Phrase .unary (.unary op right) (op :: us) :=
  ⟨.unary hop h.derives, .cons rfl h.written⟩

theorem call (h : Phrase .call callee us) (hopen : opening.kind = .leftParen)
    (harguments : Items 255 arguments vs) (hparen : paren.kind = .rightParen) :
    Phrase .call (.call callee paren arguments) (us ++ opening :: (vs ++ [paren])) where
  derives := .call h.derives harguments.derives harguments.few hparen
  written := h.written.append (.cons hopen (harguments.written.append (.token paren)))

theorem get (h : Phrase .call object us) (hdot : dot.kind = .dot)
    (hname : name.kind = .identifier) : Phrase .call (.get object name) (us ++ [dot, name]) where
  derives := .get h.derives hname
  written := h.written.append (.cons hdot (Written.token name))

theorem index (h : Phrase .call target us) (hopen : opening.kind = .leftBracket)
    (hposition : Phrase .assignment position vs) (hbracket : bracket.kind = .rightBracket) :
    Phrase .call (.index target bracket position) (us ++ opening :: (vs ++ [bracket])) where
  derives := .index h.derives hposition.derives hbracket
  written := h.written.append (.cons hopen (hposition.written.append (.token bracket)))

theorem literal (h : t.kind = value.kind) : Phrase .primary (.literal value) [t] :=
  ⟨.literal, .kind h⟩

theorem this (node : NodeId) (h : keyword.kind = .kwThis) :
    Phrase .primary (.this node keyword) [keyword] :=
  ⟨.this h, .token keyword⟩

theorem var (node : NodeId) (h : name.kind = .identifier) :
    Phrase .primary (.var node name) [name] :=
  ⟨.var h, .token name⟩

theorem group (hopen : opening.kind = .leftParen) (h : Phrase .assignment e us)
    (hclose : closing.kind = .rightParen) :
    Phrase .primary (.group e) (opening :: (us ++ [closing])) where
  derives := .group h.derives
  written := .cons hopen (h.written.append (.kind hclose))

theorem array (hopen : opening.kind = .leftBracket) (h : Items 255 elements us)
    (hclose : closing.kind = .rightBracket) :
    Phrase .primary (.array elements) (opening :: (us ++ [closing])) where
  derives := .array h.derives h.few
  written := .cons hopen (h.written.append (.kind hclose))

end Phrase

namespace Items

theorem none (room : Nat) : Items room [] [] :=
  ⟨by simp, .nil, Nat.zero_le room⟩

theorem one (h : Phrase .conditional e us) : Items (room + 1) [e] us where
  derives := by simpa using h.derives
  written := h.written
  few := by simp

theorem cons (h : Phrase .conditional e us) (hcomma : comma.kind = .comma)
    (hrest : Items room rest vs) (hne : rest ≠ []) :
    Items (room + 1) (e :: rest) (us ++ comma :: vs) where
  derives := by
    rintro x (_ | ⟨_, hx⟩)
    · exact h.derives
    · exact hrest.derives x hx
  written := by
    rw [Expr.marksOfAll_cons hne]
    exact h.written.append (.cons hcomma hrest.written)
  few := Nat.succ_le_succ hrest.few

end Items

-- ---------------------------------------------------------------------------
-- Trees without their numbers
-- ---------------------------------------------------------------------------

mutual

/-- The expression, with the identities of its nodes taken away. -/
def Expr.unnumbered : Expr → Expr
  | .literal value => .literal value
  | .unary op right => .unary op right.unnumbered
  | .binary op left right => .binary op left.unnumbered right.unnumbered
  | .logical op left right => .logical op left.unnumbered right.unnumbered
  | .conditional condition yes no =>
    .conditional condition.unnumbered yes.unnumbered no.unnumbered
  | .group inner => .group inner.unnumbered
  | .var _ name => .var 0 name
  | .assign _ name value => .assign 0 name value.unnumbered
  | .call callee paren arguments =>
    .call callee.unnumbered paren (Expr.unnumberedAll arguments)
  | .get object name => .get object.unnumbered name
  | .set object name value => .set object.unnumbered name value.unnumbered
  | .this _ keyword => .this 0 keyword
  | .array elements => .array (Expr.unnumberedAll elements)
  | .index target bracket position => .index target.unnumbered bracket position.unnumbered

def Expr.unnumberedAll : List Expr → List Expr
  | [] => []
  | e :: rest => e.unnumbered :: Expr.unnumberedAll rest

end

/-- The expressions differ at most in the identities of their nodes. -/
def Same (e e' : Expr) : Prop :=
  e.unnumbered = e'.unnumbered

def SameAll (items items' : List Expr) : Prop :=
  Expr.unnumberedAll items = Expr.unnumberedAll items'

namespace Same

theorem one (h : Same e e') : SameAll [e] [e'] :=
  congrArg (fun x => [x]) h

theorem cons (h : Same e e') (hrest : SameAll rest rest') : SameAll (e :: rest) (e' :: rest') :=
  congrArg₂ List.cons h hrest

theorem var (h : Same (.var node name) e) : ∃ node', e = .var node' name := by
  cases e <;> simp_all [Same, Expr.unnumbered]

theorem get (h : Same (.get object name) e) :
    ∃ object', e = .get object' name ∧ Same object object' := by
  cases e <;> simp_all [Same, Expr.unnumbered]

theorem assign (h : Same value value') :
    Same (.assign node name value) (.assign node' name value') :=
  congrArg (Expr.assign 0 name) h

theorem set (h : Same object object') (h' : Same value value') :
    Same (.set object name value) (.set object' name value') :=
  congrArg₂ (Expr.set · name ·) h h'

theorem conditional (h : Same condition condition') (hyes : Same yes yes') (hno : Same no no') :
    Same (.conditional condition yes no) (.conditional condition' yes' no') := by
  simp_all only [Same, Expr.unnumbered]

theorem unary (h : Same right right') : Same (.unary op right) (.unary op right') :=
  congrArg (Expr.unary op) h

theorem call (h : Same callee callee') (h' : SameAll arguments arguments') :
    Same (.call callee paren arguments) (.call callee' paren arguments') :=
  congrArg₂ (Expr.call · paren ·) h h'

theorem property (h : Same object object') : Same (.get object name) (.get object' name) :=
  congrArg (Expr.get · name) h

theorem index (h : Same target target') (h' : Same position position') :
    Same (.index target bracket position) (.index target' bracket position') :=
  congrArg₂ (Expr.index · bracket ·) h h'

theorem group (h : Same e e') : Same (.group e) (.group e') :=
  congrArg Expr.group h

end Same

/-- What the numbers of no item play a part in, those of all items play no part in. -/
theorem SameAll.transfer (h : SameAll items items')
    (hitems : ∀ e ∈ items, ∀ {e'}, Same e e' → Derives level e' ∧ e'.marks = e.marks) :
    (∀ e ∈ items', Derives level e) ∧ Expr.marksOfAll items' = Expr.marksOfAll items ∧
      items'.length = items.length := by
  induction items generalizing items' with
  | nil =>
    cases items' with
    | nil => simp
    | cons => cases h
  | cons e rest ih =>
    cases items' with
    | nil => cases h
    | cons e' rest' =>
      obtain ⟨he, hrest⟩ := List.cons.inj h
      obtain ⟨hderives, hmarks⟩ := hitems e (by simp) he
      obtain ⟨hderives', hmarks', hlength⟩ := ih hrest fun e he => hitems e (by simp [he])
      refine ⟨by simpa using ⟨hderives, hderives'⟩, ?_, by simp [hlength]⟩
      cases rest with
      | nil =>
        obtain rfl := List.length_eq_zero_iff.1 hlength
        exact hmarks
      | cons next rest =>
        have hne : rest' ≠ [] := by
          rintro rfl
          cases hlength
        rw [Expr.marksOfAll_cons hne, Expr.marksOfAll_cons (by simp), hmarks, hmarks']

/-- The numbers of the nodes play no part in the grammar. -/
theorem Derives.same (h : Derives level e) (hsame : Same e e') :
    Derives level e' ∧ e'.marks = e.marks := by
  induction h generalizing e' with
  | tighter habove _ ih => exact ⟨.tighter habove (ih hsame).1, (ih hsame).2⟩
  | assign hname _ ih =>
    -- A tree of another shape keeps that shape without its numbers.
    cases e' <;> simp only [Same, Expr.unnumbered, Expr.assign.injEq, reduceCtorEq] at hsame
    obtain ⟨-, rfl, hvalue⟩ := hsame
    exact ⟨.assign hname (ih hvalue).1, by simp [Expr.marks, (ih hvalue).2]⟩
  | set _ hname _ ih ih' =>
    cases e' <;> simp only [Same, Expr.unnumbered, Expr.set.injEq, reduceCtorEq] at hsame
    obtain ⟨hobject, rfl, hvalue⟩ := hsame
    exact ⟨.set (ih hobject).1 hname (ih' hvalue).1,
      by simp [Expr.marks, (ih hobject).2, (ih' hvalue).2]⟩
  | logical hop habove _ _ ih ih' =>
    cases e' <;> simp only [Same, Expr.unnumbered, Expr.logical.injEq, reduceCtorEq] at hsame
    obtain ⟨rfl, hleft, hright⟩ := hsame
    exact ⟨.logical hop habove (ih hleft).1 (ih' hright).1,
      by simp [Expr.marks, (ih hleft).2, (ih' hright).2]⟩
  | binary hop habove _ _ ih ih' =>
    cases e' <;> simp only [Same, Expr.unnumbered, Expr.binary.injEq, reduceCtorEq] at hsame
    obtain ⟨rfl, hleft, hright⟩ := hsame
    exact ⟨.binary hop habove (ih hleft).1 (ih' hright).1,
      by simp [Expr.marks, (ih hleft).2, (ih' hright).2]⟩
  | conditional _ _ _ ih ih' ih'' =>
    cases e' <;> simp only [Same, Expr.unnumbered, Expr.conditional.injEq, reduceCtorEq] at hsame
    obtain ⟨hcondition, hyes, hno⟩ := hsame
    exact ⟨.conditional (ih hcondition).1 (ih' hyes).1 (ih'' hno).1,
      by simp [Expr.marks, (ih hcondition).2, (ih' hyes).2, (ih'' hno).2]⟩
  | unary hop _ ih =>
    cases e' <;> simp only [Same, Expr.unnumbered, Expr.unary.injEq, reduceCtorEq] at hsame
    obtain ⟨rfl, hright⟩ := hsame
    exact ⟨.unary hop (ih hright).1, by simp [Expr.marks, (ih hright).2]⟩
  | call _ _ hfew hparen ih ih' =>
    cases e' <;> simp only [Same, Expr.unnumbered, Expr.call.injEq, reduceCtorEq] at hsame
    obtain ⟨hcallee, rfl, harguments⟩ := hsame
    obtain ⟨hderives, hmarks, hlength⟩ := SameAll.transfer harguments ih'
    exact ⟨.call (ih hcallee).1 hderives (hlength ▸ hfew) hparen,
      by simp [Expr.marks, (ih hcallee).2, hmarks]⟩
  | get _ hname ih =>
    cases e' <;> simp only [Same, Expr.unnumbered, Expr.get.injEq, reduceCtorEq] at hsame
    obtain ⟨hobject, rfl⟩ := hsame
    exact ⟨.get (ih hobject).1 hname, by simp [Expr.marks, (ih hobject).2]⟩
  | index _ _ hbracket ih ih' =>
    cases e' <;> simp only [Same, Expr.unnumbered, Expr.index.injEq, reduceCtorEq] at hsame
    obtain ⟨htarget, rfl, hposition⟩ := hsame
    exact ⟨.index (ih htarget).1 (ih' hposition).1 hbracket,
      by simp [Expr.marks, (ih htarget).2, (ih' hposition).2]⟩
  | literal =>
    cases e' <;> simp only [Same, Expr.unnumbered, Expr.literal.injEq, reduceCtorEq] at hsame
    exact ⟨.literal, by rw [hsame]⟩
  | this hkeyword =>
    cases e' <;> simp only [Same, Expr.unnumbered, Expr.this.injEq, reduceCtorEq] at hsame
    obtain ⟨-, rfl⟩ := hsame
    exact ⟨.this hkeyword, rfl⟩
  | var hname =>
    cases e' <;> simp only [Same, Expr.unnumbered, Expr.var.injEq, reduceCtorEq] at hsame
    obtain ⟨-, rfl⟩ := hsame
    exact ⟨.var hname, rfl⟩
  | group _ ih =>
    cases e' <;> simp only [Same, Expr.unnumbered, Expr.group.injEq, reduceCtorEq] at hsame
    exact ⟨.group (ih hsame).1, by simp [Expr.marks, (ih hsame).2]⟩
  | array _ hfew ih =>
    cases e' <;> simp only [Same, Expr.unnumbered, Expr.array.injEq, reduceCtorEq] at hsame
    obtain ⟨hderives, hmarks, hlength⟩ := SameAll.transfer hsame ih
    exact ⟨.array hderives (hlength ▸ hfew), by simp [Expr.marks, hmarks]⟩

theorem Phrase.same (h : Phrase level e us) (hsame : Same e e') : Phrase level e' us :=
  ⟨(h.derives.same hsame).1, (h.derives.same hsame).2 ▸ h.written⟩

end Treewalk
