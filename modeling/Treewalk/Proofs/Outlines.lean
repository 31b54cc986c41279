import Treewalk.Proofs.Numerals
import Treewalk.Proofs.Readable

/-!
# What an outline tells

An outline is made of words, blanks and parentheses, and can be divided into them in one way only.
The word at the head of a pair of parentheses and the number of parts behind it tell what tree they
stand for; a word that is no head tells of one token. So the outline of an expression that was read
from a source gives its tree back, if there are no texts among the literals, whose contents may be
anything, and no infinite numbers, which are written as a name.
-/

namespace Treewalk

-- ---------------------------------------------------------------------------
-- Forms
-- ---------------------------------------------------------------------------

/-- A word, or a head with its parts behind it, in parentheses. -/
inductive Form where
  | word (w : String)
  | node (head : String) (parts : List Form)

namespace Form

mutual

def text : Form → List Char
  | .word w => w.toList
  | .node head parts => '(' :: (head.toList ++ (texts parts ++ [')']))

/-- Each behind a blank. -/
def texts : List Form → List Char
  | [] => []
  | f :: rest => ' ' :: (f.text ++ texts rest)

end

/-- Characters that are no part of a word. -/
def bounds : List Char :=
  [' ', '(', ')']

abbrev Solid (w : String) : Prop :=
  w.toList ≠ [] ∧ ∀ c ∈ w.toList, c ∉ bounds

mutual

/-- The words are words. -/
def Sound : Form → Prop
  | .word w => Solid w
  | .node head parts => Solid head ∧ AllSound parts

def AllSound : List Form → Prop
  | [] => True
  | f :: rest => f.Sound ∧ AllSound rest

end

/-- A word may end here. -/
def Ends (rest : List Char) : Prop :=
  ∀ c ∈ rest.head?, c ∈ bounds

theorem ends_texts (parts : List Form) (rest : List Char) : Ends (texts parts ++ ')' :: rest) := by
  cases parts <;> simp [Ends, texts, bounds]

/-- Where a word ends can be seen. -/
theorem word_inj (hw : Solid w) (hw' : Solid w') (hrest : Ends rest) (hrest' : Ends rest')
    (h : w.toList ++ rest = w'.toList ++ rest') : w = w' ∧ rest = rest' := by
  have htake {v : String} {more : List Char} (hv : Solid v) (hmore : Ends more) :
      (v.toList ++ more).takeWhile (· ∉ bounds) = v.toList := by
    rw [List.takeWhile_append_of_pos fun c hc => decide_eq_true (hv.2 c hc)]
    cases more with
    | nil => simp
    | cons c more => simp [hmore c rfl]
  have hwords : w.toList = w'.toList := by rw [← htake hw hrest, h, htake hw' hrest']
  obtain rfl := String.toList_injective hwords
  exact ⟨rfl, List.append_cancel_left h⟩

/-- A word does not begin with a parenthesis. -/
theorem word_ne_node (hw : Solid w) : w.toList ++ rest ≠ '(' :: more := by
  intro h
  obtain ⟨hne, hall⟩ := hw
  cases hchars : w.toList with
  | nil => exact hne hchars
  | cons c cs =>
    rw [hchars] at h hall
    obtain ⟨rfl, -⟩ := List.cons.inj h
    exact hall '(' (List.mem_cons_self ..) (by simp [bounds])

mutual

/-- A text can be divided in one way only. -/
theorem text_inj {rest rest' : List Char} (hrest : Ends rest) (hrest' : Ends rest') :
    ∀ f f' : Form, f.Sound → f'.Sound → f.text ++ rest = f'.text ++ rest' → f = f' ∧ rest = rest'
  | .word w, .word w', hf, hf', h => by
    obtain ⟨rfl, hrests⟩ := word_inj hf hf' hrest hrest' h
    exact ⟨rfl, hrests⟩
  | .word w, .node head' parts', hf, _, h => (word_ne_node hf h).elim
  | .node head parts, .word w', _, hf', h => (word_ne_node hf' h.symm).elim
  | .node head parts, .node head' parts', hf, hf', h => by
    have hinside : head.toList ++ (texts parts ++ ')' :: rest) =
        head'.toList ++ (texts parts' ++ ')' :: rest') := by
      simpa [text] using h
    obtain ⟨rfl, hparts⟩ := word_inj hf.1 hf'.1 (ends_texts parts rest) (ends_texts parts' rest')
      hinside
    obtain ⟨rfl, hrests⟩ := texts_inj parts parts' hf.2 hf'.2 hparts
    exact ⟨rfl, hrests⟩

theorem texts_inj {rest rest' : List Char} : ∀ parts parts' : List Form, AllSound parts →
    AllSound parts' → texts parts ++ ')' :: rest = texts parts' ++ ')' :: rest' →
      parts = parts' ∧ rest = rest'
  | [], [], _, _, h => ⟨rfl, (List.cons.inj h).2⟩
  | [], f' :: parts', _, _, h => absurd (List.cons.inj h).1 (by decide)
  | f :: parts, [], _, _, h => absurd (List.cons.inj h).1 (by decide)
  | f :: parts, f' :: parts', hparts, hparts', h => by
    have hbehind : f.text ++ (texts parts ++ ')' :: rest) =
        f'.text ++ (texts parts' ++ ')' :: rest') := by
      simpa [texts] using h
    obtain ⟨rfl, hmore⟩ := text_inj (ends_texts parts rest) (ends_texts parts' rest') f f'
      hparts.1 hparts'.1 hbehind
    obtain ⟨rfl, hrests⟩ := texts_inj parts parts' hparts.2 hparts'.2 hmore
    exact ⟨rfl, hrests⟩

end

end Form

-- ---------------------------------------------------------------------------
-- The forms of trees
-- ---------------------------------------------------------------------------

mutual

def Expr.form : Expr → Form
  | .literal value => .word value.outline
  | .group inner => .node "group" [inner.form]
  | .unary op right => .node op.lexeme [right.form]
  | .binary op left right => .node op.lexeme [left.form, right.form]
  | .logical op left right => .node op.lexeme [left.form, right.form]
  | .conditional condition yes no => .node "?:" [condition.form, yes.form, no.form]
  | .var _ name => .word name.lexeme
  | .this _ _ => .word "this"
  | .assign _ name value => .node "=" [.word name.lexeme, value.form]
  | .call callee _ arguments => .node "call" (callee.form :: Expr.forms arguments)
  | .get object name => .node "." [object.form, .word name.lexeme]
  | .set object name value =>
    .node "=" [.node "." [object.form, .word name.lexeme], value.form]
  | .array elements => .node "array" (Expr.forms elements)
  | .index target _ position => .node "index" [target.form, position.form]

def Expr.forms : List Expr → List Form
  | [] => []
  | e :: rest => e.form :: Expr.forms rest

end

mutual

theorem Expr.outline_form : ∀ e : Expr, e.outline.toList = e.form.text
  | .literal value => rfl
  | .group inner => by
    simp [Expr.outline, Expr.form, Form.text, Form.texts, Expr.outline_form inner]
  | .unary op right => by
    simp [Expr.outline, Expr.form, Form.text, Form.texts, Expr.outline_form right]
  | .binary op left right => by
    simp [Expr.outline, Expr.form, Form.text, Form.texts, Expr.outline_form left,
      Expr.outline_form right]
  | .logical op left right => by
    simp [Expr.outline, Expr.form, Form.text, Form.texts, Expr.outline_form left,
      Expr.outline_form right]
  | .conditional condition yes no => by
    simp [Expr.outline, Expr.form, Form.text, Form.texts, Expr.outline_form condition,
      Expr.outline_form yes, Expr.outline_form no]
  | .var _ name => rfl
  | .this _ _ => rfl
  | .assign _ name value => by
    simp [Expr.outline, Expr.form, Form.text, Form.texts, Expr.outline_form value]
  | .call callee _ arguments => by
    simp [Expr.outline, Expr.form, Form.text, Form.texts, Expr.outline_form callee,
      Expr.outlines_forms arguments]
  | .get object name => by
    simp [Expr.outline, Expr.form, Form.text, Form.texts, Expr.outline_form object]
  | .set object name value => by
    simp [Expr.outline, Expr.form, Form.text, Form.texts, Expr.outline_form object,
      Expr.outline_form value]
  | .array elements => by
    simp [Expr.outline, Expr.form, Form.text, Expr.outlines_forms elements]
  | .index target _ position => by
    simp [Expr.outline, Expr.form, Form.text, Form.texts, Expr.outline_form target,
      Expr.outline_form position]

theorem Expr.outlines_forms :
    ∀ es : List Expr, (Expr.outlines es).toList = Form.texts (Expr.forms es)
  | [] => rfl
  | e :: rest => by
    simp [Expr.outlines, Expr.forms, Form.texts, Expr.outline_form e, Expr.outlines_forms rest]

end

-- ---------------------------------------------------------------------------
-- Trees without places
-- ---------------------------------------------------------------------------

/-- The token, with its line taken away. -/
def Token.lineless (t : Token) : Token :=
  { t with line := 0 }

@[simp] theorem Token.lineless_kind (t : Token) : t.lineless.kind = t.kind := rfl

mutual

/-- The expression, with the identities of its nodes and the lines of its tokens taken away. -/
def Expr.placeless : Expr → Expr
  | .literal value => .literal value
  | .group inner => .group inner.placeless
  | .unary op right => .unary op.lineless right.placeless
  | .binary op left right => .binary op.lineless left.placeless right.placeless
  | .logical op left right => .logical op.lineless left.placeless right.placeless
  | .conditional condition yes no =>
    .conditional condition.placeless yes.placeless no.placeless
  | .var _ name => .var 0 name.lineless
  | .this _ keyword => .this 0 keyword.lineless
  | .assign _ name value => .assign 0 name.lineless value.placeless
  | .call callee paren arguments =>
    .call callee.placeless paren.lineless (Expr.placelessAll arguments)
  | .get object name => .get object.placeless name.lineless
  | .set object name value => .set object.placeless name.lineless value.placeless
  | .array elements => .array (Expr.placelessAll elements)
  | .index target bracket position =>
    .index target.placeless bracket.lineless position.placeless

def Expr.placelessAll : List Expr → List Expr
  | [] => []
  | e :: rest => e.placeless :: Expr.placelessAll rest

end

mutual

theorem Expr.form_placeless : ∀ e : Expr, e.placeless.form = e.form
  | .literal _ | .var _ _ | .this _ _ => rfl
  | .group inner => by rw [placeless, form, form, form_placeless inner]
  | .unary _ right => by
    rw [placeless, form, form, form_placeless right]
    rfl
  | .binary _ left right | .logical _ left right => by
    rw [placeless, form, form, form_placeless left, form_placeless right]
    rfl
  | .conditional condition yes no => by
    rw [placeless, form, form, form_placeless condition, form_placeless yes, form_placeless no]
  | .assign _ _ value => by
    rw [placeless, form, form, form_placeless value]
    rfl
  | .call callee _ arguments => by
    rw [placeless, form, form, form_placeless callee, forms_placelessAll arguments]
  | .get object _ => by
    rw [placeless, form, form, form_placeless object]
    rfl
  | .set object _ value => by
    rw [placeless, form, form, form_placeless object, form_placeless value]
    rfl
  | .array elements => by rw [placeless, form, form, forms_placelessAll elements]
  | .index target _ position => by
    rw [placeless, form, form, form_placeless target, form_placeless position]

theorem Expr.forms_placelessAll : ∀ es : List Expr,
    Expr.forms (Expr.placelessAll es) = Expr.forms es
  | [] => rfl
  | e :: rest => by rw [placelessAll, forms, forms, form_placeless e, forms_placelessAll rest]

end

/-- Places do not show in an outline. -/
theorem Expr.outline_placeless (e : Expr) : e.placeless.outline = e.outline :=
  String.toList_injective (by rw [outline_form, outline_form, form_placeless])

-- ---------------------------------------------------------------------------
-- Forms read back
-- ---------------------------------------------------------------------------

/-- The token that a word is. -/
def wordToken (w : String) : Token :=
  match Lexer.scan (Text.Utf8.encode w) with
  | .ok (t :: _) => t.lineless
  | _ => Token.finish 0

/-- The tree of a word that is no head. -/
def Token.leaf (t : Token) : Expr :=
  match t.kind with
  | .number value => .literal (.number value)
  | .kwTrue => .literal (.bool true)
  | .kwFalse => .literal (.bool false)
  | .kwNil => .literal .nil
  | .kwThis => .this 0 t
  | _ => .var 0 t

/-- The tree of a head that is an operator between two operands. -/
def Token.between (op : Token) (left right : Expr) : Expr :=
  if op.kind = .kwAnd ∨ op.kind = .kwOr then .logical op left right else .binary op left right

namespace Form

/-- The heads that are no operators. -/
def heads : List String :=
  ["group", "?:", "=", ".", "call", "array", "index"]

/-- The tree of a head, with the trees of its parts. -/
def join : String → List Expr → Expr
  | "group", [inner] => .group inner
  | "?:", [condition, yes, no] => .conditional condition yes no
  | "=", [.var _ name, value] => .assign 0 name value
  | "=", [.get object name, value] => .set object name value
  | ".", [object, .var _ name] => .get object name
  | "call", callee :: arguments => .call callee ⟨.rightParen, ")", 0⟩ arguments
  | "array", elements => .array elements
  | "index", [target, position] => .index target ⟨.rightBracket, "]", 0⟩ position
  | op, [right] => .unary (wordToken op) right
  | op, [left, right] => (wordToken op).between left right
  | _, _ => .literal .nil

mutual

def tree : Form → Expr
  | .word w => (wordToken w).leaf
  | .node head parts => join head (trees parts)

def trees : List Form → List Expr
  | [] => []
  | f :: rest => f.tree :: trees rest

end

theorem join_unary (h : head ∉ heads) (right : Expr) :
    join head [right] = .unary (wordToken head) right := by
  simp only [heads, List.mem_cons, List.not_mem_nil, or_false, not_or] at h
  simp [join, h]

theorem join_between (h : head ∉ heads) (left right : Expr) :
    join head [left, right] = (wordToken head).between left right := by
  simp only [heads, List.mem_cons, List.not_mem_nil, or_false, not_or] at h
  simp [join, h]

end Form

-- ---------------------------------------------------------------------------
-- The words of tokens
-- ---------------------------------------------------------------------------

namespace Lexer

theorem Lexeme.stands_last (h : Lexeme kind span) : Stands (.token kind) span [] := by
  refine .token h (fun hcomment => ?_) fun other more left hleft _ =>
    (List.append_eq_nil_iff.1 hleft.symm).1
  have hblank : isBlank 32 = true := rfl
  refine h.not_comment hblank [] ?_
  rw [List.append_nil] at hcomment
  match span, hcomment with
  | a :: b :: more, hcomment => exact hcomment

theorem scan_lexeme (h : Lexeme kind span) : ∃ line last,
    scan span = .ok [⟨kind, Text.Utf8.lossy span, line⟩, Token.finish last] := by
  have hitems := itemsFrom_token h.stands_last 1
  rw [List.append_nil] at hitems
  refine ⟨1 + newlines span, 1 + newlines span, ?_⟩
  rw [scan, items, hitems, itemsFrom]
  rfl

end Lexer

open Lexer

/-- The token can have been cut from a source. -/
def Token.Cut (t : Token) : Prop :=
  ∃ span, Lexeme t.kind span ∧ t.lexeme = Text.Utf8.lossy span

theorem Token.cut_of_scan {tokens : List Token} (h : scan source = .ok tokens) :
    ∃ body last, tokens = body ++ [Token.finish last] ∧ ∀ t ∈ body, t.Cut := by
  obtain ⟨pieces, hcuts, hitems⟩ := itemsFrom_cuts 1 source
  exact hcuts.lexemes (hitems.symm.trans (mapM_id_ok h))

namespace Token.Cut

variable {t : Token}

theorem ne_endOfInput (h : t.Cut) : t.kind ≠ .endOfInput := by
  obtain ⟨span, hlexeme, -⟩ := h
  exact hlexeme.ne_endOfInput

/-- The text of a token is read as the token. -/
theorem wordToken_eq (h : t.Cut) : wordToken t.lexeme = t.lineless := by
  obtain ⟨span, hlexeme, htext⟩ := h
  obtain ⟨line, last, hscan⟩ := scan_lexeme hlexeme.rewritten
  rw [wordToken, htext, hscan, Text.Utf8.lossy_encode]
  dsimp only
  rw [lineless, lineless, htext]

/-- A token whose kind has fixed spellings has one of them. -/
theorem spelled (h : t.Cut) (hfixed : t.kind.spellings ≠ []) : t.lexeme ∈ t.kind.spellings := by
  obtain ⟨span, hlexeme, htext⟩ := h
  obtain ⟨opening, contents, closing, -, -, -, -, hkind⟩ | hascii := hlexeme.text_or_ascii
  · exact absurd (by rw [hkind]; rfl) hfixed
  · rw [htext, Text.Utf8.lossy_ascii hascii]
    generalize t.kind = kind at hlexeme hfixed ⊢
    cases hlexeme with
    | fixed h => exact h
    | identifier | text => exact absurd rfl hfixed
    | number h => cases h <;> exact absurd rfl hfixed

theorem solid_identifier (h : t.Cut) (hkind : t.kind = .identifier) : Form.Solid t.lexeme := by
  obtain ⟨span, hlexeme, htext⟩ := h
  rw [hkind] at hlexeme
  have hne := hlexeme.ne_nil
  have hword : ∀ b ∈ span, isWordPart b = true := by
    generalize hidentifier : Kind.identifier = kind at hlexeme
    cases hlexeme with
    | fixed h => subst hidentifier; cases h
    | identifier hfirst hrest => exact List.forall_mem_cons.2 ⟨isWordStart_part hfirst, hrest⟩
    | number h => cases h <;> cases hidentifier
    | text => cases hidentifier
  rw [htext, lossy_word hword, Form.Solid, String.toList_ofList]
  refine ⟨fun h => hne (List.map_eq_nil_iff.1 h), List.forall_mem_map.2 fun b hb hbound => ?_⟩
  have hpart := hword b hb
  simp only [Form.bounds, List.mem_cons, List.not_mem_nil, or_false] at hbound
  rw [isWordPart, isWordStart, isDigit] at hpart
  obtain hbound | hbound | hbound := hbound <;>
    · rw [hbound] at hpart
      cases hpart

end Token.Cut

/-- A number is written in characters of a word. -/
theorem Number.Denotes.solid {text : List Char} (h : Denotes text q) :
    Form.Solid (String.ofList text) := by
  have hdigit {c : Char} (hc : c.isDigit = true) : c ∉ Form.bounds := by
    rintro hbound
    simp only [Form.bounds, List.mem_cons, List.not_mem_nil, or_false] at hbound
    obtain rfl | rfl | rfl := hbound <;> cases hc
  rw [Form.Solid, String.toList_ofList]
  cases h with
  | whole hne hdigits => exact ⟨hne, fun c hc => hdigit (hdigits c hc)⟩
  | point hne hdigits _ hdecimals =>
    refine ⟨by simp, List.forall_mem_append.2 ⟨fun c hc => hdigit (hdigits c hc), ?_⟩⟩
    exact List.forall_mem_cons.2 ⟨by decide, fun c hc => hdigit (hdecimals c hc)⟩

/-- What is written for a literal is a word, and is read as the literal. -/
structure Literal.Written (value : Literal) : Prop where
  solid : Form.Solid value.outline
  leaf : (wordToken value.outline).leaf = .literal value

theorem Literal.written_number (hx : Number.Binary.ofFloat x = .finite false m e) :
    (Literal.number x).Written where
  solid := by
    obtain ⟨text, q, htext, hdenotes, -⟩ := Number.Style.outlined_plain.write hx
    have hoverall : (Literal.number x).outline = String.ofList text :=
      htext.trans String.empty_append
    rw [hoverall]
    exact hdenotes.solid
  leaf := by
    have hscan := (Number.Style.outlined_plain.scanned hx).1
    rw [wordToken, show (Literal.number x).outline = Number.Style.outlined.write x from rfl, hscan]
    rfl

theorem Literal.written_bool (value : Bool) : (Literal.bool value).Written := by
  cases value with
  | true => exact ⟨by simp [Literal.outline, Form.Solid, Form.bounds], by decide +kernel⟩
  | false => exact ⟨by simp [Literal.outline, Form.Solid, Form.bounds], by decide +kernel⟩

theorem Literal.written_nil : Literal.nil.Written :=
  ⟨by simp [Literal.outline, Form.Solid, Form.bounds], by decide +kernel⟩

mutual

/-- The literals of an expression. -/
def Expr.literals : Expr → List Literal
  | .literal value => [value]
  | .group inner => inner.literals
  | .unary _ right => right.literals
  | .binary _ left right => left.literals ++ right.literals
  | .logical _ left right => left.literals ++ right.literals
  | .conditional condition yes no => condition.literals ++ (yes.literals ++ no.literals)
  | .var _ _ => []
  | .this _ _ => []
  | .assign _ _ value => value.literals
  | .call callee _ arguments => callee.literals ++ Expr.literalsOfAll arguments
  | .get object _ => object.literals
  | .set object _ value => object.literals ++ value.literals
  | .array elements => Expr.literalsOfAll elements
  | .index target _ position => target.literals ++ position.literals

def Expr.literalsOfAll : List Expr → List Literal
  | [] => []
  | e :: rest => e.literals ++ Expr.literalsOfAll rest

end

-- ---------------------------------------------------------------------------
-- Trees that are read back
-- ---------------------------------------------------------------------------

/-- A head that is an operator. -/
structure Form.Operator (w : String) : Prop where
  solid : Form.Solid w
  other : w ∉ Form.heads

theorem operator_of_unary (h : Unary kind) :
    kind.spellings ≠ [] ∧ ∀ w ∈ kind.spellings, Form.Operator w := by
  cases h <;>
    exact ⟨by decide, List.forall_mem_singleton.2 ⟨by simp [Form.Solid, Form.bounds], by decide⟩⟩

theorem operator_of_binary (h : Binary level kind) :
    kind.spellings ≠ [] ∧ ∀ w ∈ kind.spellings, Form.Operator w := by
  cases h <;>
    exact ⟨by decide, List.forall_mem_singleton.2 ⟨by simp [Form.Solid, Form.bounds], by decide⟩⟩

theorem operator_of_logical (h : Logical level kind) :
    kind.spellings ≠ [] ∧ ∀ w ∈ kind.spellings, Form.Operator w := by
  cases h <;> refine ⟨by decide, List.forall_mem_cons.2 ⟨?_, List.forall_mem_singleton.2 ?_⟩⟩ <;>
    exact ⟨by simp [Form.Solid, Form.bounds], by decide⟩

theorem Token.Cut.operator {t : Token} (h : t.Cut)
    (hkind : t.kind.spellings ≠ [] ∧ ∀ w ∈ t.kind.spellings, Form.Operator w) :
    Form.Operator t.lexeme :=
  hkind.2 _ (h.spelled hkind.1)

/-- What a tree tells of one of its tokens can be read in its outline. -/
def Mark.Legible : Mark → Prop
  | .token t => t.Cut
  | .kind k => ∀ value : Literal, value.kind = k → value.Written

theorem mem_marks_all (h : e ∈ es) (hm : m ∈ e.marks) : m ∈ Expr.marksOfAll es := by
  induction es with
  | nil => cases h
  | cons first rest ih =>
    by_cases hrest : rest = []
    · subst hrest
      obtain rfl := List.mem_singleton.1 h
      exact hm
    · rw [Expr.marksOfAll_cons hrest]
      obtain rfl | h := List.mem_cons.1 h
      · exact List.mem_append_left _ hm
      · exact List.mem_append_right _ (List.mem_cons_of_mem _ (ih h))

/-- The form of the tree is made of words, and the tree is read back from it. -/
structure Expr.Told (e : Expr) : Prop where
  sound : e.form.Sound
  tree : e.form.tree = e.placeless

theorem told_all (h : ∀ e ∈ es, e.Told) : Form.AllSound (Expr.forms es) ∧
    Form.trees (Expr.forms es) = Expr.placelessAll es := by
  induction es with
  | nil => exact ⟨trivial, rfl⟩
  | cons e rest ih =>
    obtain ⟨he, hrest⟩ := List.forall_mem_cons.1 h
    refine ⟨⟨he.sound, (ih hrest).1⟩, ?_⟩
    rw [Expr.forms, Form.trees, Expr.placelessAll, he.tree, (ih hrest).2]

theorem Form.solid_of_head : ∀ head ∈ Form.heads, Form.Solid head := by
  simp [Form.heads, Form.Solid, Form.bounds]

/-- A token of a kind with one spelling. -/
theorem Token.Cut.lineless_eq {t : Token} {k : Kind} (h : t.Cut) (hkind : t.kind = k)
    (hone : k.spellings = [w]) : t.lineless = ⟨k, w, 0⟩ := by
  have hspelled := h.spelled (by rw [hkind, hone]; exact List.cons_ne_nil _ _)
  rw [hkind, hone, List.mem_singleton] at hspelled
  rw [lineless, hkind, hspelled]

namespace Expr.Told

variable {t : Token} {left right : Expr}

theorem literal {value : Literal} (h : value.Written) : (Expr.literal value).Told :=
  ⟨h.solid, h.leaf⟩

theorem var (h : t.Cut) (hname : t.kind = .identifier) (node : NodeId) :
    (Expr.var node t).Told where
  sound := h.solid_identifier hname
  tree := by
    rw [form, Form.tree, h.wordToken_eq, Token.leaf, placeless]
    simp only [Token.lineless, hname]

theorem unary (h : t.Cut) (hop : Unary t.kind) (hright : right.Told) :
    (Expr.unary t right).Told := by
  have hoperator := h.operator (operator_of_unary hop)
  refine ⟨⟨hoperator.solid, hright.sound, trivial⟩, ?_⟩
  rw [form, Form.tree, Form.trees, Form.trees, Form.join_unary hoperator.other, h.wordToken_eq,
    hright.tree, placeless]

theorem binary (h : t.Cut) (hop : Binary level t.kind) (hleft : left.Told) (hright : right.Told) :
    (Expr.binary t left right).Told := by
  have hoperator := h.operator (operator_of_binary hop)
  refine ⟨⟨hoperator.solid, hleft.sound, hright.sound, trivial⟩, ?_⟩
  have hkind : ¬ (t.kind = .kwAnd ∨ t.kind = .kwOr) := by
    generalize t.kind = kind at hop
    cases hop <;> decide
  rw [form, Form.tree, Form.trees, Form.trees, Form.trees, Form.join_between hoperator.other,
    h.wordToken_eq, hleft.tree, hright.tree, Token.between, Token.lineless_kind,
    if_neg hkind, placeless]

theorem logical (h : t.Cut) (hop : Logical level t.kind) (hleft : left.Told)
    (hright : right.Told) : (Expr.logical t left right).Told := by
  have hoperator := h.operator (operator_of_logical hop)
  refine ⟨⟨hoperator.solid, hleft.sound, hright.sound, trivial⟩, ?_⟩
  have hkind : t.kind = .kwAnd ∨ t.kind = .kwOr := by
    generalize t.kind = kind at hop
    cases hop <;> decide
  rw [form, Form.tree, Form.trees, Form.trees, Form.trees, Form.join_between hoperator.other,
    h.wordToken_eq, hleft.tree, hright.tree, Token.between, Token.lineless_kind,
    if_pos hkind, placeless]

theorem conditional {condition yes no : Expr} (hcondition : condition.Told) (hyes : yes.Told)
    (hno : no.Told) : (Expr.conditional condition yes no).Told where
  sound := ⟨Form.solid_of_head _ (by decide), hcondition.sound, hyes.sound, hno.sound, trivial⟩
  tree := by
    rw [form, Form.tree, Form.trees, Form.trees, Form.trees, Form.trees, hcondition.tree, hyes.tree,
      hno.tree, placeless]
    rfl

theorem group (h : right.Told) : (Expr.group right).Told where
  sound := ⟨Form.solid_of_head _ (by decide), h.sound, trivial⟩
  tree := by
    rw [form, Form.tree, Form.trees, Form.trees, h.tree, placeless]
    rfl

theorem assign (h : t.Cut) (hname : t.kind = .identifier) (hright : right.Told) (node : NodeId) :
    (Expr.assign node t right).Told := by
  have hvar := var h hname node
  refine ⟨⟨Form.solid_of_head _ (by decide), hvar.sound, hright.sound, trivial⟩, ?_⟩
  rw [form, Form.tree, Form.trees, Form.trees, Form.trees, hright.tree,
    show (Form.word t.lexeme).tree = _ from hvar.tree, placeless, placeless]
  rfl

theorem get (h : t.Cut) (hname : t.kind = .identifier) (hleft : left.Told) :
    (Expr.get left t).Told := by
  have hvar := var h hname 0
  refine ⟨⟨Form.solid_of_head _ (by decide), hleft.sound, hvar.sound, trivial⟩, ?_⟩
  rw [form, Form.tree, Form.trees, Form.trees, Form.trees, hleft.tree,
    show (Form.word t.lexeme).tree = _ from hvar.tree, placeless, placeless]
  rfl

theorem set (h : t.Cut) (hname : t.kind = .identifier) (hleft : left.Told) (hright : right.Told) :
    (Expr.set left t right).Told := by
  have hget := get h hname hleft
  refine ⟨⟨Form.solid_of_head _ (by decide), hget.sound, hright.sound, trivial⟩, ?_⟩
  rw [form, Form.tree, Form.trees, Form.trees, Form.trees, hright.tree,
    show (Form.node "." [left.form, .word t.lexeme]).tree = _ from hget.tree, placeless, placeless]
  rfl

theorem this (h : t.Cut) (hkeyword : t.kind = .kwThis) (node : NodeId) :
    (Expr.this node t).Told where
  sound := by simp [form, Form.Sound, Form.Solid, Form.bounds]
  tree := by
    rw [placeless, h.lineless_eq hkeyword rfl, form, Form.tree]
    decide +kernel

theorem call {callee : Expr} {arguments : List Expr} (h : t.Cut) (hparen : t.kind = .rightParen)
    (hcallee : callee.Told) (harguments : ∀ e ∈ arguments, e.Told) :
    (Expr.call callee t arguments).Told := by
  obtain ⟨hsound, htrees⟩ := told_all harguments
  refine ⟨⟨Form.solid_of_head _ (by decide), hcallee.sound, hsound⟩, ?_⟩
  rw [form, Form.tree, Form.trees, hcallee.tree, htrees, placeless, h.lineless_eq hparen rfl]
  rfl

theorem array {elements : List Expr} (helements : ∀ e ∈ elements, e.Told) :
    (Expr.array elements).Told := by
  obtain ⟨hsound, htrees⟩ := told_all helements
  refine ⟨⟨Form.solid_of_head _ (by decide), hsound⟩, ?_⟩
  rw [form, Form.tree, htrees, placeless]
  rfl

theorem index (h : t.Cut) (hbracket : t.kind = .rightBracket) (hleft : left.Told)
    (hright : right.Told) : (Expr.index left t right).Told where
  sound := ⟨Form.solid_of_head _ (by decide), hleft.sound, hright.sound, trivial⟩
  tree := by
    rw [form, Form.tree, Form.trees, Form.trees, Form.trees, hleft.tree, hright.tree, placeless,
      h.lineless_eq hbracket rfl]
    rfl

end Expr.Told

/-- A tree of the grammar is read back from its form. -/
theorem Derives.told (h : Derives level e) (hlegible : ∀ m ∈ e.marks, m.Legible) : e.Told := by
  induction h with
  | tighter _ _ ih => exact ih hlegible
  | literal => exact .literal (hlegible (.kind _) (by simp [Expr.marks]) _ rfl)
  | var hname => exact .var (hlegible (.token _) (by simp [Expr.marks])) hname _
  | this hkeyword => exact .this (hlegible (.token _) (by simp [Expr.marks])) hkeyword _
  | group _ ih => exact .group (ih fun m hm => hlegible m (by simp [Expr.marks, hm]))
  | unary hop _ ih =>
    have hright := ih fun m hm => hlegible m (by simp [Expr.marks, hm])
    exact .unary (hlegible (.token _) (by simp [Expr.marks])) hop hright
  | binary hop _ _ _ ih ih' =>
    have hleft := ih fun m hm => hlegible m (by simp [Expr.marks, hm])
    have hright := ih' fun m hm => hlegible m (by simp [Expr.marks, hm])
    exact .binary (hlegible (.token _) (by simp [Expr.marks])) hop hleft hright
  | logical hop _ _ _ ih ih' =>
    have hleft := ih fun m hm => hlegible m (by simp [Expr.marks, hm])
    have hright := ih' fun m hm => hlegible m (by simp [Expr.marks, hm])
    exact .logical (hlegible (.token _) (by simp [Expr.marks])) hop hleft hright
  | conditional _ _ _ ih ih' ih'' =>
    have hcondition := ih fun m hm => hlegible m (by simp [Expr.marks, hm])
    have hyes := ih' fun m hm => hlegible m (by simp [Expr.marks, hm])
    have hno := ih'' fun m hm => hlegible m (by simp [Expr.marks, hm])
    exact .conditional hcondition hyes hno
  | assign hname _ ih =>
    have hvalue := ih fun m hm => hlegible m (by simp [Expr.marks, hm])
    exact .assign (hlegible (.token _) (by simp [Expr.marks])) hname hvalue _
  | set _ hname _ ih ih' =>
    have hobject := ih fun m hm => hlegible m (by simp [Expr.marks, hm])
    have hvalue := ih' fun m hm => hlegible m (by simp [Expr.marks, hm])
    exact .set (hlegible (.token _) (by simp [Expr.marks])) hname hobject hvalue
  | get _ hname ih =>
    have hobject := ih fun m hm => hlegible m (by simp [Expr.marks, hm])
    exact .get (hlegible (.token _) (by simp [Expr.marks])) hname hobject
  | call _ _ _ hparen ih ih' =>
    have hcallee := ih fun m hm => hlegible m (by simp [Expr.marks, hm])
    refine .call (hlegible (.token _) (by simp [Expr.marks])) hparen hcallee fun e he => ?_
    exact ih' e he fun m hm => hlegible m (by simp [Expr.marks, mem_marks_all he hm])
  | array _ _ ih =>
    refine .array fun e he => ?_
    exact ih e he fun m hm => hlegible m (by simp [Expr.marks, mem_marks_all he hm])
  | index _ _ hbracket ih ih' =>
    have htarget := ih fun m hm => hlegible m (by simp [Expr.marks, hm])
    have hposition := ih' fun m hm => hlegible m (by simp [Expr.marks, hm])
    exact .index (hlegible (.token _) (by simp [Expr.marks])) hbracket htarget hposition

-- ---------------------------------------------------------------------------
-- Literals
-- ---------------------------------------------------------------------------

/-- The kinds that a tree tells of without a token and that are those of no literal. -/
@[grind =] def Kind.separates : Kind → Bool
  | .leftParen | .rightParen | .leftBracket | .rightBracket | .question | .colon | .equal | .dot
  | .comma => true
  | _ => false

theorem Literal.not_separates (value : Literal) : value.kind.separates = false := by
  cases value with
  | bool value => cases value <;> rfl
  | _ => rfl

theorem Literal.kind_injective {value value' : Literal} (h : value.kind = value'.kind) :
    value = value' := by
  rcases value with _ | _ | (_ | _) | _ <;> rcases value' with _ | _ | (_ | _) | _ <;>
    cases h <;> rfl

section
variable {k : Kind} (hk : k.separates = false)
include hk

mutual

theorem literal_of_mark : ∀ e : Expr, .kind k ∈ e.marks → ∃ value ∈ e.literals, value.kind = k
  | .literal value, h => by
    grind [Expr.marks, Expr.literals]
  | .group inner, h => by
    have := literal_of_mark inner
    grind [Expr.marks, Expr.literals]
  | .unary op right, h => by
    have := literal_of_mark right
    grind [Expr.marks, Expr.literals]
  | .binary op left right, h | .logical op left right, h => by
    have := literal_of_mark left
    have := literal_of_mark right
    grind [Expr.marks, Expr.literals]
  | .conditional condition yes no, h => by
    have := literal_of_mark condition
    have := literal_of_mark yes
    have := literal_of_mark no
    grind [Expr.marks, Expr.literals]
  | .var _ name, h | .this _ name, h => by
    grind [Expr.marks]
  | .assign _ name value, h => by
    have := literal_of_mark value
    grind [Expr.marks, Expr.literals]
  | .call callee paren arguments, h => by
    have := literal_of_mark callee
    have := literal_of_mark_all arguments
    grind [Expr.marks, Expr.literals]
  | .get object name, h => by
    have := literal_of_mark object
    grind [Expr.marks, Expr.literals]
  | .set object name value, h => by
    have := literal_of_mark object
    have := literal_of_mark value
    grind [Expr.marks, Expr.literals]
  | .array elements, h => by
    have := literal_of_mark_all elements
    grind [Expr.marks, Expr.literals]
  | .index target bracket position, h => by
    have := literal_of_mark target
    have := literal_of_mark position
    grind [Expr.marks, Expr.literals]

theorem literal_of_mark_all : ∀ es : List Expr, .kind k ∈ Expr.marksOfAll es →
    ∃ value ∈ Expr.literalsOfAll es, value.kind = k
  | [], h => by
    cases h
  | [e], h => by
    have := literal_of_mark e
    grind [Expr.marksOfAll, Expr.literalsOfAll]
  | e :: next :: rest, h => by
    have := literal_of_mark e
    have := literal_of_mark_all (next :: rest)
    grind [Expr.marksOfAll, Expr.literalsOfAll]

end

end

/-- Rounding gives a number without sign, or what is too large for one. -/
theorem Number.ofFloat_nearest_cases (numerator denominator : Nat) :
    Binary.ofFloat (nearest false numerator denominator) = .infinite false ∨
      ∃ m e, Binary.ofFloat (nearest false numerator denominator) = .finite false m e := by
  have hle := nearestBits_le numerator denominator
  have hbits := toBits_nearest false numerator denominator
  rw [signed_false] at hbits
  have hsign : decide ((nearest false numerator denominator).toBits.toNat / 2 ^ 63 = 1) = false :=
    decide_eq_false (by rw [hbits]; omega)
  unfold Binary.ofFloat
  simp only [hsign]
  rw [hbits]
  split_ifs with hfield hfraction
  · exact .inl rfl
  · omega
  · exact .inr ⟨_, _, rfl⟩
  · exact .inr ⟨_, _, rfl⟩

/-- The literal is no text and no infinite number. -/
def Literal.Plain : Literal → Prop
  | .text _ => False
  | .number x => ∀ negative, Number.Binary.ofFloat x ≠ .infinite negative
  | .bool _ => True
  | .nil => True

theorem Literal.Plain.written {value : Literal} {t : Token} (h : value.Plain) (ht : t.Cut)
    (hkind : t.kind = value.kind) : value.Written := by
  cases value with
  | number x =>
    obtain ⟨span, hlexeme, -⟩ := ht
    rw [hkind] at hlexeme
    obtain ⟨n, d, rfl⟩ := hlexeme.eq_nearest
    obtain hinfinite | ⟨m, e, hfinite⟩ := Number.ofFloat_nearest_cases n d
    · exact (h false hinfinite).elim
    · exact Literal.written_number hfinite
  | text contents => exact h.elim
  | bool value => exact Literal.written_bool value
  | nil => exact Literal.written_nil

-- ---------------------------------------------------------------------------
-- Expressions of a source
-- ---------------------------------------------------------------------------

theorem Written.fits (h : Written marks tokens) (hm : m ∈ marks) : ∃ t ∈ tokens, m.Fits t := by
  induction h with
  | nil => cases hm
  | @cons _ t _ _ hfits _ ih =>
    obtain rfl | hm := List.mem_cons.1 hm
    · exact ⟨t, List.mem_cons_self, hfits⟩
    · obtain ⟨u, hu, hfits⟩ := ih hm
      exact ⟨u, List.mem_cons_of_mem _ hu, hfits⟩

/-- The expression is what some source is read as. -/
def Expr.IsRead (e : Expr) : Prop :=
  ∃ source tokens start, scan source = .ok tokens ∧ (Parser.loneExpression tokens start).1 = .ok e

theorem Expr.IsRead.told {e : Expr} (h : e.IsRead) (hplain : ∀ value ∈ e.literals, value.Plain) :
    e.Told := by
  obtain ⟨source, tokens, start, hscan, hread⟩ := h
  obtain ⟨body, last, rfl, hbody⟩ := Token.cut_of_scan hscan
  have hphrase : Phrase .assignment e body :=
    Parser.loneExpression_phrase (fun t ht => (hbody t ht).ne_endOfInput) rfl hread
  refine hphrase.derives.told fun m hm => ?_
  obtain ⟨t, ht, hfits⟩ := hphrase.written.fits hm
  cases m with
  | token u =>
    obtain rfl : t = u := hfits
    exact hbody t ht
  | kind k =>
    rintro value rfl
    obtain ⟨value', hvalue', hkind⟩ := literal_of_mark value.not_separates e hm
    obtain rfl := Literal.kind_injective hkind
    exact (hplain _ hvalue').written (hbody t ht) hfits

/-- Take two expressions that were read from sources, with no text and no infinite number among
their literals. They have the same outline just if they are the same tree, with the same operators,
names and literals in the same order and inside one another in the same way; only the places in the
source and the numbers of the nodes may be others. -/
theorem outlines_determine_trees {e e' : Expr} (h : e.IsRead) (h' : e'.IsRead)
    (hplain : ∀ value ∈ e.literals, value.Plain) (hplain' : ∀ value ∈ e'.literals, value.Plain) :
    e.outline = e'.outline ↔ e.placeless = e'.placeless := by
  have htold := h.told hplain
  have htold' := h'.told hplain'
  constructor
  · intro houtline
    have htext : e.form.text ++ [] = e'.form.text ++ [] := by
      rw [← e.outline_form, ← e'.outline_form, houtline]
    obtain ⟨hform, -⟩ := Form.text_inj (by simp [Form.Ends]) (by simp [Form.Ends]) e.form e'.form
      htold.sound htold'.sound htext
    rw [← htold.tree, ← htold'.tree, hform]
  · intro hplaceless
    rw [← e.outline_placeless, ← e'.outline_placeless, hplaceless]

-- A text shows no quotes.
example : (Expr.literal (.text "a")).outline = (Expr.var 0 ⟨.identifier, "a", 1⟩).outline := rfl

-- A call with an operator, in one line and in three.

def closeCall : Expr :=
  .assign 3 ⟨.identifier, "a", 1⟩ (.call (.var 1 ⟨.identifier, "f", 1⟩) ⟨.rightParen, ")", 1⟩
    [.unary ⟨.minus, "-", 1⟩ (.var 2 ⟨.identifier, "b", 1⟩), .literal .nil])

def wideCall : Expr :=
  .assign 3 ⟨.identifier, "a", 1⟩ (.call (.var 1 ⟨.identifier, "f", 2⟩) ⟨.rightParen, ")", 3⟩
    [.unary ⟨.minus, "-", 2⟩ (.var 2 ⟨.identifier, "b", 2⟩), .literal .nil])

/-- The tokens of either, with the lines of the call and of its last argument. -/
def callTokens (call last : Nat) : List Token :=
  [⟨.identifier, "a", 1⟩, ⟨.equal, "=", 1⟩, ⟨.identifier, "f", call⟩, ⟨.leftParen, "(", call⟩,
    ⟨.minus, "-", call⟩, ⟨.identifier, "b", call⟩, ⟨.comma, ",", call⟩, ⟨.kwNil, "nil", last⟩,
    ⟨.rightParen, ")", last⟩, .finish last]

/-- Both have the outline `(= a (call f (- b) nil))`, and are the same but for their places. -/
theorem spread_call_is_the_same :
    (closeCall.IsRead ∧ wideCall.IsRead) ∧
      (∀ value ∈ closeCall.literals ++ wideCall.literals, value.Plain) ∧
      closeCall.placeless = wideCall.placeless := by
  have hclose : closeCall.IsRead :=
    ⟨Text.Utf8.encode "a=f(-b,nil)", callTokens 1 1, 0, by decide +kernel, by decide +kernel⟩
  have hwide : wideCall.IsRead :=
    ⟨Text.Utf8.encode "a =\nf(- b,\nnil)", callTokens 2 3, 0, by decide +kernel,
      by decide +kernel⟩
  have hplain : ∀ value ∈ closeCall.literals ++ wideCall.literals, value.Plain := by
    simp [closeCall, wideCall, Expr.literals, Expr.literalsOfAll, Literal.Plain]
  obtain ⟨hplain₁, hplain₂⟩ := List.forall_mem_append.1 hplain
  have houtline : closeCall.outline = wideCall.outline := by decide +kernel
  exact ⟨⟨hclose, hwide⟩, hplain,
    (outlines_determine_trees hclose hwide hplain₁ hplain₂).1 houtline⟩

end Treewalk
