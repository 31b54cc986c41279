import Treewalk.Proofs.Bytes
import Treewalk.Token.Lexer

/-!
# What can be a token

Which bytes are a token of which kind, told apart from the way in which a source is cut. The first
byte of a token tells whether it is a word, a number, a text or a symbol, and the whole of it tells
its kind. The tokens of a text are texts.
-/

namespace Treewalk

/-- The spellings of the kinds that have fixed ones. -/
def Kind.spellings : Kind → List String
  | .leftParen => ["("]
  | .rightParen => [")"]
  | .leftBrace => ["\x7b"]
  | .rightBrace => ["\x7d"]
  | .leftBracket => ["["]
  | .rightBracket => ["]"]
  | .comma => [","]
  | .dot => ["."]
  | .minus => ["-"]
  | .plus => ["+"]
  | .semicolon => [";"]
  | .slash => ["/"]
  | .star => ["*"]
  | .percent => ["%"]
  | .bar => ["|"]
  | .caret => ["^"]
  | .question => ["?"]
  | .colon => [":"]
  | .bang => ["!"]
  | .bangEqual => ["!="]
  | .equal => ["="]
  | .equalEqual => ["=="]
  | .greater => [">"]
  | .greaterEqual => [">="]
  | .less => ["<"]
  | .lessEqual => ["<="]
  | .kwAnd => ["and", "&&"]
  | .kwBreak => ["break"]
  | .kwClass => ["class"]
  | .kwElse => ["else"]
  | .kwExport => ["export"]
  | .kwFalse => ["false"]
  | .kwFun => ["fun"]
  | .kwFor => ["for"]
  | .kwIf => ["if"]
  | .kwImport => ["import"]
  | .kwNil => ["nil"]
  | .kwOr => ["or", "||"]
  | .kwPrint => ["print"]
  | .kwReturn => ["return"]
  | .kwSuper => ["super"]
  | .kwThis => ["this"]
  | .kwTrue => ["true"]
  | .kwVar => ["var"]
  | .kwWhile => ["while"]
  | .identifier | .text _ | .number _ | .endOfInput => []

namespace Lexer

-- ---------------------------------------------------------------------------
-- Spans that are tokens
-- ---------------------------------------------------------------------------

def Spelled (kind : Kind) (span : List UInt8) : Prop :=
  String.ofList (span.map asChar) ∈ kind.spellings

/-- Digits, and behind a point more digits. -/
inductive Numeral : Kind → List UInt8 → Prop
  | whole : digits ≠ [] → (∀ b ∈ digits, isDigit b = true) → Numeral (numberKind digits []) digits
  | fraction : digits ≠ [] → (∀ b ∈ digits, isDigit b = true) → asChar point = '.' →
    decimals ≠ [] → (∀ b ∈ decimals, isDigit b = true) →
    Numeral (numberKind digits decimals) (digits ++ point :: decimals)

/-- The span can be a token of the kind. -/
inductive Lexeme : Kind → List UInt8 → Prop
  | fixed : Spelled kind span → Lexeme kind span
  | identifier : isWordStart first = true → (∀ b ∈ rest, isWordPart b = true) →
    (∀ kind, ¬ Spelled kind (first :: rest)) → Lexeme .identifier (first :: rest)
  | number : Numeral kind span → Lexeme kind span
  | text : asChar opening = '"' → (∀ b ∈ contents, asChar b ≠ '"') → asChar closing = '"' →
    Lexeme (.text (Text.Utf8.lossy contents)) (opening :: (contents ++ [closing]))

-- ---------------------------------------------------------------------------
-- Classes of bytes
-- ---------------------------------------------------------------------------

theorem isWordStart_part (h : isWordStart b = true) : isWordPart b = true := by
  simp [isWordPart, h]

theorem asChar_toNat (b : UInt8) : (asChar b).val.toNat = b.toNat := by
  have hb := b.toNat_lt
  rw [asChar, Char.ofNat, dif_pos (.inl (by omega))]
  rfl

theorem isWordPart_ascii (h : isWordPart b = true) : b.toNat < 128 := by
  have hchar := asChar_toNat b
  simp only [isWordPart, isWordStart, isDigit, Char.isAlpha, Char.isUpper, Char.isLower,
    Char.isDigit, Bool.or_eq_true, Bool.and_eq_true, decide_eq_true_eq, beq_iff_eq,
    UInt32.le_iff_toNat_le, ge_iff_le, hchar] at h
  obtain ((h | h) | h) | h := h
  · exact h.2.trans_lt (by decide)
  · exact h.2.trans_lt (by decide)
  · rw [← hchar, h]
    decide
  · exact h.2.trans_lt (by decide)

/-- Bytes that begin neither a word nor a number, and no text. -/
structure Symbolic (c : Char) : Prop where
  word : (c.isAlpha || c == '_') = false
  digit : c.isDigit = false
  quote : c ≠ '"'
  blank : c ∉ [' ', '\r', '\t', '\n']

theorem single?_symbolic (h : single? c = some kind) : Symbolic c := by
  unfold single? at h
  split at h
  all_goals cases h
  all_goals exact ⟨rfl, rfl, by decide, by decide⟩

theorem double?_symbolic (h : double? c d = some kind) : Symbolic c := by
  unfold double? at h
  split at h
  all_goals cases h
  all_goals exact ⟨rfl, rfl, by decide, by decide⟩

theorem single?_spelled (h : single? (asChar b) = some kind) : Spelled kind [b] := by
  rw [Spelled, List.map_singleton]
  generalize asChar b = c at h
  unfold single? at h
  split at h <;> cases h <;> decide

theorem double?_spelled (h : double? (asChar a) (asChar b) = some kind) : Spelled kind [a, b] := by
  rw [Spelled, List.map_cons, List.map_singleton]
  generalize asChar a = c, asChar b = d at h
  unfold double? at h
  split at h <;> cases h <;> decide

theorem reserved_spelled : ∀ entry ∈ reserved, entry.1 ∈ entry.2.spellings := by
  decide

theorem reserved_lookup : ∀ entry ∈ reserved, reserved.lookup entry.1 = some entry.2 := by
  decide

theorem reserved_words (h : entry ∈ reserved) : ∃ cs, entry.1 = String.ofList cs ∧ cs ≠ [] ∧
    cs.all (fun c => c.isAlpha || c == '_') = true := by
  simp only [reserved, List.mem_cons, List.not_mem_nil, or_false] at h
  rcases h with rfl | rfl | rfl | rfl | rfl | rfl | rfl | rfl | rfl | rfl | rfl | rfl | rfl | rfl |
    rfl | rfl | rfl | rfl | rfl
  all_goals exact ⟨_, rfl, List.cons_ne_nil _ _, rfl⟩

theorem spellings_cases : ∀ kind : Kind, ∀ spelling ∈ kind.spellings,
    (spelling, kind) ∈ reserved ∨ (∃ c, spelling = String.ofList [c] ∧ single? c = some kind) ∨
      ∃ c d, spelling = String.ofList [c, d] ∧ double? c d = some kind := by
  intro kind spelling h
  cases kind
  all_goals simp only [Kind.spellings, List.mem_cons, List.not_mem_nil, or_false] at h
  case kwAnd | kwOr =>
    obtain rfl | rfl := h
    · exact .inl (by decide)
    · exact .inr (.inr ⟨_, _, rfl, rfl⟩)
  all_goals subst h
  all_goals first
    | exact .inl (by decide)
    | exact .inr (.inl ⟨_, rfl, rfl⟩)
    | exact .inr (.inr ⟨_, _, rfl, rfl⟩)

/-- The text of a word is its bytes as characters. -/
theorem lossy_word (h : ∀ b ∈ word, isWordPart b = true) :
    Text.Utf8.lossy word = String.ofList (word.map asChar) :=
  Text.Utf8.lossy_ascii fun b hb => isWordPart_ascii (h b hb)

theorem Spelled.cases (h : Spelled kind span) :
    (span ≠ [] ∧ (∀ b ∈ span, isWordStart b = true) ∧ wordKind span = kind) ∨
    (∃ b, span = [b] ∧ single? (asChar b) = some kind) ∨
    ∃ a b, span = [a, b] ∧ double? (asChar a) (asChar b) = some kind := by
  obtain hword | ⟨c, hspelling, hsingle⟩ | ⟨c, d, hspelling, hdouble⟩ := spellings_cases kind _ h
  · refine .inl ?_
    obtain ⟨cs, hcs, hne, hall⟩ := reserved_words hword
    have hspan : span.map asChar = cs := String.ofList_injective hcs
    have hstarts : ∀ b ∈ span, isWordStart b = true := fun b hb =>
      List.all_eq_true.1 hall _ (hspan ▸ List.mem_map_of_mem hb)
    refine ⟨fun hnil => hne (by rw [← hspan, hnil, List.map_nil]), hstarts, ?_⟩
    rw [wordKind, lossy_word fun b hb => isWordStart_part (hstarts b hb), reserved_lookup _ hword,
      Option.getD_some]
  · refine .inr (.inl ?_)
    have hspan : span.map asChar = [c] := String.ofList_injective hspelling
    obtain ⟨b, rfl, rfl⟩ := List.map_eq_singleton_iff.1 hspan
    exact ⟨b, rfl, hsingle⟩
  · refine .inr (.inr ?_)
    have hspan : span.map asChar = [c, d] := String.ofList_injective hspelling
    obtain ⟨a, rest, rfl, rfl, hrest⟩ := List.map_eq_cons_iff.1 hspan
    obtain ⟨b, rfl, rfl⟩ := List.map_eq_singleton_iff.1 hrest
    exact ⟨a, b, rfl, hdouble⟩

theorem wordKind_spelled (hword : ∀ b ∈ word, isWordPart b = true)
    (h : wordKind word ≠ .identifier) : Spelled (wordKind word) word := by
  rw [wordKind, lossy_word hword] at h ⊢
  cases hlookup : reserved.lookup (String.ofList (word.map asChar)) with
  | none => exact absurd (by rw [hlookup, Option.getD_none]) h
  | some kind =>
    obtain ⟨before, behind, hsplit, -⟩ := List.lookup_eq_some_iff.1 hlookup
    have hmem : (String.ofList (word.map asChar), kind) ∈ reserved := by simp [hsplit]
    exact reserved_spelled _ hmem

-- ---------------------------------------------------------------------------
-- What the first byte tells
-- ---------------------------------------------------------------------------

theorem isDigit_not_word (h : isDigit b = true) : isWordStart b = false := by
  have hchar := asChar_toNat b
  rw [Bool.eq_false_iff]
  intro hword
  simp only [isDigit, isWordStart, Char.isAlpha, Char.isUpper, Char.isLower, Char.isDigit,
    Bool.or_eq_true, Bool.and_eq_true, decide_eq_true_eq, beq_iff_eq, UInt32.le_iff_toNat_le,
    ge_iff_le, hchar] at h hword
  have hhigh : b.toNat ≤ 57 := h.2
  obtain (hword | hword) | hword := hword
  · have hlow : 65 ≤ b.toNat := hword.1
    omega
  · have hlow : 97 ≤ b.toNat := hword.1
    omega
  · have hlow : b.toNat = 95 := by rw [← hchar, hword]; rfl
    omega

theorem isBlank_iff : isBlank b = true ↔
    asChar b = ' ' ∨ asChar b = '\r' ∨ asChar b = '\t' ∨ asChar b = '\n' := by
  simp [isBlank]

theorem isWordPart_not_blank (h : isWordPart b = true) : isBlank b = false := by
  rw [Bool.eq_false_iff]
  intro hblank
  obtain hblank | hblank | hblank | hblank := isBlank_iff.1 hblank
  all_goals
    rw [isWordPart, isWordStart, isDigit, hblank] at h
    cases h

theorem quote_not_word (h : asChar b = '"') : isWordStart b = false := by
  rw [isWordStart, h]
  rfl

theorem quote_not_digit (h : asChar b = '"') : isDigit b = false := by
  rw [isDigit, h]
  rfl

theorem Numeral.begins (h : Numeral kind (first :: rest)) : isDigit first = true := by
  generalize hspan : first :: rest = span at h
  cases h with
  | whole hne hdigits => exact hdigits first (by simp [← hspan])
  | @fraction digits _ _ hne hdigits =>
    obtain _ | ⟨d, ds⟩ := digits
    · exact absurd rfl hne
    · cases hspan
      exact hdigits first (by simp)

theorem Numeral.ne_nil (h : Numeral kind span) : span ≠ [] := by
  cases h with
  | whole hne => exact hne
  | fraction hne => exact List.append_ne_nil_of_left_ne_nil hne _

theorem point_not_digit (h : asChar b = '.') : isDigit b = false := by
  rw [isDigit, h]
  rfl

/-- Two divisions at the first byte that is no digit are the same. -/
theorem split_digits (h : digits ++ b :: more = digits' ++ b' :: more')
    (hdigits : ∀ d ∈ digits, isDigit d = true) (hdigits' : ∀ d ∈ digits', isDigit d = true)
    (hb : isDigit b = false) (hb' : isDigit b' = false) :
    digits = digits' ∧ b = b' ∧ more = more' := by
  have htake := congrArg (List.takeWhile isDigit) h
  rw [List.takeWhile_append_of_pos hdigits, List.takeWhile_append_of_pos hdigits',
    List.takeWhile_cons_of_neg (by simp [hb]), List.takeWhile_cons_of_neg (by simp [hb']),
    List.append_nil, List.append_nil] at htake
  subst htake
  exact ⟨rfl, List.cons.inj (List.append_cancel_left h)⟩

/-- Behind its first digits, only a point and more digits go on with a number. -/
theorem Numeral.point (h : Numeral kind (digits ++ b :: more))
    (hdigits : ∀ d ∈ digits, isDigit d = true) (hb : isDigit b = false) :
    asChar b = '.' ∧ more ≠ [] ∧ (∀ d ∈ more, isDigit d = true) ∧
      kind = numberKind digits more := by
  generalize hspan : digits ++ b :: more = span at h
  cases h with
  | whole _ hall =>
    have hdigit := hall b (by simp [← hspan])
    rw [hb] at hdigit
    cases hdigit
  | fraction _ hdigits' hpoint hne hdecimals =>
    obtain ⟨rfl, rfl, rfl⟩ := split_digits hspan hdigits hdigits' hb (point_not_digit hpoint)
    exact ⟨hpoint, hne, hdecimals, rfl⟩

theorem Numeral.kind_eq (h : Numeral kind span) (h' : Numeral kind' span) : kind' = kind := by
  cases h with
  | whole _ hall =>
    cases h' with
    | whole => rfl
    | @fraction _ point _ _ _ hpoint =>
      have hdigit := hall point (by simp)
      rw [point_not_digit hpoint] at hdigit
      cases hdigit
  | fraction _ hdigits hpoint => exact (h'.point hdigits (point_not_digit hpoint)).2.2.2

namespace Lexeme

theorem ne_nil (h : Lexeme kind span) : span ≠ [] := by
  cases h with
  | fixed h =>
    obtain ⟨hne, -⟩ | ⟨b, rfl, -⟩ | ⟨a, b, rfl, -⟩ := h.cases
    · exact hne
    · exact List.cons_ne_nil _ _
    · exact List.cons_ne_nil _ _
  | number h => exact h.ne_nil
  | identifier | text => exact List.cons_ne_nil _ _

/-- Each token is a word, a number, a text or a symbol, and its first byte tells which. -/
theorem cases_first (h : Lexeme kind (first :: rest)) :
    (isWordStart first = true ∧ (∀ b ∈ rest, isWordPart b = true) ∧
      kind = wordKind (first :: rest)) ∨
    Numeral kind (first :: rest) ∨
    (asChar first = '"' ∧ ∃ contents closing, rest = contents ++ [closing] ∧
      (∀ b ∈ contents, asChar b ≠ '"') ∧ asChar closing = '"' ∧
      kind = .text (Text.Utf8.lossy contents)) ∨
    (Symbolic (asChar first) ∧ ((rest = [] ∧ single? (asChar first) = some kind) ∨
      ∃ second, rest = [second] ∧ double? (asChar first) (asChar second) = some kind)) := by
  cases h with
  | fixed h =>
    obtain ⟨-, hstarts, hkind⟩ | ⟨b, hspan, hsingle⟩ | ⟨a, b, hspan, hdouble⟩ := h.cases
    · refine .inl ⟨hstarts first (by simp), fun b hb => ?_, hkind.symm⟩
      exact isWordStart_part (hstarts b (by simp [hb]))
    · cases hspan
      exact .inr (.inr (.inr ⟨single?_symbolic hsingle, .inl ⟨rfl, hsingle⟩⟩))
    · cases hspan
      exact .inr (.inr (.inr ⟨double?_symbolic hdouble, .inr ⟨b, rfl, hdouble⟩⟩))
  | identifier hfirst hrest hnot =>
    refine .inl ⟨hfirst, hrest, ?_⟩
    by_contra hkind
    refine hnot _ (wordKind_spelled ?_ (Ne.symm hkind))
    exact List.forall_mem_cons.2 ⟨isWordStart_part hfirst, hrest⟩
  | number h => exact .inr (.inl h)
  | text hopening hcontents hclosing =>
    exact .inr (.inr (.inl ⟨hopening, _, _, rfl, hcontents, hclosing, rfl⟩))

theorem word (h : Lexeme kind (first :: rest)) (hfirst : isWordStart first = true) :
    (∀ b ∈ rest, isWordPart b = true) ∧ kind = wordKind (first :: rest) := by
  obtain ⟨-, h⟩ | h | ⟨h, -⟩ | ⟨h, -⟩ := h.cases_first
  · exact h
  · exact absurd hfirst (by rw [isDigit_not_word h.begins]; decide)
  · exact absurd hfirst (by rw [quote_not_word h]; decide)
  · exact absurd hfirst (by rw [isWordStart, h.word]; decide)

theorem numeral (h : Lexeme kind (first :: rest)) (hfirst : isDigit first = true) :
    Numeral kind (first :: rest) := by
  obtain ⟨h, -⟩ | h | ⟨h, -⟩ | ⟨h, -⟩ := h.cases_first
  · exact absurd h (by rw [isDigit_not_word hfirst]; decide)
  · exact h
  · exact absurd hfirst (by rw [quote_not_digit h]; decide)
  · exact absurd hfirst (by rw [isDigit, h.digit]; decide)

theorem quoted (h : Lexeme kind (first :: rest)) (hfirst : asChar first = '"') :
    ∃ contents closing, rest = contents ++ [closing] ∧ (∀ b ∈ contents, asChar b ≠ '"') ∧
      asChar closing = '"' ∧ kind = .text (Text.Utf8.lossy contents) := by
  obtain ⟨h, -⟩ | h | ⟨-, h⟩ | ⟨h, -⟩ := h.cases_first
  · exact absurd h (by rw [quote_not_word hfirst]; decide)
  · exact absurd h.begins (by rw [quote_not_digit hfirst]; decide)
  · exact h
  · exact absurd hfirst h.quote

theorem symbol (h : Lexeme kind (first :: rest)) (hword : isWordStart first = false)
    (hdigit : isDigit first = false) (hquote : asChar first ≠ '"') :
    (rest = [] ∧ single? (asChar first) = some kind) ∨
      ∃ second, rest = [second] ∧ double? (asChar first) (asChar second) = some kind := by
  obtain ⟨h, -⟩ | h | ⟨h, -⟩ | ⟨-, h⟩ := h.cases_first
  · exact absurd h (by rw [hword]; decide)
  · exact absurd h.begins (by rw [hdigit]; decide)
  · exact absurd h hquote
  · exact h

theorem not_blank (h : Lexeme kind (first :: rest)) : isBlank first = false := by
  obtain ⟨h, -⟩ | h | ⟨h, -⟩ | ⟨h, -⟩ := h.cases_first
  · exact isWordPart_not_blank (isWordStart_part h)
  · exact isWordPart_not_blank (by simp [isWordPart, h.begins])
  · simp [isBlank, h]
  · simpa [isBlank] using h.blank

/-- The kind of a token is determined by its span. -/
theorem kind_eq (h : Lexeme kind span) (h' : Lexeme kind' span) : kind' = kind := by
  obtain ⟨first, rest, rfl⟩ := List.exists_cons_of_ne_nil h.ne_nil
  obtain ⟨hfirst, -, rfl⟩ | hnumeral | ⟨hfirst, contents, closing, hrest, -, -, rfl⟩ |
    ⟨hsymbolic, hsymbol⟩ := h.cases_first
  · exact (h'.word hfirst).2
  · exact hnumeral.kind_eq (h'.numeral hnumeral.begins)
  · obtain ⟨contents', closing', hrest', -, -, rfl⟩ := h'.quoted hfirst
    obtain ⟨rfl, -⟩ := List.append_inj' (hrest.symm.trans hrest') rfl
    rfl
  · have hsymbol' := h'.symbol hsymbolic.word hsymbolic.digit hsymbolic.quote
    obtain ⟨rfl, hsingle⟩ | ⟨second, rfl, hdouble⟩ := hsymbol
    · obtain ⟨-, hsingle'⟩ | ⟨_, hnil, -⟩ := hsymbol'
      · exact Option.some.inj (hsingle'.symm.trans hsingle)
      · cases hnil
    · obtain ⟨hnil, -⟩ | ⟨_, hsecond, hdouble'⟩ := hsymbol'
      · cases hnil
      · cases hsecond
        exact Option.some.inj (hdouble'.symm.trans hdouble)

end Lexeme

-- ---------------------------------------------------------------------------
-- Tokens of a text
-- ---------------------------------------------------------------------------

theorem single?_ascii (h : single? (asChar b) = some kind) : b.toNat < 128 := by
  rw [← asChar_toNat]
  generalize asChar b = c at h
  unfold single? at h
  split at h <;> cases h <;> decide

theorem double?_ascii (h : double? (asChar a) (asChar b) = some kind) :
    a.toNat < 128 ∧ b.toNat < 128 := by
  rw [← asChar_toNat a, ← asChar_toNat b]
  generalize asChar a = c, asChar b = d at h
  unfold double? at h
  split at h <;> cases h <;> decide

theorem isDigit_ascii (h : isDigit b = true) : b.toNat < 128 :=
  isWordPart_ascii (by simp [isWordPart, h])

theorem Numeral.ascii (h : Numeral kind span) : ∀ b ∈ span, b.toNat < 128 := by
  cases h with
  | whole _ hdigits => exact fun b hb => isDigit_ascii (hdigits b hb)
  | @fraction digits point decimals _ hdigits hpoint _ hdecimals =>
    have hpoint : point.toNat < 128 := by
      rw [← asChar_toNat, hpoint]
      decide
    refine List.forall_mem_append.2 ⟨fun b hb => isDigit_ascii (hdigits b hb), ?_⟩
    exact List.forall_mem_cons.2 ⟨hpoint, fun b hb => isDigit_ascii (hdecimals b hb)⟩

theorem quote_ascii (h : asChar b = '"') : b.toNat < 128 := by
  rw [← asChar_toNat, h]
  decide

/-- A text is not divided inside a character: every token of it is a text. -/
theorem Lexeme.valid (h : Lexeme kind span)
    (hsource : Text.Utf8.Valid (before ++ (span ++ rest))) : Text.Utf8.Valid span := by
  obtain ⟨first, more, rfl⟩ := List.exists_cons_of_ne_nil h.ne_nil
  obtain ⟨hfirst, hmore, -⟩ | hnumeral | ⟨hfirst, contents, closing, rfl, -, hclosing, -⟩ |
    ⟨-, hsymbol⟩ := h.cases_first
  · have hword : ∀ b ∈ first :: more, isWordPart b = true :=
      List.forall_mem_cons.2 ⟨isWordStart_part hfirst, hmore⟩
    exact Text.Utf8.valid_ascii fun b hb => isWordPart_ascii (hword b hb)
  · exact Text.Utf8.valid_ascii hnumeral.ascii
  · have hbehind : Text.Utf8.Valid (contents ++ closing :: rest) := by
      have hsplit := hsource.split (quote_ascii hfirst)
      simpa using hsplit.2
    have hcontents := (hbehind.split (quote_ascii hclosing)).1
    have hquote {b : UInt8} (hb : asChar b = '"') : Text.Utf8.Valid [b] :=
      Text.Utf8.valid_ascii (List.forall_mem_singleton.2 (quote_ascii hb))
    exact (hquote hfirst).append (hcontents.append (hquote hclosing))
  · refine Text.Utf8.valid_ascii ?_
    obtain ⟨rfl, hsingle⟩ | ⟨second, rfl, hdouble⟩ := hsymbol
    · exact List.forall_mem_singleton.2 (single?_ascii hsingle)
    · obtain ⟨hfirst, hsecond⟩ := double?_ascii hdouble
      exact List.forall_mem_cons.2 ⟨hfirst, List.forall_mem_singleton.2 hsecond⟩

end Lexer

end Treewalk
