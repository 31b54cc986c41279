import Treewalk.Error

/-!
# Cutting source into tokens

The source is a byte string. Its first byte decides what stands at its head: a blank, a comment, a
token or a fault; each takes the longest stretch that it can. What is left is cut again, so the
stretches follow one another and cover the source. The text of a token is its stretch read as UTF-8.
A line end is counted where it is read as a blank and where it is read inside a text; the line of a
token is the one that has been counted up to behind it.
-/

namespace Treewalk.Lexer

/-- What a stretch of source is. -/
inductive Role where
  | blank
  | comment
  | token (kind : Kind)
  | fault (fault : LexFault)
deriving DecidableEq, Repr

/-- The head of a source: what it is, its bytes, the source after it, and how many line ends have
been counted on the way. -/
structure Cut where
  role : Role
  span : List UInt8
  rest : List UInt8
  lines : Nat

/-- A byte as the character with the same code point. -/
def asChar (b : UInt8) : Char :=
  Char.ofNat b.toNat

def isBlank (b : UInt8) : Bool :=
  asChar b ∈ [' ', '\r', '\t', '\n']

def isDigit (b : UInt8) : Bool :=
  (asChar b).isDigit

def isWordStart (b : UInt8) : Bool :=
  (asChar b).isAlpha || asChar b == '_'

def isWordPart (b : UInt8) : Bool :=
  isWordStart b || isDigit b

def reserved : List (String × Kind) :=
  [("and", .kwAnd), ("break", .kwBreak), ("class", .kwClass), ("else", .kwElse),
    ("export", .kwExport), ("false", .kwFalse), ("fun", .kwFun), ("for", .kwFor), ("if", .kwIf),
    ("import", .kwImport), ("nil", .kwNil), ("or", .kwOr), ("print", .kwPrint),
    ("return", .kwReturn), ("super", .kwSuper), ("this", .kwThis), ("true", .kwTrue),
    ("var", .kwVar), ("while", .kwWhile)]

def single? : Char → Option Kind
  | '(' => some .leftParen
  | ')' => some .rightParen
  | '\x7b' => some .leftBrace
  | '\x7d' => some .rightBrace
  | '[' => some .leftBracket
  | ']' => some .rightBracket
  | ',' => some .comma
  | '.' => some .dot
  | '-' => some .minus
  | '+' => some .plus
  | ';' => some .semicolon
  | '/' => some .slash
  | '*' => some .star
  | '%' => some .percent
  | '|' => some .bar
  | '^' => some .caret
  | '?' => some .question
  | ':' => some .colon
  | '!' => some .bang
  | '=' => some .equal
  | '>' => some .greater
  | '<' => some .less
  | _ => none

def double? : Char → Char → Option Kind
  | '!', '=' => some .bangEqual
  | '=', '=' => some .equalEqual
  | '>', '=' => some .greaterEqual
  | '<', '=' => some .lessEqual
  | '|', '|' => some .kwOr
  | '&', '&' => some .kwAnd
  | _, _ => none

/-- The kind of a word: a reserved word or an identifier. -/
def wordKind (word : List UInt8) : Kind :=
  (reserved.lookup (Text.Utf8.lossy word)).getD .identifier

/-- The natural number that a list of digits stands for. -/
def natural (digits : List UInt8) : Nat :=
  digits.foldl (fun n b => 10 * n + (b.toNat - 48)) 0

/-- The number with the given digits before and after the point. -/
def numberKind (whole fraction : List UInt8) : Kind :=
  .number (Number.Decimal.toFloat ⟨natural (whole ++ fraction), -fraction.length⟩)

/-- A count of line ends, with those at the byte. -/
def countLine (lines : Nat) (b : UInt8) : Nat :=
  if asChar b = '\n' then lines + 1 else lines

def cutBlank (first : UInt8) (rest : List UInt8) : Cut :=
  ⟨.blank, [first], rest, countLine 0 first⟩

def cutWord (source : List UInt8) : Cut :=
  let word := source.takeWhile isWordPart
  ⟨.token (wordKind word), word, source.dropWhile isWordPart, 0⟩

/-- A source that begins with a digit. A point belongs to the number only if a digit follows. -/
def cutNumber (source : List UInt8) : Cut :=
  let whole := source.takeWhile isDigit
  let after := source.dropWhile isDigit
  match after with
  | point :: tail =>
    let fraction := tail.takeWhile isDigit
    if asChar point = '.' ∧ fraction ≠ [] then
      ⟨.token (numberKind whole fraction), whole ++ point :: fraction, tail.dropWhile isDigit, 0⟩
    else ⟨.token (numberKind whole []), whole, after, 0⟩
  | [] => ⟨.token (numberKind whole []), whole, [], 0⟩

/-- A source that begins with the double quote `opening`. Texts run over line ends; without a
closing quote the fault takes all that is left. -/
def cutText (opening : UInt8) (source : List UInt8) : Cut :=
  let contents := source.takeWhile (asChar · ≠ '"')
  let lines := contents.foldl countLine 0
  match source.dropWhile (asChar · ≠ '"') with
  | closing :: rest =>
    ⟨.token (.text (Text.Utf8.lossy contents)), opening :: contents ++ [closing], rest, lines⟩
  | [] => ⟨.fault .unterminated, opening :: contents, [], lines⟩

/-- A source that begins with two slashes. The line end does not belong to the comment. -/
def cutComment (source : List UInt8) : Cut :=
  ⟨.comment, source.takeWhile (asChar · ≠ '\n'), source.dropWhile (asChar · ≠ '\n'), 0⟩

/-- A source that begins with anything else: the longer symbol wins. -/
def cutSymbol (first : UInt8) (rest : List UInt8) : Cut :=
  match rest.head?.bind fun second => double? (asChar first) (asChar second) with
  | some kind => ⟨.token kind, first :: rest.take 1, rest.drop 1, 0⟩
  | none =>
    match single? (asChar first) with
    | some kind => ⟨.token kind, [first], rest, 0⟩
    | none => ⟨.fault (.unexpected (asChar first)), [first], rest, 0⟩

def cut (first : UInt8) (rest : List UInt8) : Cut :=
  if isBlank first then cutBlank first rest
  else if isWordStart first then cutWord (first :: rest)
  else if isDigit first then cutNumber (first :: rest)
  else if asChar first = '"' then cutText first rest
  else if asChar first = '/' ∧ rest.head?.map asChar = some '/' then cutComment (first :: rest)
  else cutSymbol first rest

/-- The stretch at the head and the rest make up the source. -/
theorem span_append_rest (first : UInt8) (rest : List UInt8) :
    (cut first rest).span ++ (cut first rest).rest = first :: rest := by
  unfold cut
  split
  · rfl
  · split
    · exact List.takeWhile_append_dropWhile
    · split
      · have h : (first :: rest).takeWhile isDigit ++ (first :: rest).dropWhile isDigit
            = first :: rest := List.takeWhile_append_dropWhile
        unfold cutNumber
        dsimp only
        split
        · next point tail after =>
          rw [after] at h
          split
          · simpa [List.append_assoc, List.takeWhile_append_dropWhile] using h
          · simpa [after] using h
        · next after => simpa [after] using h
      · split
        · have h : rest.takeWhile (asChar · ≠ '"') ++ rest.dropWhile (asChar · ≠ '"') = rest :=
            List.takeWhile_append_dropWhile
          unfold cutText
          dsimp only
          split
          · next closing tail after =>
            rw [after] at h
            simpa using h
          · next after =>
            rw [after] at h
            simpa using h
        · split
          · exact List.takeWhile_append_dropWhile
          · unfold cutSymbol
            split
            · exact congrArg (first :: ·) (List.take_append_drop 1 rest)
            · split <;> rfl

theorem span_ne_nil (first : UInt8) (rest : List UInt8) : (cut first rest).span ≠ [] := by
  unfold cut
  split
  · exact List.cons_ne_nil _ _
  · split
    · next h =>
      have : isWordPart first = true := by simp [isWordPart, h]
      simp [cutWord, this]
    · split
      · next h =>
        unfold cutNumber
        dsimp only
        split
        · split <;> simp [h]
        · simp [h]
      · split
        · unfold cutText
          dsimp only
          split <;> simp
        · split
          · next h =>
            simp [cutComment, h.1]
          · unfold cutSymbol
            split
            · simp
            · split <;> simp

theorem length_rest_le (first : UInt8) (rest : List UInt8) :
    (cut first rest).rest.length ≤ rest.length := by
  have whole := congrArg List.length (span_append_rest first rest)
  have taken := List.length_pos_iff.2 (span_ne_nil first rest)
  simp only [List.length_append, List.length_cons] at whole
  omega

/-- A token, or a fault in its place. -/
abbrev Item := Except Error Token

/-- The tokens and faults of a source that starts on `line`, and the closing token. -/
def itemsFrom (line : Nat) : List UInt8 → List Item
  | [] => [.ok (Token.finish line)]
  | first :: rest =>
    let head := cut first rest
    let after := line + head.lines
    let later := itemsFrom after head.rest
    match head.role with
    | .blank => later
    | .comment => later
    | .token kind => .ok ⟨kind, Text.Utf8.lossy head.span, after⟩ :: later
    | .fault fault => .error (.lex after fault) :: later
termination_by source => source.length
decreasing_by exact Nat.lt_succ_of_le (length_rest_le first rest)

/-- The tokens and faults of a source; a fault does not end it. -/
def items (source : List UInt8) : List Item :=
  itemsFrom 1 source

/-- All tokens of a source, or its first fault. -/
def scan (source : List UInt8) : Except Error (List Token) :=
  (items source).mapM id

end Treewalk.Lexer
