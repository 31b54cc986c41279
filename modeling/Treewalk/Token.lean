import Treewalk.Number.Style

/-!
# Tokens

A token is a kind, the stretch of source that it was cut from, and the line on which that stretch
ends. Texts and numbers carry their contents in the kind.
-/

namespace Treewalk

/-- The kinds of tokens. Words that the language reserves start with `kw`; `kwAnd` and `kwOr` are
also spelled with symbols. -/
inductive Kind where
  | leftParen | rightParen | leftBrace | rightBrace | leftBracket | rightBracket
  | comma | dot | minus | plus | semicolon | slash | star | percent | bar | caret | question | colon
  | bang | bangEqual | equal | equalEqual | greater | greaterEqual | less | lessEqual
  | identifier
  | text (contents : String)
  | number (value : Float)
  | kwAnd | kwBreak | kwClass | kwElse | kwExport | kwFalse | kwFun | kwFor | kwIf | kwImport
  | kwNil | kwOr | kwPrint | kwReturn | kwSuper | kwThis | kwTrue | kwVar | kwWhile
  | endOfInput
deriving DecidableEq, Repr

def Kind.name : Kind → String
  | .leftParen => "LEFT_PAREN"
  | .rightParen => "RIGHT_PAREN"
  | .leftBrace => "LEFT_BRACE"
  | .rightBrace => "RIGHT_BRACE"
  | .leftBracket => "LEFT_BRACKET"
  | .rightBracket => "RIGHT_BRACKET"
  | .comma => "COMMA"
  | .dot => "DOT"
  | .minus => "MINUS"
  | .plus => "PLUS"
  | .semicolon => "SEMICOLON"
  | .slash => "SLASH"
  | .star => "STAR"
  | .percent => "PERCENT"
  | .bar => "BAR"
  | .caret => "XOR"
  | .question => "QUESTION"
  | .colon => "COLON"
  | .bang => "BANG"
  | .bangEqual => "BANG_EQUAL"
  | .equal => "EQUAL"
  | .equalEqual => "EQUAL_EQUAL"
  | .greater => "GREATER"
  | .greaterEqual => "GREATER_EQUAL"
  | .less => "LESS"
  | .lessEqual => "LESS_EQUAL"
  | .identifier => "IDENTIFIER"
  | .text _ => "STRING"
  | .number _ => "NUMBER"
  | .kwAnd => "AND"
  | .kwBreak => "BREAK"
  | .kwClass => "CLASS"
  | .kwElse => "ELSE"
  | .kwExport => "EXPORT"
  | .kwFalse => "FALSE"
  | .kwFun => "FUN"
  | .kwFor => "FOR"
  | .kwIf => "IF"
  | .kwImport => "IMPORT"
  | .kwNil => "NIL"
  | .kwOr => "OR"
  | .kwPrint => "PRINT"
  | .kwReturn => "RETURN"
  | .kwSuper => "SUPER"
  | .kwThis => "THIS"
  | .kwTrue => "TRUE"
  | .kwVar => "VAR"
  | .kwWhile => "WHILE"
  | .endOfInput => "EOF"

structure Token where
  kind : Kind
  lexeme : String
  /-- The line, from 1, on which the token ends. -/
  line : Nat
deriving DecidableEq, Repr

def Kind.contents : Kind → String
  | .text contents => contents
  | .number value => Number.Style.listed.write value
  | _ => "null"

/-- A token as one line of a listing. -/
def Token.listing (t : Token) : String :=
  t.kind.name ++ " " ++ t.lexeme ++ " " ++ t.kind.contents

/-- The token that closes a source whose last line is `line`. -/
def Token.finish (line : Nat) : Token :=
  ⟨.endOfInput, "", line⟩

/-- Where a diagnostic points: a line and the source text there. -/
structure Site where
  line : Nat
  lexeme : String
deriving DecidableEq, Repr

def Token.site (t : Token) : Site :=
  ⟨t.line, t.lexeme⟩

end Treewalk
