import Treewalk.Parser.Cursor

/-!
# Reading expressions

    assignment   ( call "." )? IDENT "=" assignment | disjunction
    disjunction  conjunction ( ( "or" | "||" ) conjunction )*
    conjunction  sequence ( ( "and" | "&&" ) sequence )*
    sequence     conditional ( "," conditional )*
    conditional  equality ( "?" assignment ":" conditional )?
    equality     comparison ( ( "!=" | "==" ) comparison )*
    comparison   term ( ( ">" | ">=" | "<" | "<=" ) term )*
    term         factor ( ( "-" | "+" ) factor )*
    factor       unary ( ( "/" | "*" | "%" | "|" | "^" ) unary )*
    unary        ( "!" | "-" ) unary | call
    call         primary ( "(" items? ")" | "." IDENT | "[" assignment "]" )*
    primary      NUMBER | STRING | "true" | "false" | "nil" | "this" | IDENT
                 | "(" assignment ")" | "[" items? "]"
    items        conditional ( "," conditional )*

Every reader takes an allowance for its depth. What the tokens need is bounded by their number, so
`expression` computes an allowance that suffices.
-/

namespace Treewalk.Parser

/-- The levels of binding strength, loosest first. -/
inductive Level where
  | assignment | disjunction | conjunction | sequence | conditional | equality | comparison | term
  | factor | unary | call | primary
deriving DecidableEq, Repr

namespace Level

def tighter : Level → Level
  | assignment => disjunction
  | disjunction => conjunction
  | conjunction => sequence
  | sequence => conditional
  | conditional => equality
  | equality => comparison
  | comparison => term
  | term => factor
  | factor => unary
  | unary => call
  | call => primary
  | primary => primary

/-- The operators that stand between the operands of a level, from left to right. -/
def isOperator : Level → Kind → Bool
  | disjunction, .kwOr => true
  | conjunction, .kwAnd => true
  | sequence, .comma => true
  | equality, .bangEqual | equality, .equalEqual => true
  | comparison, .greater | comparison, .greaterEqual | comparison, .less
  | comparison, .lessEqual => true
  | term, .minus | term, .plus => true
  | factor, .slash | factor, .star | factor, .percent | factor, .bar | factor, .caret => true
  | _, _ => false

/-- The node that joins two operands of a level. -/
def join : Level → Token → Expr → Expr → Expr
  | disjunction, op, left, right => .logical op left right
  | conjunction, op, left, right => .logical op left right
  | _, op, left, right => .binary op left right

end Level

/-- The operators that stand before their operand. -/
def isUnaryOperator : Kind → Bool
  | .bang | .minus => true
  | _ => false

/-- Operators that tell, where an operand should stand, that their left one is missing. -/
def wantsLeft : Kind → Bool
  | .bangEqual | .equalEqual | .greater | .greaterEqual | .less | .lessEqual | .plus | .slash
  | .star | .percent => true
  | _ => false

mutual

def readLevel : (depth : Nat) → Level → Reader Expr
  | 0, _ => fail .depth
  | depth + 1, .assignment => do
    let target ← readLevel depth .disjunction
    match ← accept? .equal with
    | none => return target
    | some equals =>
      let value ← readLevel depth .assignment
      match target with
      | .var _ name => return .assign (← freshId) name value
      | .get object name => return .set object name value
      | _ => throw (.parse equals.site .assignmentTarget)
  | depth + 1, .conditional => do
    let condition ← readLevel depth .equality
    match ← accept? .question with
    | none => return condition
    | some _ =>
      let yes ← readLevel depth .assignment
      let _ ← expect .colon .conditionalColon
      let no ← readLevel depth .conditional
      return .conditional condition yes no
  | depth + 1, .unary => do
    match ← acceptIf isUnaryOperator with
    | some op => return .unary op (← readLevel depth .unary)
    | none => readLevel depth .call
  | depth + 1, .call => do
    readSuffixes depth (← readLevel depth .primary)
  | depth + 1, .primary => readPrimary depth
  | depth + 1, level => do
    readOperands depth level (← readLevel depth level.tighter)

/-- The operators of a level and their right operands, behind a first operand. -/
def readOperands : (depth : Nat) → Level → Expr → Reader Expr
  | 0, _, _ => fail .depth
  | depth + 1, level, left => do
    match ← acceptIf level.isOperator with
    | none => return left
    | some op =>
      let right ← readLevel depth level.tighter
      readOperands depth level (level.join op left right)

/-- Argument lists, properties and indices behind an expression. -/
def readSuffixes : (depth : Nat) → Expr → Reader Expr
  | 0, _ => fail .depth
  | depth + 1, head => do
    match (← peek).kind with
    | .leftParen =>
      advance
      let arguments ← readItems depth .rightParen
      let paren ← expect .rightParen .argumentsClose
      readSuffixes depth (.call head paren arguments)
    | .dot =>
      advance
      let name ← expect .identifier .propertyName
      readSuffixes depth (.get head name)
    | .leftBracket =>
      advance
      let position ← readLevel depth .assignment
      let bracket ← expect .rightBracket .indexClose
      readSuffixes depth (.index head bracket position)
    | _ => return head

/-- A list that `close` ends, or no items at all. -/
def readItems : (depth : Nat) → (close : Kind) → Reader (List Expr)
  | 0, _ => fail .depth
  | depth + 1, close => do
    if ← check close then return [] else readItemsFrom depth listLimit

/-- At least one item and at most `room`. -/
def readItemsFrom : (depth room : Nat) → Reader (List Expr)
  | 0, _ => fail .depth
  | _ + 1, 0 => fail .tooManyArguments
  | depth + 1, room + 1 => do
    let item ← readLevel depth .conditional
    match ← accept? .comma with
    | none => return [item]
    | some _ => return item :: (← readItemsFrom depth room)

def readPrimary : (depth : Nat) → Reader Expr
  | 0 => fail .depth
  | depth + 1 => do
    let t ← peek
    match t.kind with
    | .kwFalse => advance; return .literal (.bool false)
    | .kwTrue => advance; return .literal (.bool true)
    | .kwNil => advance; return .literal .nil
    | .number value => advance; return .literal (.number value)
    | .text contents => advance; return .literal (.text contents)
    | .kwThis => advance; return .this (← freshId) t
    | .identifier => advance; return .var (← freshId) t
    | .leftParen =>
      advance
      let inner ← readLevel depth .assignment
      let _ ← expect .rightParen .groupClose
      return .group inner
    | .leftBracket =>
      advance
      let elements ← readItems depth .rightBracket
      let _ ← expect .rightBracket .elementsClose
      return .array elements
    | kind =>
      if wantsLeft kind then
        advance
        throw (.parse t.site .leftOperand)
      else fail .expression

end

def expression : Reader Expr := do
  readLevel (16 * (← get).rest.length + 16) .assignment

end Treewalk.Parser
