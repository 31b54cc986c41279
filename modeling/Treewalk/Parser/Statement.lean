import Treewalk.Parser.Expression

/-!
# Reading statements

    declaration  "import" STRING ";" | "export" definition | definition | statement
    definition   "class" IDENT "{" ( "class"? method )* "}"
                 | "fun" IDENT "(" parameters? ")" block
                 | "var" IDENT ( "=" expression )? ";"
    method       IDENT ( "(" parameters? ")" )? block
    statement    expression ";" | "print" expression ";" | "break" ";" | "return" expression? ";"
                 | "if" "(" expression ")" statement ( "else" statement )?
                 | "while" "(" expression ")" statement
                 | "for" "(" ( "var" ... ";" | expression ";" | ";" )
                   expression? ";" expression? ")" statement
                 | block
    block        "{" declaration* "}"

A `for` statement is read as the `while` statement that it stands for. As with expressions, every
reader takes an allowance for its depth. What is done about a declaration that fails is left open
first; then such a declaration is recovered from.
-/

namespace Treewalk.Parser

def readImport (keyword : Token) : Reader Stmt := do
  let path ← peek
  match path.kind with
  | .text _ =>
    advance
    let _ ← expect .semicolon .importEnd
    return .importModule keyword path
  | _ => fail .importPath

/-- At least one parameter and at most `room`. -/
def readParameters : (room : Nat) → Reader (List Token)
  | 0 => fail .tooManyParameters
  | room + 1 => do
    let name ← expect .identifier .parameterName
    match ← accept? .comma with
    | none => return [name]
    | some _ => return name :: (← readParameters room)

def readParameterList (callable : Callable) : Reader (List Token) := do
  let _ ← expect .leftParen (.parametersOpen callable)
  let params ← if ← check .rightParen then pure [] else readParameters listLimit
  let _ ← expect .rightParen .parametersClose
  return params

def readVar : Reader Stmt := do
  let name ← expect .identifier .variableName
  let initial ← match ← accept? .equal with
    | some _ => some <$> expression
    | none => pure none
  let _ ← expect .semicolon .variableEnd
  return .var name initial

/-- An expression, unless the next token is of the kind `close`. -/
def readUnless (close : Kind) : Reader (Option Expr) := do
  if ← check close then return none else some <$> expression

def readExpressionStatement : Reader Stmt := do
  let e ← expression
  if (← get).lenient && (← atEnd) then
    modify fun c => { c with bare := true }
  else
    let _ ← expect .semicolon .expressionEnd
  return .expression e

/-- What a `for` statement stands for: a loop without condition runs until it is left, the step
follows the body, and a start encloses the loop in a block. -/
def forLoop (start : Option Stmt) (condition step : Option Expr) (body : Stmt) : Stmt :=
  let round := match step with
    | some e => .block [body, .expression e]
    | none => body
  let cycle := .whileLoop (condition.getD (.literal (.bool true))) round
  match start with
  | some first => .block [first, cycle]
  | none => cycle

section

-- What is done about a declaration that fails, at every level.
variable (mend : Reader Stmt → Reader Stmt)

mutual

def readDeclarationWith : (depth : Nat) → Reader Stmt
  | 0 => mend (fail .depth)
  | depth + 1 => mend do
    let t ← peek
    match t.kind with
    | .kwImport => advance; readImport t
    | .kwExport =>
      advance
      match (← peek).kind with
      | .kwClass => advance; return .exportDecl t (← readClassWith depth)
      | .kwFun => advance; return .exportDecl t (.function (← readRoutineWith depth .function))
      | .kwVar => advance; return .exportDecl t (← readVar)
      | _ => fail .exportTarget
    | .kwClass => advance; readClassWith depth
    | .kwFun => advance; return .function (← readRoutineWith depth .function)
    | .kwVar => advance; readVar
    | _ => readStatementWith depth

def readClassWith : (depth : Nat) → Reader Stmt
  | 0 => fail .depth
  | depth + 1 => do
    let name ← expect .identifier .className
    let _ ← expect .leftBrace .classOpen
    let (methods, classMethods) ← readMembersWith depth
    let _ ← expect .rightBrace .classClose
    return .classDecl name methods classMethods

/-- The methods of a class and the methods of the class itself, each in order. -/
def readMembersWith : (depth : Nat) → Reader (List Routine × List Routine)
  | 0 => fail .depth
  | depth + 1 => do
    if (← check .rightBrace) || (← atEnd) then return ([], [])
    else
      match ← accept? .kwClass with
      | some _ =>
        let first ← readRoutineWith depth .method
        let (methods, classMethods) ← readMembersWith depth
        return (methods, first :: classMethods)
      | none =>
        let first ← readRoutineWith depth .method
        let (methods, classMethods) ← readMembersWith depth
        return (first :: methods, classMethods)

/-- A function or method from its name on. Only a method can leave out the parameter list. -/
def readRoutineWith : (depth : Nat) → Callable → Reader Routine
  | 0, _ => fail .depth
  | depth + 1, callable => do
    let name ← expect .identifier (.callableName callable)
    let params ← if callable = .function || (← check .leftParen) then
        some <$> readParameterList callable
      else pure none
    let _ ← expect .leftBrace (.bodyOpen callable)
    return ⟨name, params, ← readBlockWith depth⟩

/-- The declarations of a block behind its brace. -/
def readBlockWith : (depth : Nat) → Reader (List Stmt)
  | 0 => fail .depth
  | depth + 1 => do
    if (← check .rightBrace) || (← atEnd) then
      let _ ← expect .rightBrace .blockClose
      return []
    else
      let first ← readDeclarationWith depth
      return first :: (← readBlockWith depth)

def readStatementWith : (depth : Nat) → Reader Stmt
  | 0 => fail .depth
  | depth + 1 => do
    let t ← peek
    match t.kind with
    | .kwBreak =>
      advance
      let _ ← expect .semicolon .breakEnd
      return .breakLoop t
    | .kwFor =>
      advance
      let _ ← expect .leftParen .forOpen
      let start ← match (← peek).kind with
        | .semicolon => do advance; pure none
        | .kwVar => do advance; some <$> readVar
        | _ => some <$> readExpressionStatement
      let condition ← readUnless .semicolon
      let _ ← expect .semicolon .forCondition
      let step ← readUnless .rightParen
      let _ ← expect .rightParen .forClose
      return forLoop start condition step (← readStatementWith depth)
    | .kwIf =>
      advance
      let _ ← expect .leftParen .ifOpen
      let condition ← expression
      let _ ← expect .rightParen .ifClose
      let yes ← readStatementWith depth
      let no ← match ← accept? .kwElse with
        | some _ => some <$> readStatementWith depth
        | none => pure none
      return .ifElse condition yes no
    | .kwWhile =>
      advance
      let _ ← expect .leftParen .whileOpen
      let condition ← expression
      let _ ← expect .rightParen .whileClose
      return .whileLoop condition (← readStatementWith depth)
    | .kwReturn =>
      advance
      let value ← readUnless .semicolon
      let _ ← expect .semicolon .returnEnd
      return .returnValue t value
    | .leftBrace => advance; return .block (← readBlockWith depth)
    | .kwPrint =>
      advance
      let e ← expression
      let _ ← expect .semicolon .printEnd
      return .print e
    | _ => readExpressionStatement

end

def declarationWith : Reader Stmt := do
  readDeclarationWith mend (8 * (← get).rest.length + 8)

end

abbrev readDeclaration : (depth : Nat) → Reader Stmt :=
  readDeclarationWith recovering

abbrev readClass : (depth : Nat) → Reader Stmt :=
  readClassWith recovering

abbrev readMembers : (depth : Nat) → Reader (List Routine × List Routine) :=
  readMembersWith recovering

abbrev readRoutine : (depth : Nat) → Callable → Reader Routine :=
  readRoutineWith recovering

abbrev readBlock : (depth : Nat) → Reader (List Stmt) :=
  readBlockWith recovering

abbrev readStatement : (depth : Nat) → Reader Stmt :=
  readStatementWith recovering

abbrev declaration : Reader Stmt :=
  declarationWith recovering

end Treewalk.Parser
