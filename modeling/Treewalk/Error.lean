import Treewalk.Text.Utf8
import Treewalk.Token

/-!
# Errors

What can go wrong is a cause; where it went wrong is a line or a site. The wording of every cause
stands here and nowhere else.
-/

namespace Treewalk

/-- Why a stretch of source is no token. -/
inductive LexFault where
  | unexpected (c : Char)
  | unterminated
deriving DecidableEq, Repr

def LexFault.message : LexFault → String
  | .unexpected c => "Unexpected character: " ++ c.toString
  | .unterminated => "Unterminated string."

/-- Functions stand alone, methods stand in a class. -/
inductive Callable where
  | function
  | method
deriving DecidableEq, Repr

def Callable.noun : Callable → String
  | .function => "function"
  | .method => "method"

/-- Why a list of tokens has no tree. Each cause names what was missing. -/
inductive ParseFault where
  | importPath | importEnd | exportTarget
  | className | classOpen | classClose
  | callableName (c : Callable) | parametersOpen (c : Callable) | bodyOpen (c : Callable)
  | parameterName | parametersClose | tooManyParameters
  | variableName | variableEnd
  | breakEnd | printEnd | returnEnd | expressionEnd | blockClose
  | forOpen | forCondition | forClose
  | ifOpen | ifClose | whileOpen | whileClose
  | assignmentTarget | conditionalColon
  | propertyName | indexClose | argumentsClose | groupClose | elementsClose | tooManyArguments
  | leftOperand | expression | trailing
  /-- The allowance for nesting is used up. -/
  | depth
deriving DecidableEq, Repr

def ParseFault.message : ParseFault → String
  | .importPath => "Expected string after 'import'."
  | .importEnd => "Expected ';' after import statement."
  | .exportTarget => "Can only export variable, function, or class declarations."
  | .className => "Expected class name."
  | .classOpen => "Expected '\x7b' before class body."
  | .classClose => "Expected '\x7d' after class body."
  | .callableName c => "Expected " ++ c.noun ++ " name."
  | .parametersOpen c => "Expected '(' after " ++ c.noun ++ " name."
  | .bodyOpen c => "Expected '\x7b' before " ++ c.noun ++ " body."
  | .parameterName => "Expected parameter name."
  | .parametersClose => "Expected ')' after parameters."
  | .tooManyParameters => "Can't have more than 255 parameters."
  | .variableName => "Expected variable name."
  | .variableEnd => "Expected ';' after variable declaration."
  | .breakEnd => "Expected ';' after 'break'."
  | .printEnd => "Expected ';' after value."
  | .returnEnd => "Expected ';' after return value."
  | .expressionEnd => "Expected ';' after expression."
  | .blockClose => "Expected '\x7d' after block."
  | .forOpen => "Expected '(' after 'for'."
  | .forCondition => "Expected ';' after loop condition."
  | .forClose => "Expected ')' after for clauses."
  | .ifOpen => "Expected '(' after 'if'."
  | .ifClose => "Expected ')' after if condition."
  | .whileOpen => "Expected '(' after 'while'."
  | .whileClose => "Expected ')' after condition."
  | .assignmentTarget => "Invalid assignment target."
  | .conditionalColon => "Expected ':' after then branch of conditional expression."
  | .propertyName => "Expected property name after '.'."
  | .indexClose => "Expected ']' after array index."
  | .argumentsClose => "Expected ')' after arguments."
  | .groupClose => "Expected ')' after expression."
  | .elementsClose => "Expected ']' after array elements."
  | .tooManyArguments => "Can't have more than 255 arguments."
  | .leftOperand => "Missing left-hand operand."
  | .expression => "Expected expression."
  | .trailing => "Expected end of expression."
  | .depth => "Too deeply nested."

/-- Why a tree breaks a static rule. -/
inductive ScopeFault where
  | ownInitializer
  | breakOutsideLoop
  | returnOutsideFunction
  | thisOutsideClass
deriving DecidableEq, Repr

def ScopeFault.message : ScopeFault → String
  | .ownInitializer => "Can't read local variable in its own initializer."
  | .breakOutsideLoop => "Must be inside a loop to use 'break'."
  | .returnOutsideFunction => "Can't return from top-level code."
  | .thisOutsideClass => "Can't use 'this' outside of a class."

/-- Why a running unit stops. -/
inductive RuntimeFault where
  | importPath
  | exportTarget
  | unaryOperator
  | binaryOperator
  | operand
  | operands
  | divisionByZero
  | notCallable
  | arity (expected got : Nat)
  | undefinedVariable (name : String)
  | undefinedProperty (name : String)
  | unbound (name : String) (distance : Nat)
  | noProperties
  | noFields
  | indexKind
  | arrayBounds
  | stringBounds
  | notIndexable
  | noReceiver
  | moduleMissing (path : String)
  /-- Raised by a native function in its own words. -/
  | raised (message : String)
deriving DecidableEq, Repr

def RuntimeFault.message : RuntimeFault → String
  | .importPath => "Expected string after 'import'."
  | .exportTarget => "Can only export variable, function, or class declarations."
  | .unaryOperator => "Invalid unary operator."
  | .binaryOperator => "Invalid binary operator."
  | .operand => "Operand must be a number."
  | .operands => "Operands must be numbers."
  | .divisionByZero => "Attempted to divide by zero, which is not allowed."
  | .notCallable => "Can only call functions and classes."
  | .arity expected got =>
    "Expected " ++ toString expected ++ " arguments but got " ++ toString got ++ "."
  | .undefinedVariable name => "Undefined variable '" ++ name ++ "'."
  | .undefinedProperty name => "Undefined property '" ++ name ++ "'."
  | .unbound name distance =>
    "Internal error: no binding for '" ++ name ++ "' at scope distance " ++ toString distance ++ "."
  | .noProperties => "Only instances have properties."
  | .noFields => "Only instances have fields."
  | .indexKind => "Index must be a number."
  | .arrayBounds => "Array index out of bounds."
  | .stringBounds => "String index out of bounds."
  | .notIndexable => "Can only index into arrays or strings."
  | .noReceiver => "Initializer called without a bound instance."
  | .moduleMissing path => "Could not import module '" ++ path ++ "'."
  | .raised message => message

inductive Error where
  | lex (line : Nat) (fault : LexFault)
  | parse (site : Site) (fault : ParseFault)
  | scope (site : Site) (fault : ScopeFault)
  | runtime (site : Site) (fault : RuntimeFault)
  /-- An error in the source of the module at `path`. -/
  | inModule (path : String) (cause : Error)
  /-- The output refused a write. -/
  | output (reason : String)
  | encoding (fault : Text.Utf8.Fault)
deriving DecidableEq, Repr

namespace Error

/-- The bare wording, without a place. -/
def text : Error → String
  | lex _ fault => fault.message
  | parse _ fault => fault.message
  | scope _ fault => fault.message
  | runtime _ fault => fault.message
  | inModule _ cause => cause.text
  | output reason => reason
  | encoding fault => fault.message

/-- The wording with the place that it concerns. -/
def message : Error → String
  | lex line fault => "[line " ++ toString line ++ "] Error: " ++ fault.message
  | parse site fault =>
    "[line " ++ toString site.line ++ "] Error at '" ++ site.lexeme ++ "': " ++ fault.message
  | scope site fault =>
    "[line " ++ toString site.line ++ "] Error at '" ++ site.lexeme ++ "': " ++ fault.message
  | runtime site fault => fault.message ++ "\n[line " ++ toString site.line ++ "]"
  | inModule path cause => "in module '" ++ path ++ "': " ++ cause.message
  | output reason => reason
  | encoding fault => fault.message

/-- Errors that keep a unit from running at all. -/
def isStatic : Error → Bool
  | lex .. | parse .. | scope .. | encoding .. => true
  | inModule _ cause => cause.isStatic
  | runtime .. | output .. => false

end Error

/-- Why a computation stops without a result. -/
inductive Halt where
  | error (e : Error)
  /-- The allowance of steps is used up. -/
  | exhausted
  /-- The text of an array that contains itself is asked for, which has no end. -/
  | endless
deriving DecidableEq, Repr

end Treewalk
