import Treewalk.Proofs.Grammar

/-!
# The grammar of programs

The rules of `Treewalk.Parser.Statement`, one constructor for each way in which tokens make a
declaration or a statement. A rule relates the tokens to the tree that they stand for; it is stated
apart from the readers. A `for` statement stands for a loop, whose parts are told by rules of their
own.

An `else` belongs to the nearest `if` that can take it: what stands before an `else` must not end in
an `if` that has none.
-/

namespace Treewalk

-- ---------------------------------------------------------------------------
-- Parts of statements
-- ---------------------------------------------------------------------------

/-- No tokens, or the tokens of what `Q` tells. -/
inductive Maybe (Q : α → List Token → Prop) : Option α → List Token → Prop
  | absent : Maybe Q none []
  | present : Q a us → Maybe Q (some a) us

/-- Names with commas between them. -/
inductive Names : List Token → List Token → Prop
  | one : name.kind = .identifier → Names [name] [name]
  | more : name.kind = .identifier → comma.kind = .comma → Names names us →
    Names (name :: names) (name :: comma :: us)

inductive ParameterList : List Token → List Token → Prop
  | none : opening.kind = .leftParen → closing.kind = .rightParen →
    ParameterList [] [opening, closing]
  | some : opening.kind = .leftParen → Names names us → names.length ≤ 255 →
    closing.kind = .rightParen → ParameterList names (opening :: (us ++ [closing]))

inductive VarDecl : Stmt → List Token → Prop
  | plain : keyword.kind = .kwVar → name.kind = .identifier → semicolon.kind = .semicolon →
    VarDecl (.var name none) [keyword, name, semicolon]
  | initialized : keyword.kind = .kwVar → name.kind = .identifier → equal.kind = .equal →
    Phrase .assignment e us → semicolon.kind = .semicolon →
    VarDecl (.var name (some e)) (keyword :: name :: equal :: (us ++ [semicolon]))

inductive ExpressionStmt : Stmt → List Token → Prop
  | mk : Phrase .assignment e us → semicolon.kind = .semicolon →
    ExpressionStmt (.expression e) (us ++ [semicolon])

/-- What a `for` statement starts with. -/
inductive Start : Option Stmt → List Token → Prop
  | none : semicolon.kind = .semicolon → Start none [semicolon]
  | var : VarDecl s us → Start (some s) us
  | expression : ExpressionStmt s us → Start (some s) us

-- ---------------------------------------------------------------------------
-- The loop that a `for` statement stands for
-- ---------------------------------------------------------------------------

/-- Without condition the loop runs until it is left. -/
inductive Tested : Option Expr → Expr → Prop
  | always : Tested none (.literal (.bool true))
  | given : Tested (some e) e

/-- The step follows the body. -/
inductive Stepped (body : Stmt) : Option Expr → Stmt → Prop
  | plain : Stepped body none body
  | step : Stepped body (some e) (.block [body, .expression e])

/-- A start encloses the loop in a block. -/
inductive Enclosed (loop : Stmt) : Option Stmt → Stmt → Prop
  | bare : Enclosed loop none loop
  | block : Enclosed loop (some start) (.block [start, loop])

-- ---------------------------------------------------------------------------
-- Declarations and statements
-- ---------------------------------------------------------------------------

mutual

inductive Declaration : Stmt → List Token → Prop
  | importModule : keyword.kind = .kwImport → path.kind = .text contents →
    semicolon.kind = .semicolon →
    Declaration (.importModule keyword path) [keyword, path, semicolon]
  | exportDecl : keyword.kind = .kwExport → Definition s us →
    Declaration (.exportDecl keyword s) (keyword :: us)
  | definition : Definition s us → Declaration s us
  | statement : Statement dangling s us → Declaration s us

/-- The declarations that can be exported. -/
inductive Definition : Stmt → List Token → Prop
  | classDecl : keyword.kind = .kwClass → name.kind = .identifier → opening.kind = .leftBrace →
    Members methods classMethods us → closing.kind = .rightBrace →
    Definition (.classDecl name methods classMethods)
      (keyword :: name :: opening :: (us ++ [closing]))
  | function : keyword.kind = .kwFun → name.kind = .identifier → ParameterList params us →
    Block body vs → Definition (.function ⟨name, some params, body⟩) (keyword :: name :: (us ++ vs))
  | var : VarDecl s us → Definition s us

/-- The methods of a class and the methods of the class itself, each in order. -/
inductive Members : List Routine → List Routine → List Token → Prop
  | none : Members [] [] []
  | method : Method r us → Members methods classMethods vs →
    Members (r :: methods) classMethods (us ++ vs)
  | classMethod : keyword.kind = .kwClass → Method r us → Members methods classMethods vs →
    Members methods (r :: classMethods) (keyword :: (us ++ vs))

/-- Without parameter list a method is a getter. -/
inductive Method : Routine → List Token → Prop
  | mk : name.kind = .identifier → Maybe ParameterList params us → Block body vs →
    Method ⟨name, params, body⟩ (name :: (us ++ vs))

inductive Block : List Stmt → List Token → Prop
  | mk : opening.kind = .leftBrace → Declarations body us → closing.kind = .rightBrace →
    Block body (opening :: (us ++ [closing]))

inductive Declarations : List Stmt → List Token → Prop
  | none : Declarations [] []
  | cons : Declaration s us → Declarations body vs → Declarations (s :: body) (us ++ vs)

/-- A statement is dangling if it ends in an `if` without `else`: an `else` behind it would belong
to it. -/
inductive Statement : (dangling : Bool) → Stmt → List Token → Prop
  | expression : ExpressionStmt s us → Statement false s us
  | print : keyword.kind = .kwPrint → Phrase .assignment e us → semicolon.kind = .semicolon →
    Statement false (.print e) (keyword :: (us ++ [semicolon]))
  | breakLoop : keyword.kind = .kwBreak → semicolon.kind = .semicolon →
    Statement false (.breakLoop keyword) [keyword, semicolon]
  | returnValue : keyword.kind = .kwReturn → Maybe (Phrase .assignment) value us →
    semicolon.kind = .semicolon →
    Statement false (.returnValue keyword value) (keyword :: (us ++ [semicolon]))
  | block : Block body us → Statement false (.block body) us
  | ifThen : keyword.kind = .kwIf → opening.kind = .leftParen → Phrase .assignment condition us →
    closing.kind = .rightParen → Statement dangling yes vs →
    Statement true (.ifElse condition yes none) (keyword :: opening :: (us ++ closing :: vs))
  | ifElse : keyword.kind = .kwIf → opening.kind = .leftParen → Phrase .assignment condition us →
    closing.kind = .rightParen → Statement false yes vs → otherwise.kind = .kwElse →
    Statement dangling no ws → Statement dangling (.ifElse condition yes (some no))
      (keyword :: opening :: (us ++ closing :: (vs ++ otherwise :: ws)))
  | whileLoop : keyword.kind = .kwWhile → opening.kind = .leftParen →
    Phrase .assignment condition us → closing.kind = .rightParen → Statement dangling body vs →
    Statement dangling (.whileLoop condition body) (keyword :: opening :: (us ++ closing :: vs))
  | forLoop : keyword.kind = .kwFor → opening.kind = .leftParen → Start start us →
    Maybe (Phrase .assignment) condition vs → semicolon.kind = .semicolon →
    Maybe (Phrase .assignment) step ws → closing.kind = .rightParen → Statement dangling body xs →
    Tested condition test → Stepped body step lap → Enclosed (.whileLoop test lap) start s →
    Statement dangling s
      (keyword :: opening :: (us ++ (vs ++ semicolon :: (ws ++ closing :: xs))))

end

/-- The tokens are a program, and `body` is its tree. -/
abbrev Program (body : List Stmt) (tokens : List Token) : Prop :=
  Declarations body tokens

-- ---------------------------------------------------------------------------
-- Trees without their numbers
-- ---------------------------------------------------------------------------

mutual

/-- The statement, with the identities of its nodes taken away. -/
def Stmt.unnumbered : Stmt → Stmt
  | .expression e => .expression e.unnumbered
  | .print e => .print e.unnumbered
  | .var name initial => .var name (initial.map Expr.unnumbered)
  | .block body => .block (Stmt.unnumberedAll body)
  | .ifElse condition yes none => .ifElse condition.unnumbered yes.unnumbered none
  | .ifElse condition yes (some no) =>
    .ifElse condition.unnumbered yes.unnumbered (some no.unnumbered)
  | .whileLoop condition body => .whileLoop condition.unnumbered body.unnumbered
  | .breakLoop keyword => .breakLoop keyword
  | .function routine => .function routine.unnumbered
  | .classDecl name methods classMethods =>
    .classDecl name (Routine.unnumberedAll methods) (Routine.unnumberedAll classMethods)
  | .returnValue keyword value => .returnValue keyword (value.map Expr.unnumbered)
  | .importModule keyword path => .importModule keyword path
  | .exportDecl keyword declaration => .exportDecl keyword declaration.unnumbered

def Stmt.unnumberedAll : List Stmt → List Stmt
  | [] => []
  | s :: rest => s.unnumbered :: Stmt.unnumberedAll rest

def Routine.unnumbered : Routine → Routine
  | ⟨name, params, body⟩ => ⟨name, params, Stmt.unnumberedAll body⟩

def Routine.unnumberedAll : List Routine → List Routine
  | [] => []
  | r :: rest => r.unnumbered :: Routine.unnumberedAll rest

end

/-- The statements differ at most in the identities of their nodes. -/
def SameStmt (s s' : Stmt) : Prop :=
  s.unnumbered = s'.unnumbered

def SameBody (body body' : List Stmt) : Prop :=
  Stmt.unnumberedAll body = Stmt.unnumberedAll body'

def SameRoutine (r r' : Routine) : Prop :=
  r.unnumbered = r'.unnumbered

def SameRoutines (rs rs' : List Routine) : Prop :=
  Routine.unnumberedAll rs = Routine.unnumberedAll rs'

def SameMaybe (e e' : Option Expr) : Prop :=
  e.map Expr.unnumbered = e'.map Expr.unnumbered

end Treewalk
