import Treewalk.Token

/-!
# Trees

The expressions, statements and declarations that source text stands for. Nodes keep the tokens
that diagnostics point at. Nodes that refer to a variable carry an identity of their own, under
which the scope analysis notes where the variable is bound.
-/

namespace Treewalk

/-- The identity of a node that refers to a variable. -/
abbrev NodeId := Nat

inductive Literal where
  | number (value : Float)
  | text (contents : String)
  | bool (value : Bool)
  | nil
deriving DecidableEq, Repr

inductive Expr where
  | literal (value : Literal)
  | unary (op : Token) (right : Expr)
  /-- Also the comma, which gives its right operand. -/
  | binary (op : Token) (left right : Expr)
  /-- `and` and `or`, which may leave their right operand alone. -/
  | logical (op : Token) (left right : Expr)
  | conditional (condition yes no : Expr)
  | group (inner : Expr)
  | var (id : NodeId) (name : Token)
  | assign (id : NodeId) (name : Token) (value : Expr)
  /-- `paren` closes the arguments. -/
  | call (callee : Expr) (paren : Token) (arguments : List Expr)
  | get (object : Expr) (name : Token)
  | set (object : Expr) (name : Token) (value : Expr)
  | this (id : NodeId) (keyword : Token)
  | array (elements : List Expr)
  /-- `bracket` closes the index. -/
  | index (target : Expr) (bracket : Token) (position : Expr)
deriving Repr

mutual

inductive Stmt where
  | expression (e : Expr)
  | print (e : Expr)
  | var (name : Token) (initial : Option Expr)
  | block (body : List Stmt)
  | ifElse (condition : Expr) (yes : Stmt) (no : Option Stmt)
  | whileLoop (condition : Expr) (body : Stmt)
  | breakLoop (keyword : Token)
  | function (routine : Routine)
  | classDecl (name : Token) (methods classMethods : List Routine)
  | returnValue (keyword : Token) (value : Option Expr)
  | importModule (keyword path : Token)
  | exportDecl (keyword : Token) (declaration : Stmt)

/-- A function or method as it is written. Without a parameter list it is a getter, which runs
when it is read. -/
structure Routine where
  name : Token
  params : Option (List Token)
  body : List Stmt

end

namespace Routine

/-- The parameters; a getter has none. -/
def parameters (r : Routine) : List Token :=
  r.params.getD []

def arity (r : Routine) : Nat :=
  r.parameters.length

def isGetter (r : Routine) : Bool :=
  r.params.isNone

end Routine

/-- The name that a declaration introduces. -/
def Stmt.declared? : Stmt → Option Token
  | .var name _ => some name
  | .function routine => some routine.name
  | .classDecl name _ _ => some name
  | _ => none

end Treewalk
