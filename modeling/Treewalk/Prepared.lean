import Treewalk.Parser
import Treewalk.Scope
import Treewalk.Token.Lexer

/-!
# Sources ready to run

A source is cut into tokens, read as a tree, and walked for its scopes, in this order; the first
mistake refuses it. Nothing has run by then.
-/

namespace Treewalk

/-- A tree that has passed all static checks. -/
structure Prepared (α : Type) where
  tree : α
  notes : List Scope.Note
  nextId : NodeId
deriving DecidableEq

namespace Prepared

def ofSource (read : List Token → NodeId → Except Error α × NodeId)
    (walk : α → Except Error (List Scope.Note)) (source : String) (nextId : NodeId) :
    Except Error (Prepared α) := do
  let tokens ← Lexer.scan (Text.Utf8.encode source)
  let (result, nextId) := read tokens nextId
  let tree ← result
  let notes ← walk tree
  return ⟨tree, notes, nextId⟩

def program : String → NodeId → Except Error (Prepared (List Stmt)) :=
  ofSource Parser.program Scope.program

def loneExpression : String → NodeId → Except Error (Prepared Expr) :=
  ofSource Parser.loneExpression Scope.loneExpression

def walkLine : Line → Except Error (List Scope.Note)
  | .statements body => Scope.program body
  | .expression e => Scope.loneExpression e

def line : String → NodeId → Except Error (Prepared Line) :=
  ofSource Parser.line walkLine

end Prepared

end Treewalk
