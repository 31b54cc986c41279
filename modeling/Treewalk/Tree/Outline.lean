import Treewalk.Tree

/-!
# The outline of an expression

An expression as text with every operator before its operands and all nesting in parentheses.
-/

namespace Treewalk

def Literal.outline : Literal → String
  | .number value => Number.Style.outlined.write value
  | .text contents => contents
  | .bool true => "true"
  | .bool false => "false"
  | .nil => "nil"

mutual

def Expr.outline : Expr → String
  | .literal value => value.outline
  | .group inner => "(group " ++ inner.outline ++ ")"
  | .unary op right => "(" ++ op.lexeme ++ " " ++ right.outline ++ ")"
  | .binary op left right =>
    "(" ++ op.lexeme ++ " " ++ left.outline ++ " " ++ right.outline ++ ")"
  | .logical op left right =>
    "(" ++ op.lexeme ++ " " ++ left.outline ++ " " ++ right.outline ++ ")"
  | .conditional condition yes no =>
    "(?: " ++ condition.outline ++ " " ++ yes.outline ++ " " ++ no.outline ++ ")"
  | .var _ name => name.lexeme
  | .this _ _ => "this"
  | .assign _ name value => "(= " ++ name.lexeme ++ " " ++ value.outline ++ ")"
  | .call callee _ arguments => "(call " ++ callee.outline ++ Expr.outlines arguments ++ ")"
  | .get object name => "(. " ++ object.outline ++ " " ++ name.lexeme ++ ")"
  | .set object name value =>
    "(= (. " ++ object.outline ++ " " ++ name.lexeme ++ ") " ++ value.outline ++ ")"
  | .array elements => "(array" ++ Expr.outlines elements ++ ")"
  | .index target _ position => "(index " ++ target.outline ++ " " ++ position.outline ++ ")"

/-- Outlines in a row, each behind a space. -/
def Expr.outlines : List Expr → String
  | [] => ""
  | e :: rest => " " ++ e.outline ++ Expr.outlines rest

end

end Treewalk
