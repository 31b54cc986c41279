import Treewalk.Text.Json
import Treewalk.Token

/-!
# Tokens in JSON
-/

namespace Treewalk

open Text (Json)

/-- A kind by its name; texts and numbers with their contents under it. -/
def Kind.toJson (kind : Kind) : Json :=
  match kind with
  | .text contents => .object [(kind.name, .string contents)]
  | .number value => .object [(kind.name, .number (Number.Style.json.write value))]
  | _ => .string kind.name

def Token.toJson (t : Token) : Json :=
  .object
    [("token_type", t.kind.toJson), ("lexeme", .string t.lexeme),
      ("line", .number (toString t.line))]

/-- A list of tokens as indented JSON text. -/
def Token.renderJson (tokens : List Token) : String :=
  (Json.array (tokens.map Token.toJson)).pretty 0

end Treewalk
