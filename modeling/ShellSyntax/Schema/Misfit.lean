import ShellSyntax.Json.Basic
import ShellSyntax.Text.Quoted

/-!
# Values of no use

A `Misfit` is a value given where a node, an encodable value or the spelling of a token is asked for.
`Json.encodePlain` encodes values that hold no node.
-/

namespace ShellSyntax

inductive Misfit where
  | notANode (value : Json)
  | notEncodable (value : Json)
  | notAToken (spelling : String)

def Misfit.message : Misfit → String
  | .notANode value => "not a syntax tree node: " ++ value.quoted
  | .notEncodable value => "cannot encode " ++ value.quoted
  | .notAToken spelling => quoted spelling ++ " is not a valid Token"

namespace Json

mutual

/-- Texts, whole numbers, truth values and lists of such stand for themselves; nothing else has an
encoded form unless it is a node. -/
def encodePlain : Json → Except Misfit Json
  | .null => .ok .null
  | .bool b => .ok (.bool b)
  | .int n => .ok (.int n)
  | .string t => .ok (.string t)
  | .array items => (encodePlainItems items).map .array
  | .float bits => .error (.notEncodable (.float bits))
  | .object entries => .error (.notEncodable (.object entries))

def encodePlainItems : List Json → Except Misfit (List Json)
  | [] => .ok []
  | j :: rest => do return (← encodePlain j) :: (← encodePlainItems rest)

end

end Json

end ShellSyntax
