import ShellSyntax.Json.Basic
import ShellSyntax.Schema.Fields

/-!
# Encoding trees

`Node.encode` writes a tree as a JSON object: the name of its kind under `type`, then its fields in
order, those that have their default left out. Lists become arrays, tokens their spelling.
-/

namespace ShellSyntax

/-- The object of a shape with the given field values, each beside its encoded form. -/
def Shape.object (s : Shape) (values : List (FieldValue × Json)) : Json :=
  .object (("type", .string s.name) :: (s.fields.zip values).filterMap fun (field, value, json) =>
    if field.default?.any (·.holds value) then none else some (field.name, json))

def Pos.encode (p : Pos) : Json :=
  Shape.pos.object
    [(.int p.line, .int p.line), (.int p.column, .int p.column), (.int p.offset, .int p.offset)]

/-- The encoded form of a value that holds no node. -/
def FieldValue.encodeScalar : FieldValue → Json
  | .bool b => .bool b
  | .int n => .int n
  | .text t => .string t
  | .token t => .string t.spelling
  | .pos p => p.encode
  | _ => .null

namespace Node

def encode (n : Node) : Json :=
  (Shape.node n.kind).object (n.fields.attach.map fun v =>
    (v.1, match hv : v.1 with
      | .node c =>
        have : c.size < n.size := size_lt_of_mem_fields v.2 (by simp [hv, FieldValue.held])
        c.encode
      | .nodes l =>
        .array (l.attach.map fun ⟨c, hc⟩ =>
          have : c.size < n.size := size_lt_of_mem_fields v.2 (by simp [hv, FieldValue.held, hc])
          c.encode)
      | other => other.encodeScalar))
termination_by n.size

/-- The encoded form of the value of a field. -/
def encodeField : FieldValue → Json
  | .node c => c.encode
  | .nodes l => .array (l.map encode)
  | other => other.encodeScalar

theorem encode_eq (n : Node) :
    n.encode = (Shape.node n.kind).object (n.fields.map fun v => (v, encodeField v)) := by
  rw [encode]
  congr 1
  conv => rhs; rw [← List.attach_map_subtype_val n.fields, List.map_map]
  apply List.map_congr_left
  rintro ⟨v, hv⟩ -
  cases v <;> simp [encodeField]

end Node

end ShellSyntax
