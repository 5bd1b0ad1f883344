import ShellSyntax.Diagnostic
import ShellSyntax.Json.Basic
import ShellSyntax.Schema.Fields
import ShellSyntax.Text.Quoted

/-!
# Decoding trees

`Node.decode` reads the tree that a JSON value encodes. Every defect is reported with the path of the
value in which it was found, in the order of the text: those inside an object come before one of the
object as a whole. A value of the wrong type is reported only if there is no defect inside it.
-/

namespace ShellSyntax

/-- A step from a value to one inside it. -/
inductive Step where
  | key (name : String)
  | index (i : Nat)
  deriving DecidableEq, Repr

/-- The way from the whole value to one inside it. -/
abbrev Path := List Step

def Step.render : Step → String
  | .key name => "." ++ name
  | .index i => "[" ++ toString i ++ "]"

def Path.render (path : Path) : String := "$" ++ String.join (path.map Step.render)

inductive Defect where
  | unknownType (found : Option Json)
  | unknownField (shape : Shape) (key : String)
  | unknownToken (found : Json)
  /-- The value of a field does not have the type of the field. -/
  | mistyped (shape : Shape) (field : Field)
  /-- A field without a default is left out. -/
  | missing (shape : Shape) (field : Field)
  /-- The whole value is something other than a node. -/
  | notATree

/-- A defect and where it was found. -/
structure Located where
  defect : Defect
  path : Path

namespace Defect

def message : Defect → String
  | .unknownType found => "unknown node type `" ++ (found.getD .null).shown ++ "'"
  | .unknownField shape key => "unknown field `" ++ key ++ "' for " ++ shape.name
  | .unknownToken found => "unknown token `" ++ found.shown ++ "'"
  | .mistyped shape field =>
    "field `" ++ field.name ++ "' of " ++ shape.name ++ " expects " ++ field.type.describe
  | .missing shape field =>
    "cannot build " ++ shape.name ++ ": " ++ shape.name
      ++ ".__init__() missing 1 required positional argument: '" ++ field.name ++ "'"
  | .notATree => "expected a syntax tree node at the top"

end Defect

def Located.diagnostic (d : Located) : Diagnostic :=
  { message := d.defect.message, context := d.path.render }

/-- What a JSON value stands for: itself if it has no parts, a node or position, or a list. -/
inductive Decoded where
  | scalar (value : Json)
  | item (value : Item)
  | list (values : List Decoded)

namespace Family

/-- The node, if it belongs to the family. -/
def admit? (f : Family) : Decoded → Option Node
  | .item (.node n) => if n.kind ∈ f.kinds then some n else none
  | _ => none

end Family

/-- The value of a field of the given type, if the decoded value fits it. -/
def FieldType.fit? : FieldType → Decoded → Option FieldValue
  | .bool, .scalar (.bool b) => some (.bool b)
  | .int, .scalar (.int n) => some (.int n)
  | .text, .scalar (.string t) => some (.text t)
  | .pos, .item (.pos p) => some (.pos p)
  | .node f, d => (f.admit? d).map .node
  | .optional _, .scalar .null => some .absent
  | .optional f, d => (f.admit? d).map .node
  | .list f, .list l => (l.mapM f.admit?).map .nodes
  | _, _ => none

/-- The outcome of decoding: the result, or all defects. -/
abbrev Outcome := Except (List Located)

namespace Outcome

variable {α β γ : Type}

/-- Combines two results. The defects of both count. -/
def both (f : α → β → γ) : Outcome α → Outcome β → Outcome γ
  | .ok a, .ok b => .ok (f a b)
  | .error e, .ok _ => .error e
  | .ok _, .error e => .error e
  | .error e, .error e' => .error (e ++ e')

end Outcome

/-- The token that a field of type `token` holds. -/
def decodeToken (shape : Shape) (field : Field) (path : Path) : Json → Outcome FieldValue
  | .null => .error [⟨.mistyped shape field, path⟩]
  | .string t =>
    match Token.ofSpelling? t with
    | some token => .ok (.token token)
    | none => .error [⟨.unknownToken (.string t), path⟩]
  | j => .error [⟨.unknownToken j, path⟩]

/-- The value of a field that holds no token. -/
def fitField (shape : Shape) (field : Field) (path : Path) (d : Outcome Decoded) :
    Outcome FieldValue :=
  match d with
  | .error e => .error e
  | .ok d =>
    match field.type.fit? d with
    | some v => .ok v
    | none => .error [⟨.mistyped shape field, path⟩]

namespace Shape

/-- The shape that an object names under `type`. -/
def ofEntries? (entries : List (String × Json)) : Option Shape :=
  match Json.lookup? "type" entries with
  | some (.string name) => ofName? name
  | _ => none

/-- The fields that an object leaves out although they have no default. -/
def missing (s : Shape) (entries : List (String × Json)) : List Field :=
  s.fields.filter fun f => f.default?.isNone && (Json.lookup? f.name entries).isNone

/-- The node or position whose given fields have the given values, and the others their default. -/
def build? (s : Shape) (given : List (String × FieldValue)) : Option Item := do
  let values ← s.fields.mapM fun f => (given.lookup f.name).or (f.default?.map Default.value)
  Item.ofFields? s values

/-- The item of an object, from its decoded fields. -/
def assemble (s : Shape) (path : Path) (entries : List (String × Json))
    (fields : Outcome (List (String × FieldValue))) : Outcome Decoded :=
  let required : Outcome Unit :=
    match s.missing entries with
    | [] => .ok ()
    | l => .error (l.map fun f => ⟨.missing s f, path⟩)
  match Outcome.both (fun given _ => given) fields required with
  | .error e => .error e
  | .ok given =>
    match s.build? given with
    | some item => .ok (.item item)
    | none => .error []

end Shape

mutual

/-- What the value at `path` stands for. -/
def decodeAt (path : Path) : Json → Outcome Decoded
  | .array items => (decodeItems path 0 items).map .list
  | .object entries =>
    match Shape.ofEntries? entries with
    | none => .error [⟨.unknownType (Json.lookup? "type" entries), path⟩]
    | some shape => shape.assemble path entries (decodeEntries path shape entries)
  | j => .ok (.scalar j)

/-- What the items of an array stand for, the first of which has index `i`. -/
def decodeItems (path : Path) (i : Nat) : List Json → Outcome (List Decoded)
  | [] => .ok []
  | j :: rest =>
    Outcome.both (· :: ·) (decodeAt (path ++ [.index i]) j) (decodeItems path (i + 1) rest)

/-- The values of the fields among the entries of an object. -/
def decodeEntries (path : Path) (shape : Shape) :
    List (String × Json) → Outcome (List (String × FieldValue))
  | [] => .ok []
  | (key, j) :: rest =>
    let others := decodeEntries path shape rest
    if key = "type" then others
    else
      match shape.field? key with
      | none =>
        Outcome.both (fun _ l => l) (.error [⟨.unknownField shape key, path⟩] : Outcome Unit) others
      | some field =>
        let here := path ++ [.key key]
        let value :=
          if field.type = .token then decodeToken shape field here j
          else fitField shape field here (decodeAt here j)
        Outcome.both (fun v l => (key, v) :: l) value others

end

/-- The tree that the value encodes. -/
def Node.decode (j : Json) : Outcome Node :=
  match decodeAt [] j with
  | .error e => .error e
  | .ok (.item (.node n)) => .ok n
  | .ok _ => .error [⟨.notATree, []⟩]

end ShellSyntax
