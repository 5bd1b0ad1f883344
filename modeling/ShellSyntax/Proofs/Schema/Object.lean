import ShellSyntax.Proofs.Json.Keyed
import ShellSyntax.Proofs.Schema.Declared

/-!
# Decoding one object

The entries of an object are decoded one by one (`decodeEntries_declared`), and what they give is
put together once none is missing (`Shape.assemble_eq`).
-/

namespace ShellSyntax

/-- The value of a declared field. -/
def decodeValue (path : Path) (s : Shape) (f : Field) (j : Json) : Outcome FieldValue :=
  if f.type = .token then decodeToken s f path j else fitField s f path (decodeAt path j)

theorem decodeEntries_type (path : Path) (s : Shape) (j : Json) (rest : List (String × Json)) :
    decodeEntries path s (("type", j) :: rest) = decodeEntries path s rest := by
  simp [decodeEntries]

theorem decodeEntries_declared {path : Path} {s : Shape} {f : Field} (hf : f ∈ s.fields) (j : Json)
    (rest : List (String × Json)) :
    decodeEntries path s ((f.name, j) :: rest)
      = Outcome.both (fun v l => (f.name, v) :: l) (decodeValue (path ++ [.key f.name]) s f j)
          (decodeEntries path s rest) := by
  rw [decodeEntries, if_neg (Shape.name_ne_type hf)]
  simp only [Shape.field?_of_mem hf, decodeValue]

namespace Shape

theorem missing_eq_nil_iff {s : Shape} {entries : List (String × Json)} :
    s.missing entries = [] ↔ ∀ f ∈ s.fields, f.default? = none → ∃ j, (f.name, j) ∈ entries := by
  simp only [missing, List.filter_eq_nil_iff, Bool.and_eq_true, Option.isNone_iff_eq_none,
    Json.lookup?_eq_none_iff, not_and, not_forall, not_not]

/-- A defect for each field that is left out without having a default. -/
def required (s : Shape) (path : Path) (entries : List (String × Json)) : Outcome Unit :=
  match s.missing entries with
  | [] => .ok ()
  | l => .error (l.map fun f => ⟨.missing s f, path⟩)

theorem assemble_eq (s : Shape) (path : Path) (entries : List (String × Json))
    (fields : Outcome (List (String × FieldValue))) :
    s.assemble path entries fields
      = match Outcome.both (fun given _ => given) fields (s.required path entries) with
        | .error e => .error e
        | .ok given =>
          match s.build? given with
          | some item => .ok (.item item)
          | none => .error [] := rfl

end Shape

end ShellSyntax
