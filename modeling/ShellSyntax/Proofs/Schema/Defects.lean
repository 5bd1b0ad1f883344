import ShellSyntax.Proofs.Schema.Conforms

/-!
# Where defects are found

* `Outcome.defects`: all that an outcome tells; `defects_decodeAt_object`: of an object, the defects
  of its entries and then the fields that it lacks;
* `Json.Leads`: the value at the end of a path; `Defect.Of`: what a defect says of the value where
  it is told;
* `holds_decode`: every defect is told where it is;
* `loadTree_tells`: so all that is logged of a value that is no tree is true of it.
-/

namespace ShellSyntax

/-! ### The defects of an outcome -/

namespace Outcome

variable {α β γ : Type}

/-- All that the outcome tells. -/
def defects : Outcome α → List Located
  | .ok _ => []
  | .error e => e

@[simp] theorem defects_ok (a : α) : defects (.ok a) = [] := rfl

@[simp] theorem defects_error (e : List Located) : defects (.error e : Outcome α) = e := rfl

@[simp] theorem defects_map (f : α → β) (o : Outcome α) : defects (o.map f) = o.defects := by
  cases o <;> rfl

/-- Where some defect is told, something is wrong. -/
theorem Judges.bad_of_mem {good : α → Prop} {bad : Prop} {o : Outcome α} (h : o.Judges good bad)
    {d : Located} (hd : d ∈ o.defects) : bad := by
  cases o with
  | ok a => cases hd
  | error e => exact h.2

@[simp] theorem defects_both (f : α → β → γ) (a : Outcome α) (b : Outcome β) :
    (both f a b).defects = a.defects ++ b.defects := by
  cases a <;> cases b <;> simp [both]

end Outcome

namespace Shape

/-- What is told of one entry of an object of the shape. -/
def entryDefects (s : Shape) (path : Path) : String × Json → List Located
  | (key, j) =>
    if key = "type" then []
    else match s.field? key with
      | none => [⟨.unknownField s key, path⟩]
      | some f => (decodeValue (path ++ [.key key]) s f j).defects

theorem defects_required (s : Shape) (path : Path) (entries : List (String × Json)) :
    (s.required path entries).defects = (s.missing entries).map fun f => ⟨.missing s f, path⟩ := by
  unfold required
  split
  · rename_i h
    rw [h]
    rfl
  · rfl

theorem defects_assemble (s : Shape) (path : Path) (entries : List (String × Json))
    (fields : Outcome (List (String × FieldValue))) :
    (s.assemble path entries fields).defects
      = fields.defects ++ (s.missing entries).map fun f => ⟨.missing s f, path⟩ := by
  rw [← defects_required, ← Outcome.defects_both fun given _ => given, assemble_eq]
  split
  · rename_i e he
    rw [he]
    rfl
  · rename_i given hgiven
    rw [hgiven]
    split <;> rfl

end Shape

theorem defects_decodeEntries (path : Path) (s : Shape) (entries : List (String × Json)) :
    (decodeEntries path s entries).defects = entries.flatMap (s.entryDefects path) := by
  induction entries with
  | nil => rfl
  | cons e rest ih =>
    obtain ⟨key, j⟩ := e
    rw [List.flatMap_cons, ← ih, Shape.entryDefects]
    by_cases hk : key = "type"
    · rw [if_pos hk, hk, decodeEntries_type, List.nil_append]
    · rw [if_neg hk]
      cases hf : s.field? key with
      | none =>
        rw [decodeEntries, if_neg hk]
        simp only [hf, Outcome.defects_both, Outcome.defects_error]
      | some f =>
        obtain ⟨hm, rfl⟩ := Shape.mem_of_field? hf
        rw [decodeEntries_declared hm, Outcome.defects_both]

theorem defects_decodeAt_object (path : Path) {s : Shape} {entries : List (String × Json)}
    (h : Shape.ofEntries? entries = some s) :
    (decodeAt path (.object entries)).defects = entries.flatMap (s.entryDefects path)
      ++ (s.missing entries).map fun f => ⟨.missing s f, path⟩ := by
  rw [decodeAt, h]
  simp only [Shape.defects_assemble, defects_decodeEntries]

theorem defects_decodeAt_unnamed (path : Path) {entries : List (String × Json)}
    (h : Shape.ofEntries? entries = none) : (decodeAt path (.object entries)).defects
      = [⟨.unknownType (Json.lookup? "type" entries), path⟩] := by
  rw [decodeAt, h]
  rfl

/-! ### The value at a path -/

/-- The path leads from the root to the value, by keys of objects and indices of arrays. -/
inductive Json.Leads (root : Json) : Path → Json → Prop where
  | root : Leads root [] root
  | key {path : Path} {entries : List (String × Json)} {name : String} {j : Json}
      (h : Leads root path (.object entries)) (hm : (name, j) ∈ entries) :
      Leads root (path ++ [.key name]) j
  | index {path : Path} {items : List Json} {i : Nat} {j : Json}
      (h : Leads root path (.array items)) (hm : items[i]? = some j) :
      Leads root (path ++ [.index i]) j

/-- The value at the end of the path is that of the field, in an object of the shape. -/
def Json.IsField (root : Json) (path : Path) (s : Shape) (f : Field) (j : Json) : Prop :=
  ∃ front entries, path = front ++ [.key f.name] ∧ root.Leads front (.object entries) ∧
    lookup? "type" entries = some (.string s.name) ∧ f ∈ s.fields ∧ (f.name, j) ∈ entries

/-- What the defect says of the value at the end of the path. -/
def Defect.Of (root : Json) (path : Path) (j : Json) : Defect → Prop
  | .unknownType found => ∃ entries, j = .object entries ∧ found = Json.lookup? "type" entries ∧
      ∀ s : Shape, found ≠ some (.string s.name)
  | .unknownField s key => ∃ entries, j = .object entries ∧
      Json.lookup? "type" entries = some (.string s.name) ∧ key ≠ "type" ∧
      key ∈ entries.map Prod.fst ∧ key ∉ s.fields.map Field.name
  | .unknownToken found => j = found ∧ (∃ s f, f.type = .token ∧ root.IsField path s f j) ∧
      ∀ t : Token, j ≠ .string t.spelling
  | .mistyped s f => root.IsField path s f j ∧ ¬j.Fits f.type ∧ ∃ d, decodeAt path j = .ok d
  | .missing s f => ∃ entries, j = .object entries ∧
      Json.lookup? "type" entries = some (.string s.name) ∧ f ∈ s.fields ∧ f.default? = none ∧
      f.name ∉ entries.map Prod.fst
  | .notATree => path = [] ∧ j = root ∧ ∃ d, decodeAt [] j = .ok d ∧ ∀ n, d ≠ .item (.node n)

/-- The path leads to a value of which the defect holds. -/
def Located.Holds (root : Json) (d : Located) : Prop :=
  ∃ j, root.Leads d.path j ∧ d.defect.Of root d.path j

/-! ### Every defect is told where it is -/

section Defects

variable {root : Json} {path : Path} {s : Shape}

theorem holds_decodeToken {f : Field} {j : Json} (hf : f.type = .token)
    (hj : root.IsField path s f j) (hl : root.Leads path j) :
    ∀ d ∈ (decodeToken s f path j).defects, d.Holds root := by
  intro d hd
  have hno := (judges_decodeToken hf j).bad_of_mem hd
  unfold decodeToken at hd
  split at hd
  · cases List.mem_singleton.mp hd
    exact ⟨_, hl, hj, hno, .scalar .null, by simp [decodeAt]⟩
  · split at hd
    · cases hd
    · cases List.mem_singleton.mp hd
      refine ⟨_, hl, rfl, ⟨s, f, hf, hj⟩, fun t ht => hno ?_⟩
      rw [ht, hf]
      exact .token t
  · cases List.mem_singleton.mp hd
    refine ⟨_, hl, rfl, ⟨s, f, hf, hj⟩, fun t ht => hno ?_⟩
    rw [ht, hf]
    exact .token t

theorem holds_decodeValue {f : Field} {j : Json} (hj : root.IsField path s f j)
    (hl : root.Leads path j) (h : ∀ d ∈ (decodeAt path j).defects, d.Holds root) :
    ∀ d ∈ (decodeValue path s f j).defects, d.Holds root := by
  intro d hd
  have hno := (judges_decodeValue (judges_decodeAt path j)).bad_of_mem hd
  unfold decodeValue at hd
  split at hd
  · rename_i ht
    exact holds_decodeToken ht hj hl d hd
  · cases hv : decodeAt path j with
    | error e =>
      rw [hv] at hd h
      exact h d hd
    | ok v =>
      rw [hv, fitField] at hd
      split at hd
      · cases hd
      · cases List.mem_singleton.mp hd
        exact ⟨j, hl, hj, hno, v, hv⟩

mutual

/-- The recursion is that of decoding. All it hands down is how the path leads to the value, so what
is wrong beside or above a value makes no defect of it. -/
theorem holds_decodeAt {root : Json} {path : Path} : (j : Json) → root.Leads path j →
    ∀ d ∈ (decodeAt path j).defects, d.Holds root
  | .array items, h => by
    rw [decodeAt, Outcome.defects_map]
    exact holds_decodeItems 0 items fun i j hj => by simpa using h.index hj
  | .object entries, h => by
    cases hs : Shape.ofEntries? entries with
    | none =>
      rw [defects_decodeAt_unnamed path hs, List.forall_mem_singleton]
      refine ⟨_, h, entries, rfl, rfl, fun s hn => ?_⟩
      rw [Shape.ofEntries?_eq_some_iff.mpr hn] at hs
      cases hs
    | some s =>
      have named := Shape.ofEntries?_eq_some_iff.mp hs
      rw [decodeAt, hs, Shape.defects_assemble, List.forall_mem_append, List.forall_mem_map]
      refine ⟨holds_decodeEntries h named entries fun e he => he, fun f hf => ?_⟩
      simp only [Shape.missing, List.mem_filter, Bool.and_eq_true, Option.isNone_iff_eq_none] at hf
      obtain ⟨hf, hd, hlookup⟩ := hf
      exact ⟨_, h, entries, rfl, named, hf, hd, Json.lookup?_eq_none_iff_notMem.mp hlookup⟩
  | .null, _ | .bool _, _ | .int _, _ | .float _, _ | .string _, _ => by
    simp [decodeAt]

theorem holds_decodeItems {root : Json} {path : Path} (n : Nat) : (items : List Json) →
    (∀ i j, items[i]? = some j → root.Leads (path ++ [.index (n + i)]) j) →
    ∀ d ∈ (decodeItems path n items).defects, d.Holds root
  | [], _ => by simp [decodeItems]
  | j :: rest, h => by
    rw [decodeItems, Outcome.defects_both, List.forall_mem_append]
    refine ⟨holds_decodeAt j (h 0 j rfl), holds_decodeItems (n + 1) rest fun i j hj => ?_⟩
    -- item `i` of the rest is item `i + 1` of the list
    rw [Nat.succ_add_eq_add_succ]
    exact h (i + 1) j hj

theorem holds_decodeEntries {root : Json} {path : Path} {s : Shape}
    {entries : List (String × Json)} (h : root.Leads path (.object entries))
    (named : Json.lookup? "type" entries = some (.string s.name)) : (rest : List (String × Json)) →
    (∀ e ∈ rest, e ∈ entries) → ∀ d ∈ (decodeEntries path s rest).defects, d.Holds root
  | [], _ => by simp [decodeEntries]
  | (key, j) :: rest, hsub => by
    have hrest := holds_decodeEntries h named rest fun e he => hsub e (List.mem_cons_of_mem _ he)
    have hm := hsub _ List.mem_cons_self
    have hl := h.key hm
    rw [defects_decodeEntries] at hrest ⊢
    rw [List.flatMap_cons, List.forall_mem_append]
    refine ⟨?_, hrest⟩
    rw [Shape.entryDefects]
    split
    · simp
    · rename_i hk
      split
      · rename_i hf
        rw [List.forall_mem_singleton]
        refine ⟨_, h, entries, rfl, named, hk, List.mem_map_of_mem hm, fun hn => ?_⟩
        obtain ⟨f, hdeclared, rfl⟩ := List.mem_map.mp hn
        rw [Shape.field?_of_mem hdeclared] at hf
        cases hf
      · rename_i f hf
        obtain ⟨hdeclared, rfl⟩ := Shape.mem_of_field? hf
        have hfield : root.IsField (path ++ [.key f.name]) s f j :=
          ⟨path, entries, rfl, h, named, hdeclared, hm⟩
        exact holds_decodeValue hfield hl (holds_decodeAt j hl)

end

/-! ### Loading -/

theorem holds_decode (root : Json) : ∀ d ∈ (Node.decode root).defects, d.Holds root := by
  have h := holds_decodeAt root .root
  unfold Node.decode
  split
  · rename_i e he
    rw [he] at h
    exact h
  · simp
  · rename_i v hno hv
    rw [Outcome.defects_error, List.forall_mem_singleton]
    exact ⟨root, .root, rfl, rfl, v, hv, fun n hn => hno n hn⟩

theorem reporter_loadTree (r : Reporter) (j : Json) :
    (loadTree r j).reporter = r.logAll ((Node.decode j).defects.map Located.diagnostic) := by
  unfold loadTree
  split
  · rename_i defects hd
    rw [hd]
    rfl
  · rename_i n hn
    simp [hn, Reporter.logAll]

/-- What is logged of a value is one message for each defect of it, with a path, and none exactly if
it is a tree. Every path leads to a value inside, of which the message is true. -/
theorem loadTree_tells (r : Reporter) (root : Json) :
    (loadTree r root).reporter = r.logAll ((Node.decode root).defects.map fun d =>
      { message := d.defect.message, context := d.path.render }) ∧
    ((loadTree r root).tree = none ↔ (Node.decode root).defects ≠ []) ∧
    ∀ d ∈ (Node.decode root).defects, ∃ j, root.Leads d.path j ∧ d.defect.Of root d.path j := by
  refine ⟨?_, ?_, holds_decode root⟩
  · rw [reporter_loadTree]
    rfl
  · have hjudges := judges_decode root
    unfold loadTree
    cases hd : Node.decode root with
    | ok n => simp
    | error defects =>
      rw [hd] at hjudges
      simp [hjudges.1]

end Defects

end ShellSyntax
