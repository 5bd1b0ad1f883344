import ShellSyntax.Proofs.Schema.Alike
import ShellSyntax.Proofs.Schema.RoundTrip

/-!
# Encoding what was decoded

* `Json.normal`: a value without the fields whose decoded value is the default, at all depths
  (`Shape.restates_iff`);
* `Decoded.alike_normal`: what was decoded from a value is encoded as the normal form of the value;
* `encode_alike_normal`: so decoding loses no more than the fields that say nothing, and two values
  are read as one tree exactly if their normal forms are alike.
-/

namespace ShellSyntax

/-! ### Normal forms -/

/-- The entry holds the value that its field would have without it. -/
def Shape.restates (s : Shape) (key : String) (j : Json) : Bool :=
  match s.field? key with
  | none => false
  | some f =>
    match decodeValue [] s f j with
    | .error _ => false
    | .ok v => f.Omits v

mutual

/-- The value without the entries that restate a default. -/
def Json.normal : Json → Json
  | .array items => .array (normalItems items)
  | .object entries =>
    match Shape.ofEntries? entries with
    | none => .object entries
    | some s => .object (normalEntries s entries)
  | j => j

def Json.normalItems : List Json → List Json
  | [] => []
  | j :: rest => j.normal :: normalItems rest

def Json.normalEntries (s : Shape) : List (String × Json) → List (String × Json)
  | [] => []
  | (key, j) :: rest =>
    if s.restates key j then normalEntries s rest else (key, j.normal) :: normalEntries s rest

end

namespace Shape

variable {s : Shape} {key : String} {j : Json}

theorem restates_iff : s.restates key j = true ↔
    ∃ f d, s.field? key = some f ∧ f.default? = some d ∧ decodeValue [] s f j = .ok d.value := by
  unfold restates
  cases s.field? key with
  | none => simp
  | some f =>
    cases hv : decodeValue [] s f j with
    | error e => simp [hv]
    | ok v => simp [Field.Omits, Default.holds_iff, hv, Option.any_eq_true]

theorem restates_type (s : Shape) (j : Json) : s.restates "type" j = false := by
  cases hf : s.field? "type" with
  | none => simp [restates, hf]
  | some f =>
    obtain ⟨hm, hn⟩ := mem_of_field? hf
    exact absurd hn (name_ne_type hm)

theorem restates_of_decodeValue {f : Field} {v : FieldValue} (hf : f ∈ s.fields)
    (hv : decodeValue [] s f j = .ok v) : s.restates f.name j = f.Omits v := by
  simp only [restates, field?_of_mem hf, hv]

/-- The entry with its value in normal form, or nothing if it restates a default. -/
def kept (s : Shape) (e : String × Json) : Option (String × Json) :=
  if s.restates e.1 e.2 then none else some (e.1, e.2.normal)

end Shape

namespace Json

variable {s : Shape} {key : String} {entries : List (String × Json)}

theorem normal_scalar {j : Json} (ha : ∀ items, j ≠ .array items)
    (ho : ∀ entries, j ≠ .object entries) : j.normal = j := by
  cases j with
  | array items => exact absurd rfl (ha items)
  | object entries => exact absurd rfl (ho entries)
  | _ => simp only [normal]

theorem normalItems_eq (items : List Json) : normalItems items = items.map normal := by
  induction items with
  | nil => rfl
  | cons j rest ih => rw [normalItems, ih, List.map_cons]

theorem normalEntries_eq (s : Shape) (entries : List (String × Json)) : normalEntries s entries
    = entries.filterMap s.kept := by
  induction entries with
  | nil => rfl
  | cons e rest ih =>
    rw [normalEntries, List.filterMap_cons, ih]
    cases hr : s.restates e.1 e.2 <;> simp [Shape.kept, hr]

end Json

/-! ### Entries that are left out -/

theorem fst_of_ite {c : Bool} {key : String} {j : Json} {e : String × Json}
    (h : (if c then none else some (key, j)) = some e) : e.1 = key := by
  cases c with
  | true => cases h
  | false =>
    cases h
    rfl

section LeftOut

variable {α : Type} {name : α → String} {form : α → Option (String × Json)} {l : List α}

theorem lookup?_filterMap_eq_none (hform : ∀ a e, form a = some e → e.1 = name a) {key : String}
    (hk : key ∉ l.map name) : Json.lookup? key (l.filterMap form) = none := by
  refine Json.lookup?_eq_none fun hm => hk ?_
  obtain ⟨e, he, rfl⟩ := List.mem_map.mp hm
  obtain ⟨a, ha, hf⟩ := List.mem_filterMap.mp he
  rw [hform a e hf]
  exact List.mem_map_of_mem ha

/-- Under the name of an element stands its form, if it has one. -/
theorem lookup?_filterMap (hform : ∀ a e, form a = some e → e.1 = name a)
    (hl : (l.map name).Nodup) {a : α} (ha : a ∈ l) :
    Json.lookup? (name a) (l.filterMap form) = (form a).map Prod.snd := by
  induction l with
  | nil => cases ha
  | cons b rest ih =>
    rw [List.map_cons, List.nodup_cons] at hl
    rw [List.filterMap_cons]
    rcases List.mem_cons.mp ha with rfl | ha
    · cases hf : form a with
      | none => exact lookup?_filterMap_eq_none hform hl.1
      | some e => simp [Json.lookup?, hform a e hf]
    · have hne : name b ≠ name a := fun he => hl.1 (he ▸ List.mem_map_of_mem ha)
      cases hf : form b with
      | none => exact ih hl.2 ha
      | some e =>
        simp only [Json.lookup?, hform b e hf, if_neg hne]
        exact ih hl.2 ha

theorem nodup_keys_filterMap (hform : ∀ a e, form a = some e → e.1 = name a)
    (hl : (l.map name).Nodup) : ((l.filterMap form).map Prod.fst).Nodup := by
  induction l with
  | nil => simp
  | cons b rest ih =>
    rw [List.map_cons, List.nodup_cons] at hl
    rw [List.filterMap_cons]
    cases hf : form b with
    | none => exact ih hl.2
    | some e =>
      refine List.nodup_cons.mpr ⟨fun hm => hl.1 ?_, ih hl.2⟩
      obtain ⟨e', he', hn⟩ := List.mem_map.mp hm
      obtain ⟨a, ha, hfa⟩ := List.mem_filterMap.mp he'
      rw [← hform b e hf, ← hn, hform a e' hfa]
      exact List.mem_map_of_mem ha

end LeftOut

theorem Shape.fst_of_kept (s : Shape) (e e' : String × Json) (h : s.kept e = some e') :
    e'.1 = e.1 := fst_of_ite h

theorem Json.Keyed.normal {j : Json} (h : j.Keyed) : j.normal.Keyed := by
  induction h with
  | scalar ha ho =>
    rw [normal_scalar ha ho]
    exact .scalar ha ho
  | array _ ih =>
    rw [Json.normal, normalItems_eq]
    refine .array fun j hj => ?_
    obtain ⟨a, ha, rfl⟩ := List.mem_map.mp hj
    exact ih a ha
  | @object entries keys values ih =>
    rw [Json.normal]
    split
    · exact .object keys values
    · rename_i s hs
      rw [normalEntries_eq]
      refine .object (nodup_keys_filterMap s.fst_of_kept keys) fun key j hm => ?_
      obtain ⟨e, he, hkept⟩ := List.mem_filterMap.mp hm
      simp only [Shape.kept, Option.ite_none_left_eq_some, Option.some.injEq,
        Prod.mk.injEq] at hkept
      rw [← hkept.2.2]
      exact ih e.1 e.2 he

/-! ### Encoding -/

def Item.encode : Item → Json
  | .pos p => p.encode
  | .node n => n.encode

theorem Item.encode_eq (i : Item) :
    i.encode = i.shape.object (i.fields.map fun v => (v, Node.encodeField v)) := by
  cases i with
  | pos p => rfl
  | node n => exact n.encode_eq

/-- The encoded form of what was decoded. -/
def Decoded.encode : Decoded → Json
  | .scalar j => j
  | .item i => i.encode
  | .list values => .array (values.map encode)

theorem encodeField_of_admit? {f : Family} {d : Decoded} {n : Node} (h : f.admit? d = some n) :
    n.encode = d.encode := by
  obtain ⟨rfl, -⟩ := Family.admit?_eq_some_iff.mp h
  rw [Decoded.encode, Item.encode]

theorem map_encode_of_mapM {f : Family} {l : List Decoded} {nodes : List Node}
    (h : l.mapM f.admit? = some nodes) : nodes.map Node.encode = l.map Decoded.encode := by
  induction l generalizing nodes with
  | nil =>
    cases h
    rfl
  | cons d rest ih =>
    simp only [List.mapM_cons, Option.bind_eq_bind, Option.bind_eq_some_iff, Option.pure_def,
      Option.some.injEq] at h
    obtain ⟨n, hn, others, ho, rfl⟩ := h
    rw [List.map_cons, List.map_cons, encodeField_of_admit? hn, ih ho]

/-- A field is encoded as the value that it was decoded from. -/
theorem encodeField_of_fit? {type : FieldType} {d : Decoded} {v : FieldValue}
    (h : type.fit? d = some v) : Node.encodeField v = d.encode := by
  unfold FieldType.fit? at h
  split at h
  -- a node, required or optional
  case h_5 | h_7 =>
    obtain ⟨n, hn, rfl⟩ := Option.map_eq_some_iff.mp h
    exact encodeField_of_admit? hn
  case h_8 =>
    obtain ⟨nodes, hn, rfl⟩ := Option.map_eq_some_iff.mp h
    rw [Node.encodeField, Decoded.encode, map_encode_of_mapM hn]
  case h_9 => cases h
  -- what holds no node is encoded as it was
  all_goals
    cases h
    simp only [Decoded.encode]
    rfl

theorem alike_normal_of_decodeValue {path : Path} {s : Shape} {f : Field} {j : Json}
    {v : FieldValue} (hv : decodeValue path s f j = .ok v)
    (hd : ∀ d, decodeAt path j = .ok d → d.encode.Alike j.normal) :
    (Node.encodeField v).Alike j.normal := by
  rcases decodeValue_eq_ok_iff.mp hv with ⟨-, t, rfl, rfl⟩ | ⟨-, d, hj, hfit⟩
  · exact .scalar (j := .string t.spelling) (by simp) (by simp)
  · rw [encodeField_of_fit? hfit]
    exact hd d hj

/-! ### The entries of an object -/

section Object

variable {i : Item} {path : Path} {s : Shape} {f : Field} {v : FieldValue} {key : String} {j : Json}
  {entries : List (String × Json)}

/-- The field with its encoded value, or nothing if it has its default. -/
def Field.entry (p : Field × FieldValue) : Option (String × Json) :=
  if p.1.Omits p.2 then none else some (p.1.name, Node.encodeField p.2)

theorem Field.fst_of_entry (p : Field × FieldValue) (e : String × Json) (h : entry p = some e) :
    e.1 = p.1.name := fst_of_ite h

theorem Item.nodup_names (i : Item) :
    ((i.shape.fields.zip i.fields).map fun p => p.1.name).Nodup := by
  have hnames : (i.shape.fields.zip i.fields).map (fun p => p.1.name)
      = i.shape.fields.map Field.name := by
    conv => rhs; rw [← List.map_fst_zip (Nat.le_of_eq i.fields_typed.length_eq), List.map_map]
    rfl
  rw [hnames]
  exact (List.nodup_cons.mp i.shape.names_nodup).2

theorem Item.lookup?_written (hz : (f, v) ∈ i.shape.fields.zip i.fields) :
    Json.lookup? f.name (("type", .string i.shape.name)
        :: written Node.encodeField i.shape.fields i.fields)
      = if f.Omits v then none else some (Node.encodeField v) := by
  have hne : ¬"type" = f.name := (Shape.name_ne_type (List.of_mem_zip hz).1).symm
  rw [Json.lookup?, if_neg hne]
  refine (lookup?_filterMap Field.fst_of_entry i.nodup_names hz).trans ?_
  simp only [Field.entry]
  split <;> rfl

theorem Json.lookup?_normalEntries (keys : (entries.map Prod.fst).Nodup)
    (hl : lookup? key entries = some j) :
    lookup? key (normalEntries s entries) = if s.restates key j then none else some j.normal := by
  rw [normalEntries_eq]
  have := lookup?_filterMap s.fst_of_kept keys (mem_of_lookup? hl)
  rw [this, Shape.kept]
  split <;> rfl

theorem Json.lookup?_normalEntries_eq_none (hl : lookup? key entries = none) :
    lookup? key (normalEntries s entries) = none := by
  rw [normalEntries_eq]
  refine lookup?_filterMap_eq_none s.fst_of_kept fun hm => ?_
  obtain ⟨⟨k, j⟩, he, rfl⟩ := List.mem_map.mp hm
  exact lookup?_eq_none_iff.mp hl j he

/-- A field that no entry gives has its default, and is left out. -/
theorem Shape.Reads.omits (h : s.Reads path entries f v) (hl : Json.lookup? f.name entries = none) :
    f.Omits v = true := by
  simp only [Reads, hl] at h
  obtain ⟨d, hd, rfl⟩ := Option.map_eq_some_iff.mp h
  simp [Field.Omits, hd, Default.holds_iff]

/-- An item is encoded with the entries that it was decoded from, those left out that restate a
default. -/
theorem Item.alike_normal (keys : (entries.map Prod.fst).Nodup)
    (values : ∀ key j, (key, j) ∈ entries → j.Keyed)
    (hs : Shape.ofEntries? entries = some i.shape)
    (declared : ∀ key, Json.lookup? key entries ≠ none → key ≠ "type" →
      ∃ f ∈ i.shape.fields, f.name = key)
    (reads : List.Forall₂ (i.shape.Reads path entries) i.shape.fields i.fields)
    (hd : ∀ key j, (key, j) ∈ entries → ∀ path d, decodeAt path j = .ok d →
      d.encode.Alike j.normal) :
    i.encode.Alike (Json.object entries).normal := by
  rw [Item.encode_eq, Shape.object_eq, Json.normal, hs]
  -- a key is the name of the shape's entry, or a declared field's, or is in neither object
  refine .of_lookup? fun key => ?_
  by_cases ht : key = "type"
  · subst ht
    have named := Shape.ofEntries?_eq_some_iff.mp hs
    refine .inr ⟨.string i.shape.name, .string i.shape.name, rfl, ?_, ?_⟩
    · rw [Json.lookup?_normalEntries keys named, Shape.restates_type]
      rfl
    · exact .scalar (by simp) (by simp)
  by_cases hf : ∃ f ∈ i.shape.fields, f.name = key
  · obtain ⟨f, hf, rfl⟩ := hf
    obtain ⟨v, hz⟩ := exists_mem_zip reads.length_eq hf
    have hv := List.forall₂_zip reads hz
    rw [Item.lookup?_written hz]
    cases hl : Json.lookup? f.name entries with
    | none => exact .inl ⟨if_pos (hv.omits hl), Json.lookup?_normalEntries_eq_none hl⟩
    | some j =>
      have hm := Json.mem_of_lookup? hl
      simp only [Shape.Reads, hl] at hv
      have hkeyed := values f.name j hm
      -- `restates` decodes at the root, and finds the same value there
      have hroot : decodeValue [] i.shape f j = .ok v :=
        decodeValue_of_alike (.of_keyed hkeyed)
          (fun d => decodeAt_of_alike (.of_keyed hkeyed) hkeyed hkeyed []) hv
      rw [Json.lookup?_normalEntries keys hl, Shape.restates_of_decodeValue hf hroot]
      cases ho : f.Omits v with
      | true => exact .inl ⟨rfl, rfl⟩
      | false =>
        exact .inr ⟨_, _, rfl, rfl, alike_normal_of_decodeValue hv (hd f.name j hm _)⟩
  · have hnone : Json.lookup? key entries = none := by
      by_contra hl
      exact hf (declared key hl ht)
    refine .inl ⟨Json.lookup?_eq_none fun hm => ?_, Json.lookup?_normalEntries_eq_none hnone⟩
    rcases List.mem_cons.mp hm with he | hm
    · exact ht he
    · obtain ⟨e, he, rfl⟩ := List.mem_map.mp hm
      exact hf (List.mem_map.mp (name_mem_of_mem_written he))

end Object

/-- What was decoded from a value is encoded as the normal form of the value. -/
theorem Decoded.alike_normal {j : Json} (hj : j.Keyed) {path : Path} {d : Decoded}
    (hd : decodeAt path j = .ok d) : d.encode.Alike j.normal := by
  induction hj generalizing path d with
  | scalar ha ho =>
    rw [decodeAt_scalar _ ha ho] at hd
    cases hd
    rw [Decoded.encode, Json.normal_scalar ha ho]
    exact .scalar ha ho
  | @array items _ ih =>
    rw [decodeAt, Outcome.map_eq_ok_iff] at hd
    obtain ⟨ds, hds, rfl⟩ := hd
    obtain ⟨hlength, hitems⟩ := decodeItems_eq_ok_iff.mp hds
    rw [Decoded.encode, Json.normal, Json.normalItems_eq]
    refine .array (by simp [hlength]) fun i a b ha hb => ?_
    rw [List.getElem?_map] at ha hb
    obtain ⟨d, hd, rfl⟩ := Option.map_eq_some_iff.mp ha
    obtain ⟨j, hj, rfl⟩ := Option.map_eq_some_iff.mp hb
    exact ih j (List.mem_of_getElem? hj) (hitems i j d hj hd)
  | @object entries keys values ih =>
    obtain ⟨i, rfl, hs, declared, reads⟩ := (decodeAt_object_iff keys).mp hd
    rw [Decoded.encode]
    exact Item.alike_normal keys values hs declared reads fun key j hm _ _ hd => ih key j hm hd

/-! ### What is encoded has no repeated keys -/

theorem Item.keyed_encode {i : Item} (h : ∀ v ∈ i.fields, (Node.encodeField v).Keyed) :
    i.encode.Keyed := by
  rw [Item.encode_eq, Shape.object_eq]
  refine .object (List.nodup_cons.mpr ⟨fun hm => ?_, ?_⟩) fun key j hm => ?_
  · obtain ⟨e, he, ht⟩ := List.mem_map.mp hm
    have hname := name_mem_of_mem_written he
    rw [ht] at hname
    exact (List.nodup_cons.mp i.shape.names_nodup).1 hname
  · exact nodup_keys_filterMap Field.fst_of_entry i.nodup_names
  · rcases List.mem_cons.mp hm with he | hm
    · cases he
      exact .scalar (by simp) (by simp)
    · obtain ⟨⟨f, v⟩, hz, he⟩ := List.mem_filterMap.mp hm
      simp only [Option.ite_none_left_eq_some, Option.some.injEq, Prod.mk.injEq] at he
      rw [← he.2.2]
      exact h v (List.of_mem_zip hz).2

theorem Pos.keyed_encode (p : Pos) : p.encode.Keyed := by
  refine Item.keyed_encode (i := .pos p) fun v hv => ?_
  obtain ⟨n, rfl⟩ : ∃ n, v = .int n := by
    simp only [Item.fields, List.mem_cons, List.not_mem_nil, or_false] at hv
    rcases hv with rfl | rfl | rfl <;> exact ⟨_, rfl⟩
  exact .scalar (j := .int n) (by simp) (by simp)

theorem Node.keyed_encodeField {v : FieldValue} (h : ∀ n ∈ v.held, n.encode.Keyed) :
    (encodeField v).Keyed := by
  cases v with
  | node n => exact h n List.mem_cons_self
  | nodes l =>
    refine .array fun j hj => ?_
    obtain ⟨n, hn, rfl⟩ := List.mem_map.mp hj
    exact h n hn
  | pos p => exact p.keyed_encode
  | _ =>
    simp only [encodeField, FieldValue.encodeScalar]
    exact .scalar (by simp) (by simp)

theorem Node.keyed_encode (n : Node) : n.encode.Keyed := by
  refine Item.keyed_encode (i := .node n) fun v hv => keyed_encodeField fun c hc => ?_
  have : c.size < n.size := size_lt_of_mem_fields hv hc
  exact c.keyed_encode
termination_by n.size

/-! ### Trees -/

theorem loadTree_eq_some_iff {r : Reporter} {j : Json} {n : Node} :
    (loadTree r j).tree = some n ↔ decodeAt [] j = .ok (.item (.node n)) := by
  unfold loadTree Node.decode
  cases decodeAt [] j with
  | error e => simp
  | ok d =>
    cases d with
    | item i => cases i <;> simp
    | _ => simp

/-- Loading a tree and encoding it again yields the normal form of the value that was loaded: its
fields, at all depths, but for those that have their default. The normal form is loaded as the same
tree, encoding it once more changes nothing, and two values are loaded as one tree exactly if their
normal forms are alike. -/
theorem encode_alike_normal (r : Reporter) {j : Json} (hj : j.Keyed) {n : Node}
    (hn : (loadTree r j).tree = some n) :
    n.encode.Alike j.normal ∧ (loadTree r j.normal).tree = some n ∧
    (loadTree r n.encode).tree.map Node.encode = some n.encode ∧
    ∀ (r' : Reporter) {j' : Json} {n' : Node}, j'.Keyed → (loadTree r' j').tree = some n' →
      (n = n' ↔ j.normal.Alike j'.normal) := by
  have hnormal {r : Reporter} {j : Json} {n : Node} (hj : j.Keyed)
      (hn : (loadTree r j).tree = some n) : n.encode.Alike j.normal := by
    have := Decoded.alike_normal hj (loadTree_eq_some_iff.mp hn)
    rwa [Decoded.encode, Item.encode] at this
  have hsame := hnormal hj hn
  refine ⟨hsame, loadTree_eq_some_iff.mpr ?_, ?_, fun r' j' n' hj' hn' => ⟨?_, fun h => ?_⟩⟩
  · exact decodeAt_of_alike hsame n.keyed_encode hj.normal [] (decodeAt_encode n [])
  · rw [loadTree_eq_some_iff.mpr (decodeAt_encode n [])]
    rfl
  · rintro rfl
    exact hsame.symm.trans (hnormal hj' hn')
  · have hencode : n.encode.Alike n'.encode := (hsame.trans h).trans (hnormal hj' hn').symm
    have hd := decodeAt_of_alike hencode n.keyed_encode n'.keyed_encode [] (decodeAt_encode n [])
    rw [decodeAt_encode] at hd
    cases hd
    rfl

/-- A word without parts is what the value is anyway, and so is the flag. The order in which the
entries stand does not matter. -/
theorem encode_alike_normal_assign :
    let name : Json := .object [("type", .string "Lit"), ("value", .string "x")]
    let word : Json := .object [("parts", .array []), ("type", .string "Word")]
    let j : Json := .object
      [("name", name), ("value", word), ("append", .bool false), ("type", .string "Assign")]
    let n : Node := .assign { value := {}, name := some { value := "x" } }
    (loadTree {} j).tree = some n ∧
      n.encode.Alike (.object [("name", name), ("type", .string "Assign")]) := by
  intro name word j n
  have hn : (loadTree {} j).tree = some n := rfl
  have hnormal : j.normal = .object [("name", name), ("type", .string "Assign")] := rfl
  have htext (t : String) : (Json.string t).Keyed := .scalar (by simp) (by simp)
  have hflag : (Json.bool false).Keyed := .scalar (by simp) (by simp)
  have hj : j.Keyed := by
    simp [j, name, word, Json.keyed_object_iff, Json.keyed_array_iff, or_imp, forall_and, htext,
      hflag]
  obtain ⟨h, -⟩ := encode_alike_normal {} hj hn
  exact ⟨hn, hnormal ▸ h⟩

end ShellSyntax
