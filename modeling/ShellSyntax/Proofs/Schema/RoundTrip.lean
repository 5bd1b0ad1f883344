import ShellSyntax.CommandLine.Run
import ShellSyntax.Proofs.Schema.Object
import ShellSyntax.Schema.Encode

/-!
# Decoding what was encoded

Every tree is decoded from its encoded form (`decodeAt_encode`). The fields that the encoder leaves
out are those whose default the decoder fills in (`takes_written`).
-/

namespace ShellSyntax

open FieldValue (Typed)

/-! ### The fields that are written -/

/-- The field is left out when it has this value. -/
def Field.Omits (f : Field) (v : FieldValue) : Bool := f.default?.any (·.holds v)

/-- The fields that are not left out, each with a form of its value. -/
def written {β : Type} (form : FieldValue → β) (fields : List Field) (values : List FieldValue) :
    List (String × β) :=
  (fields.zip values).filterMap fun (f, v) => if f.Omits v then none else some (f.name, form v)

theorem Shape.object_eq (s : Shape) (encode : FieldValue → Json) (values : List FieldValue) :
    s.object (values.map fun v => (v, encode v))
      = .object (("type", .string s.name) :: written encode s.fields values) := by
  simp only [object, written, List.zip_map_right, List.filterMap_map]
  rfl

section Written

variable {β : Type} {form : FieldValue → β} {f : Field} {v : FieldValue} {fields : List Field}
  {values : List FieldValue}

theorem written_cons_of_omits (h : f.Omits v = true) :
    written form (f :: fields) (v :: values) = written form fields values := by
  simp [written, h]

theorem written_cons_of_keeps (h : f.Omits v = false) :
    written form (f :: fields) (v :: values) = (f.name, form v) :: written form fields values := by
  simp [written, h]

theorem name_mem_of_mem_written {e : String × β} (h : e ∈ written form fields values) :
    e.1 ∈ fields.map Field.name := by
  obtain ⟨⟨f, v⟩, hm, he⟩ := List.mem_filterMap.mp h
  simp only [Option.ite_none_left_eq_some, Option.some.injEq] at he
  rw [← he.2]
  exact List.mem_map_of_mem (List.of_mem_zip hm).1

/-- A field without a default is never left out. -/
theorem exists_mem_written (h : Typed fields values) :
    ∀ f ∈ fields, f.default? = none → ∃ b, (f.name, b) ∈ written form fields values := by
  induction h with
  | nil => simp
  | @cons f v fields values _ _ ih =>
    intro g hg hd
    cases ho : f.Omits v with
    | true =>
      rw [written_cons_of_omits ho]
      rcases List.mem_cons.mp hg with rfl | hg
      · simp [Field.Omits, hd] at ho
      · exact ih g hg hd
    | false =>
      rw [written_cons_of_keeps ho]
      rcases List.mem_cons.mp hg with rfl | hg
      · exact ⟨form v, List.mem_cons_self⟩
      · obtain ⟨b, hb⟩ := ih g hg hd
        exact ⟨b, List.mem_cons_of_mem _ hb⟩

end Written

/-! ### The fields that are filled in -/

theorem Shape.Takes.cons {given : List (String × FieldValue)} {f : Field} {v : FieldValue}
    (h : Takes given f v) {name : String} (hn : f.name ≠ name) (w : FieldValue) :
    Takes ((name, w) :: given) f v := by
  rw [Takes, List.lookup_cons, beq_eq_false_iff_ne.mpr hn]
  exact h

/-- A field that was left out gets its default, which is the value it had. -/
theorem takes_written {fields : List Field} {values : List FieldValue}
    (hn : (fields.map Field.name).Nodup) (h : Typed fields values) :
    List.Forall₂ (Shape.Takes (written id fields values)) fields values := by
  induction h with
  | nil => exact .nil
  | @cons f v fields values _ _ ih =>
    rw [List.map_cons, List.nodup_cons] at hn
    have hrest := ih hn.2
    cases ho : f.Omits v with
    | true =>
      have hlookup : (written id fields values).lookup f.name = none := by
        rw [List.lookup_eq_none_iff]
        intro e he
        rw [bne_iff_ne]
        intro heq
        exact hn.1 (heq ▸ name_mem_of_mem_written he)
      obtain ⟨d, hd, hv⟩ := (Option.any_eq_true _ _).mp ho
      rw [written_cons_of_omits ho]
      refine .cons ?_ hrest
      rw [Shape.Takes, hlookup, hd, Default.holds_iff.mp hv]
      rfl
    | false =>
      rw [written_cons_of_keeps ho]
      refine .cons (by simp [Shape.Takes]) ?_
      refine (List.forall₂_iff_zip.mpr ⟨hrest.length_eq, fun {g w} hm => ?_⟩)
      refine (List.forall₂_zip hrest hm).cons (fun heq => ?_) v
      exact hn.1 (heq ▸ List.mem_map_of_mem (List.of_mem_zip hm).1)

/-! ### Decoding -/

theorem decodeEntries_written {path : Path} {s : Shape} {encode : FieldValue → Json}
    {fields : List Field} {values : List FieldValue} (hf : ∀ f ∈ fields, f ∈ s.fields)
    (h : Typed fields values)
    (he : ∀ v ∈ values, ∀ f path, v.HasType f.type → decodeValue path s f (encode v) = .ok v) :
    decodeEntries path s (written encode fields values) = .ok (written id fields values) := by
  induction h with
  | nil => rfl
  | @cons f v fields values hv _ ih =>
    have hrest := ih (fun g hg => hf g (List.mem_cons_of_mem _ hg))
      fun w hw => he w (List.mem_cons_of_mem _ hw)
    cases ho : f.Omits v with
    | true => rw [written_cons_of_omits ho, written_cons_of_omits ho, hrest]
    | false =>
      rw [written_cons_of_keeps ho, written_cons_of_keeps ho,
        decodeEntries_declared (hf f List.mem_cons_self), hrest, he v List.mem_cons_self f _ hv]
      rfl

/-- An item is decoded from its object if the values of its fields are from their forms. -/
theorem decodeAt_object {i : Item} {encode : FieldValue → Json} (path : Path)
    (he : ∀ v ∈ i.fields, ∀ f path, v.HasType f.type →
      decodeValue path i.shape f (encode v) = .ok v) :
    decodeAt path (i.shape.object (i.fields.map fun v => (v, encode v))) = .ok (.item i) := by
  have htyped := i.fields_typed
  have hentries := @decodeEntries_written path i.shape encode _ _ (fun f hf => hf) htyped he
  have hbuilt : i.shape.build? (written id i.shape.fields i.fields) = some i := by
    have hn := (List.nodup_cons.mp i.shape.names_nodup).2
    rw [Shape.build?_of_takes (takes_written hn htyped), i.ofFields?_fields]
  have hmissing : i.shape.missing (("type", .string i.shape.name)
      :: written encode i.shape.fields i.fields) = [] := by
    rw [Shape.missing_eq_nil_iff]
    intro f hf hd
    obtain ⟨j, hj⟩ := exists_mem_written htyped f hf hd
    exact ⟨j, List.mem_cons_of_mem _ hj⟩
  have hnamed : Shape.ofEntries? (("type", .string i.shape.name)
      :: written encode i.shape.fields i.fields) = some i.shape := by
    simp [Shape.ofEntries?_eq_some_iff, Json.lookup?]
  rw [Shape.object_eq, decodeAt, hnamed]
  simp only [decodeEntries_type, hentries, Shape.assemble_eq, Shape.required, hmissing,
    Outcome.both, hbuilt]

theorem decodeValue_of_fit {path : Path} {s : Shape} {f : Field} {type : FieldType} {j : Json}
    {d : Decoded} {v : FieldValue} (hf : f.type = type) (hd : decodeAt path j = .ok d)
    (hv : type.fit? d = some v) : decodeValue path s f j = .ok v := by
  subst hf
  have ht : f.type ≠ .token := by
    intro ht
    rw [ht] at hv
    cases hv
  simp only [decodeValue, if_neg ht, fitField, hd, hv]

theorem decodeAt_pos (p : Pos) (path : Path) : decodeAt path p.encode = .ok (.item (.pos p)) := by
  have hscalar : ∀ v ∈ (Item.pos p).fields, ∀ f path, v.HasType f.type →
      decodeValue path .pos f v.encodeScalar = .ok v := by
    intro v hv f path ht
    obtain ⟨n, rfl⟩ : ∃ n, v = .int n := by
      simp only [Item.fields, List.mem_cons, List.not_mem_nil, or_false] at hv
      rcases hv with rfl | rfl | rfl <;> exact ⟨_, rfl⟩
    generalize htype : f.type = type at ht
    cases ht
    exact decodeValue_of_fit htype rfl rfl
  exact @decodeAt_object (.pos p) FieldValue.encodeScalar path hscalar

theorem decodeItems_encode {l : List Node}
    (h : ∀ n ∈ l, ∀ path, decodeAt path n.encode = .ok (.item (.node n))) (path : Path) (i : Nat) :
    decodeItems path i (l.map Node.encode) = .ok (l.map fun n => .item (.node n)) := by
  induction l generalizing i with
  | nil => rfl
  | cons n rest ih =>
    rw [List.map_cons, decodeItems, h n List.mem_cons_self,
      ih fun m hm => h m (List.mem_cons_of_mem _ hm)]
    rfl

theorem mapM_admit? {f : Family} {l : List Node} (h : ∀ n ∈ l, n.kind ∈ f.kinds) :
    (l.map fun n => Decoded.item (.node n)).mapM f.admit? = some l := by
  induction l with
  | nil => rfl
  | cons n rest ih =>
    have hrest := ih fun m hm => h m (List.mem_cons_of_mem _ hm)
    simp [List.mapM_cons, hrest, Family.admit?, h n List.mem_cons_self]

/-- A value is decoded from its encoded form if the nodes in it are. -/
theorem decodeValue_encode {s : Shape} {f : Field} {v : FieldValue} {path : Path}
    (hv : v.HasType f.type)
    (hn : ∀ n ∈ v.held, ∀ path, decodeAt path n.encode = .ok (.item (.node n))) :
    decodeValue path s f (Node.encodeField v) = .ok v := by
  generalize htype : f.type = type at hv
  cases hv with
  | bool | int | text | absent => exact decodeValue_of_fit htype rfl rfl
  | token t =>
    simp [decodeValue, htype, Node.encodeField, FieldValue.encodeScalar, decodeToken,
      Token.ofSpelling?_spelling]
  | pos p => exact decodeValue_of_fit htype (decodeAt_pos p path) rfl
  | @node family n hk | @present family n hk =>
    have hdecode := hn n List.mem_cons_self path
    exact decodeValue_of_fit htype hdecode (by simp [FieldType.fit?, Family.admit?, hk])
  | @list family l hl =>
    have hitems : decodeAt path (.array (l.map Node.encode))
        = .ok (.list (l.map fun n => .item (.node n))) := by
      rw [decodeAt, @decodeItems_encode l hn path 0]
      rfl
    exact decodeValue_of_fit htype hitems (by simp [FieldType.fit?, mapM_admit? hl])

theorem decodeAt_encode (n : Node) (path : Path) :
    decodeAt path n.encode = .ok (.item (.node n)) := by
  rw [n.encode_eq]
  refine @decodeAt_object (.node n) Node.encodeField path fun v hv f path ht => ?_
  refine decodeValue_encode ht fun c hc path => ?_
  have : c.size < n.size := Node.size_lt_of_mem_fields hv hc
  exact decodeAt_encode c path
termination_by n.size

/-- The tree that was encoded is loaded again, its positions included, and nothing is logged. -/
theorem loadTree_encode (r : Reporter) (n : Node) :
    loadTree r n.encode = { tree := some n, reporter := r } := by
  simp [loadTree, Node.decode, decodeAt_encode]

end ShellSyntax
