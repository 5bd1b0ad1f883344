import ShellSyntax.Proofs.Schema.Typed
import ShellSyntax.Schema.Decode

/-!
# The declarations agree

* `Shape.ofName?_name`, `Shape.field?_of_mem`: no two shapes have one name, and no two fields of a
  shape;
* `Field.hasType_default`: every default has the type of its field;
* `Shape.build?_of_typed`: typed values under declared names make up a node or position, if no field
  is missing.
-/

namespace ShellSyntax

namespace Shape

theorem ofName?_name (s : Shape) : ofName? s.name = some s := by
  cases s with
  | pos => rfl
  | node kind => cases kind <;> rfl

theorem name_of_ofName? {name : String} {s : Shape} (h : ofName? name = some s) :
    s.name = name := by
  simpa using List.find?_some h

theorem name_inj {s t : Shape} (h : s.name = t.name) : s = t := by
  have := ofName?_name s
  rw [h, ofName?_name t] at this
  exact (Option.some.inj this).symm

theorem ofEntries?_eq_some_iff {entries : List (String × Json)} {s : Shape} :
    ofEntries? entries = some s ↔ Json.lookup? "type" entries = some (.string s.name) := by
  unfold ofEntries?
  split
  · rename_i name h
    rw [h]
    constructor
    · intro hs
      rw [name_of_ofName? hs]
    · rintro ⟨⟩
      exact ofName?_name s
  · rename_i h
    constructor
    · intro hs
      cases hs
    · intro hs
      exact absurd hs (h _)

theorem names_nodup (s : Shape) : ("type" :: s.fields.map Field.name).Nodup := by
  cases s with
  | pos => decide
  | node kind => cases kind <;> decide

theorem name_ne_type {s : Shape} {f : Field} (h : f ∈ s.fields) : f.name ≠ "type" := by
  intro he
  have := (List.nodup_cons.mp s.names_nodup).1
  exact this (he ▸ List.mem_map_of_mem h)

theorem mem_of_field? {s : Shape} {name : String} {f : Field} (h : s.field? name = some f) :
    f ∈ s.fields ∧ f.name = name :=
  ⟨List.mem_of_find?_eq_some h, by simpa using List.find?_some h⟩

theorem field?_of_mem {s : Shape} {f : Field} (h : f ∈ s.fields) : s.field? f.name = some f := by
  have hall : ∀ f ∈ s.fields, s.field? f.name = some f := by
    cases s with
    | pos => decide
    | node kind => cases kind <;> decide
  exact hall f h

theorem eq_of_name_eq {s : Shape} {f g : Field} (hf : f ∈ s.fields) (hg : g ∈ s.fields)
    (h : f.name = g.name) : f = g := by
  have := field?_of_mem hf
  rw [h, field?_of_mem hg] at this
  exact (Option.some.inj this).symm

end Shape

/-! ### Defaults -/

namespace Field

open FieldValue

theorem hasType_default {s : Shape} {f : Field} (hf : f ∈ s.fields) {d : Default}
    (hd : f.default? = some d) : d.value.HasType f.type := by
  have hlit : HasType (.node .lit) (.node (.lit {})) := .node (by decide)
  have hword : HasType (.node .word) (.node (.word {})) := .node (by decide)
  have hstmt : HasType (.node .stmt) (.node (.stmt {})) := .node (by decide)
  have hempty : ∀ family, HasType (.list family) (.nodes []) := fun family => .list (by simp)
  have hall : ∀ f ∈ s.fields, ∀ d ∈ f.default?, d.value.HasType f.type := by
    cases s with
    | pos => simp [Shape.fields, Field.number, Default.value, HasType.int]
    | node kind =>
      cases kind <;>
        simp [Shape.fields, Kind.fields, Field.flag, Field.text, Field.operator, Field.place,
          Field.lit, Field.word, Field.optional, Field.list, Default.value, HasType.bool,
          HasType.text, HasType.token, HasType.pos, HasType.absent, hlit, hword, hstmt, hempty]
  exact hall f hf d hd

end Field

/-! ### Building -/

namespace Shape

open FieldValue

/-- The field has the value, as one of the given ones or as its default. -/
def Takes (given : List (String × FieldValue)) (f : Field) (v : FieldValue) : Prop :=
  (given.lookup f.name).or (f.default?.map Default.value) = some v

theorem mapM_of_takes {given : List (String × FieldValue)} {fields : List Field}
    {values : List FieldValue} (h : List.Forall₂ (Takes given) fields values) :
    (fields.mapM fun f => (given.lookup f.name).or (f.default?.map Default.value))
      = some values := by
  induction h with
  | nil => rfl
  | cons hv _ ih =>
    rw [Takes] at hv
    simp [List.mapM_cons, hv, ih]

theorem build?_of_takes {s : Shape} {given : List (String × FieldValue)} {values : List FieldValue}
    (h : List.Forall₂ (Takes given) s.fields values) :
    s.build? given = Item.ofFields? s values := by
  simp [build?, mapM_of_takes h]

theorem exists_takes {s : Shape} {given : List (String × FieldValue)}
    (typed : ∀ name v, (name, v) ∈ given → ∃ f, s.field? name = some f ∧ v.HasType f.type)
    (complete : ∀ f ∈ s.fields, f.default? = none → f.name ∈ given.map Prod.fst) {f : Field}
    (hf : f ∈ s.fields) : ∃ v : FieldValue, v.HasType f.type ∧ Takes given f v := by
  cases hl : given.lookup f.name with
  | some v =>
    obtain ⟨front, back, hg, -⟩ := List.lookup_eq_some_iff.mp hl
    obtain ⟨f', hf', hv⟩ := typed f.name v (by simp [hg])
    rw [field?_of_mem hf] at hf'
    cases hf'
    exact ⟨v, hv, by simp [Takes, hl]⟩
  | none =>
    cases hd : f.default? with
    | some d => exact ⟨d.value, Field.hasType_default hf hd, by simp [Takes, hl, hd]⟩
    | none =>
      obtain ⟨⟨name, v⟩, hm, hn⟩ := List.mem_map.mp (complete f hf hd)
      have := List.lookup_eq_none_iff.mp hl (name, v) hm
      simp [← hn] at this

/-- Typed values under declared names make up an item of the shape, whose other fields have their
defaults. -/
theorem build?_of_typed {s : Shape} {given : List (String × FieldValue)}
    (typed : ∀ name v, (name, v) ∈ given → ∃ f, s.field? name = some f ∧ v.HasType f.type)
    (complete : ∀ f ∈ s.fields, f.default? = none → f.name ∈ given.map Prod.fst) :
    ∃ i : Item, s.build? given = some i ∧ i.shape = s ∧
      List.Forall₂ (Takes given) s.fields i.fields := by
  have hvalues : ∀ fields, (∀ f ∈ fields, f ∈ s.fields) →
      ∃ values, Typed fields values ∧ List.Forall₂ (Takes given) fields values := by
    intro fields hsub
    induction fields with
    | nil => exact ⟨[], .nil, .nil⟩
    | cons f rest ih =>
      obtain ⟨v, hv, ht⟩ := exists_takes typed complete (hsub f List.mem_cons_self)
      obtain ⟨values, hvs, hts⟩ := ih fun g hg => hsub g (List.mem_cons_of_mem _ hg)
      exact ⟨v :: values, .cons hv hvs, .cons ht hts⟩
  obtain ⟨values, htyped, htakes⟩ := hvalues s.fields fun f hf => hf
  obtain ⟨i, rfl, rfl⟩ := Item.exists_of_typed values htyped
  exact ⟨i, by rw [build?_of_takes htakes, i.ofFields?_fields], rfl, htakes⟩

end Shape

end ShellSyntax
