import Mathlib.Data.List.Forall2
import ShellSyntax.Proofs.Json.Keyed
import ShellSyntax.Proofs.Schema.Conforms

/-!
# The order of keys

* `Json.Alike`: two values are equal but for the order in which the entries of objects stand;
* `decodeAt_object_iff`: what is decoded from an object, in terms of the value under each key;
* `decodeAt_of_alike`: so values that are alike are decoded alike, wherever they stand.
-/

namespace ShellSyntax

namespace Json

/-- The values are equal, but for the order of the entries of objects. -/
inductive Alike : Json → Json → Prop where
  | scalar {j : Json} (ha : ∀ items, j ≠ .array items) (ho : ∀ entries, j ≠ .object entries) :
      Alike j j
  | array {l m : List Json} (length : l.length = m.length)
      (items : ∀ (i : Nat) a b, l[i]? = some a → m[i]? = some b → Alike a b) :
      Alike (.array l) (.array m)
  | object {l m : List (String × Json)} (keys : ∀ key, lookup? key l = none ↔ lookup? key m = none)
      (values : ∀ key a b, lookup? key l = some a → lookup? key m = some b → Alike a b) :
      Alike (.object l) (.object m)

/-- An object has the keys of another, if all it lacks are keys that the other lacks. -/
theorem exists_lookup? {l m : List (String × Json)} {key : String} {a : Json}
    (keys : ∀ key, lookup? key l = none ↔ lookup? key m = none) (ha : lookup? key l = some a) :
    ∃ b, lookup? key m = some b := by
  rw [← Option.ne_none_iff_exists', ne_eq, ← keys key, ha]
  simp

theorem exists_getElem? {l m : List Json} {i : Nat} {a : Json} (length : l.length = m.length)
    (ha : l[i]? = some a) : ∃ b, m[i]? = some b := by
  have hi := (List.getElem?_eq_some_iff.mp ha).1
  exact ⟨m[i], List.getElem?_eq_getElem (length ▸ hi)⟩

namespace Alike

variable {a b c : Json}

theorem of_keyed (h : a.Keyed) : a.Alike a := by
  induction h with
  | scalar ha ho => exact .scalar ha ho
  | array _ ih =>
    refine .array rfl fun i a b ha hb => ?_
    rw [ha] at hb
    cases hb
    exact ih a (List.mem_of_getElem? ha)
  | object _ _ ih =>
    refine .object (fun _ => Iff.rfl) fun key a b ha hb => ?_
    rw [ha] at hb
    cases hb
    exact ih key a (mem_of_lookup? ha)

theorem symm (h : a.Alike b) : b.Alike a := by
  induction h with
  | scalar ha ho => exact .scalar ha ho
  | array length _ ih => exact .array length.symm fun i a b ha hb => ih i b a hb ha
  | object keys _ ih =>
    exact .object (fun key => (keys key).symm) fun key a b ha hb => ih key b a hb ha

theorem trans (h : a.Alike b) (h' : b.Alike c) : a.Alike c := by
  induction h generalizing c with
  | scalar => exact h'
  | @array l m length _ ih =>
    cases h' with
    | scalar ha => exact absurd rfl (ha _)
    | array length' items' =>
      refine .array (length.trans length') fun i a c ha hc => ?_
      obtain ⟨b, hb⟩ := exists_getElem? length ha
      exact ih i a b ha hb (items' i b c hb hc)
  | @object l m keys _ ih =>
    cases h' with
    | scalar _ ho => exact absurd rfl (ho _)
    | object keys' values' =>
      refine .object (fun key => (keys key).trans (keys' key)) fun key a c ha hc => ?_
      obtain ⟨b, hb⟩ := Json.exists_lookup? keys ha
      exact ih key a b ha hb (values' key b c hb hc)

/-- Objects are alike if each key has values that are alike, or none in either. -/
theorem of_lookup? {l m : List (String × Json)}
    (h : ∀ key, lookup? key l = none ∧ lookup? key m = none ∨
      ∃ a b, lookup? key l = some a ∧ lookup? key m = some b ∧ a.Alike b) :
    (Json.object l).Alike (Json.object m) := by
  refine .object (fun key => ?_) fun key a b ha hb => ?_
  · rcases h key with ⟨hl, hm⟩ | ⟨a, b, hl, hm, -⟩ <;> simp [hl, hm]
  · rcases h key with ⟨hl, -⟩ | ⟨a', b', hl, hm, hab⟩
    · simp [hl] at ha
    · cases hl.symm.trans ha
      cases hm.symm.trans hb
      exact hab

/-- What is alike to a text is that text. -/
theorem eq_string {t : String} (h : (Json.string t).Alike b) : b = .string t := by
  cases h
  rfl

end Alike

end Json

/-! ### Entries -/

theorem Outcome.map_eq_ok_iff {α β : Type} {f : α → β} {a : Outcome α} {b : β} :
    a.map f = .ok b ↔ ∃ x, a = .ok x ∧ f x = b := by
  cases a <;> simp [Except.map]

theorem Outcome.both_eq_ok_iff {α β γ : Type} {f : α → β → γ} {a : Outcome α} {b : Outcome β}
    {c : γ} : Outcome.both f a b = .ok c ↔ ∃ x y, a = .ok x ∧ b = .ok y ∧ f x y = c := by
  cases a <;> cases b <;> simp [Outcome.both]

theorem decodeToken_eq_ok_iff {s : Shape} {f : Field} {path : Path} {j : Json} {v : FieldValue} :
    decodeToken s f path j = .ok v ↔ ∃ t : Token, j = .string t.spelling ∧ v = .token t := by
  unfold decodeToken
  split
  · simp
  · rename_i t
    split
    · rename_i token h
      constructor
      · rintro ⟨⟩
        exact ⟨token, by rw [Token.spelling_of_ofSpelling? h], rfl⟩
      · rintro ⟨token', ht, rfl⟩
        cases ht
        rw [Token.ofSpelling?_spelling] at h
        cases h
        rfl
    · rename_i h
      simp only [reduceCtorEq, Json.string.injEq, false_iff]
      rintro ⟨token, rfl, -⟩
      rw [Token.ofSpelling?_spelling] at h
      cases h
  · rename_i hno
    simp only [reduceCtorEq, false_iff]
    rintro ⟨token, rfl, -⟩
    exact hno _ rfl

theorem decodeValue_eq_ok_iff {s : Shape} {f : Field} {path : Path} {j : Json} {v : FieldValue} :
    decodeValue path s f j = .ok v ↔
      (f.type = .token ∧ ∃ t : Token, j = .string t.spelling ∧ v = .token t) ∨
      (f.type ≠ .token ∧ ∃ d, decodeAt path j = .ok d ∧ f.type.fit? d = some v) := by
  unfold decodeValue
  split
  · rename_i ht
    simp [ht, decodeToken_eq_ok_iff]
  · rename_i ht
    simp only [ht, false_and, false_or, ne_eq, not_false_eq_true, true_and]
    cases hd : decodeAt path j with
    | error e => simp [fitField]
    | ok d => cases hv : f.type.fit? d <;> simp [fitField, hv]

section Entries

variable {path : Path} {s : Shape} {key : String} {j : Json} {entries rest : List (String × Json)}
  {given : List (String × FieldValue)}

theorem decodeEntries_cons_eq_ok_iff :
    decodeEntries path s ((key, j) :: rest) = .ok given ↔
      (key = "type" ∧ decodeEntries path s rest = .ok given) ∨
      ∃ f ∈ s.fields, f.name = key ∧ ∃ v others, decodeValue (path ++ [.key key]) s f j = .ok v ∧
        decodeEntries path s rest = .ok others ∧ (key, v) :: others = given := by
  by_cases hk : key = "type"
  · subst hk
    rw [decodeEntries_type]
    constructor
    · exact fun h => .inl ⟨rfl, h⟩
    · rintro (⟨-, h⟩ | ⟨f, hf, hn, -⟩)
      · exact h
      · exact absurd hn (Shape.name_ne_type hf)
  · simp only [hk, false_and, false_or]
    cases hf : s.field? key with
    | none =>
      rw [decodeEntries, if_neg hk]
      simp only [hf, Outcome.both_eq_ok_iff, reduceCtorEq, false_and, exists_false, false_iff]
      rintro ⟨f, hm, rfl, -⟩
      rw [Shape.field?_of_mem hm] at hf
      cases hf
    | some f =>
      obtain ⟨hm, rfl⟩ := Shape.mem_of_field? hf
      rw [decodeEntries_declared hm, Outcome.both_eq_ok_iff]
      constructor
      · rintro ⟨v, others, hv, ho, rfl⟩
        exact ⟨f, hm, rfl, v, others, hv, ho, rfl⟩
      · rintro ⟨g, hg, hn, v, others, hv, ho, rfl⟩
        cases Shape.eq_of_name_eq hg hm hn
        exact ⟨v, others, hv, ho, rfl⟩

/-- Entries are decoded if each of them is, as the value of a declared field. -/
theorem exists_decodeEntries_iff : (∃ given, decodeEntries path s entries = .ok given) ↔
    ∀ key j, (key, j) ∈ entries → key ≠ "type" →
      ∃ f ∈ s.fields, f.name = key ∧ ∃ v, decodeValue (path ++ [.key key]) s f j = .ok v := by
  induction entries with
  | nil => simp [decodeEntries]
  | cons e rest ih =>
    obtain ⟨key, j⟩ := e
    constructor
    · rintro ⟨given, h⟩ key' j' hm hk
      rcases decodeEntries_cons_eq_ok_iff.mp h with ⟨rfl, h⟩ | ⟨f, hf, hn, v, others, hv, h, -⟩
      · rcases List.mem_cons.mp hm with he | hm
        · exact absurd (congrArg Prod.fst he) hk
        · exact ih.mp ⟨given, h⟩ key' j' hm hk
      · rcases List.mem_cons.mp hm with he | hm
        · cases he
          exact ⟨f, hf, hn, v, hv⟩
        · exact ih.mp ⟨others, h⟩ key' j' hm hk
    · intro h
      obtain ⟨others, ho⟩ := ih.mpr fun key j hm => h key j (List.mem_cons_of_mem _ hm)
      by_cases hk : key = "type"
      · exact ⟨others, decodeEntries_cons_eq_ok_iff.mpr (.inl ⟨hk, ho⟩)⟩
      · obtain ⟨f, hf, hn, v, hv⟩ := h key j List.mem_cons_self hk
        exact ⟨_, decodeEntries_cons_eq_ok_iff.mpr (.inr ⟨f, hf, hn, v, others, hv, ho, rfl⟩)⟩

/-- A field is given the value of the entry that has its name. -/
theorem lookup_decodeEntries (h : decodeEntries path s entries = .ok given) {f : Field}
    (hf : f ∈ s.fields) : given.lookup f.name = (Json.lookup? f.name entries).bind fun j =>
      (decodeValue (path ++ [.key f.name]) s f j).toOption := by
  induction entries generalizing given with
  | nil =>
    cases h
    rfl
  | cons e rest ih =>
    obtain ⟨key, j⟩ := e
    rw [Json.lookup?]
    rcases decodeEntries_cons_eq_ok_iff.mp h with ⟨rfl, ho⟩ | ⟨g, hg, rfl, v, others, hv, ho, rfl⟩
    · rw [if_neg (Shape.name_ne_type hf).symm]
      exact ih ho
    · by_cases hn : g.name = f.name
      · cases Shape.eq_of_name_eq hg hf hn
        simp [hv, Except.toOption]
      · rw [List.lookup_cons, beq_eq_false_iff_ne.mpr (Ne.symm hn), if_neg hn]
        exact ih ho

end Entries

/-! ### Objects -/

theorem exists_mem_zip {α β : Type} {l : List α} {m : List β} (h : l.length = m.length) {a : α}
    (ha : a ∈ l) : ∃ b, (a, b) ∈ l.zip m := by
  rw [← List.map_fst_zip (Nat.le_of_eq h)] at ha
  obtain ⟨⟨a, b⟩, hm, rfl⟩ := List.mem_map.mp ha
  exact ⟨b, hm⟩

/-- The field has the value: the one that the entry of its name holds, or its default if there is no
such entry. -/
def Shape.Reads (s : Shape) (path : Path) (entries : List (String × Json)) (f : Field)
    (v : FieldValue) : Prop :=
  match Json.lookup? f.name entries with
  | some j => decodeValue (path ++ [.key f.name]) s f j = .ok v
  | none => f.default?.map Default.value = some v

section Objects

variable {path : Path} {s : Shape} {entries : List (String × Json)} {d : Decoded}

theorem Shape.takes_iff_reads {given : List (String × FieldValue)}
    (h : decodeEntries path s entries = .ok given) {f : Field} (hf : f ∈ s.fields)
    (v : FieldValue) : Takes given f v ↔ s.Reads path entries f v := by
  rw [Takes, Reads, lookup_decodeEntries h hf]
  cases hl : Json.lookup? f.name entries with
  | none => simp
  | some j =>
    obtain ⟨g, hg, hn, w, hw⟩ := exists_decodeEntries_iff.mp ⟨given, h⟩ f.name j
      (Json.mem_of_lookup? hl) (name_ne_type hf)
    cases eq_of_name_eq hg hf hn
    simp [hw, Except.toOption]

theorem Shape.missing_of_reads {values : List FieldValue}
    (h : List.Forall₂ (s.Reads path entries) s.fields values) : s.missing entries = [] := by
  refine missing_eq_nil_iff.mpr fun f hf hd => ?_
  obtain ⟨v, hm⟩ := exists_mem_zip h.length_eq hf
  have hv := List.forall₂_zip h hm
  cases hl : Json.lookup? f.name entries with
  | none => simp [Reads, hl, hd] at hv
  | some j => exact ⟨j, Json.mem_of_lookup? hl⟩

theorem exists_of_decodeAt_object (h : decodeAt path (.object entries) = .ok d) :
    ∃ s given i, Shape.ofEntries? entries = some s ∧ decodeEntries path s entries = .ok given ∧
      s.missing entries = [] ∧ s.build? given = some i ∧ d = .item i := by
  rw [decodeAt] at h
  split at h
  · cases h
  · rename_i s hs
    rw [Shape.assemble_eq] at h
    split at h
    · cases h
    · rename_i given hboth
      obtain ⟨_, _, hgiven, hrequired, rfl⟩ := Outcome.both_eq_ok_iff.mp hboth
      split at h
      · rename_i i hi
        cases h
        refine ⟨s, _, i, hs, hgiven, ?_, hi, rfl⟩
        unfold Shape.required at hrequired
        split at hrequired
        · assumption
        · cases hrequired
      · cases h

/-- What is decoded from an object is an item of the shape that it names, if it has no field but the
declared ones, and every declared field can be read. -/
theorem decodeAt_object_iff (hk : (entries.map Prod.fst).Nodup) :
    decodeAt path (.object entries) = .ok d ↔ ∃ i : Item, d = .item i ∧
      Shape.ofEntries? entries = some i.shape ∧
      (∀ key, Json.lookup? key entries ≠ none → key ≠ "type" →
        ∃ f ∈ i.shape.fields, f.name = key) ∧
      List.Forall₂ (i.shape.Reads path entries) i.shape.fields i.fields := by
  constructor
  · intro h
    obtain ⟨s, given, i, hs, hg, missing, hi, rfl⟩ := exists_of_decodeAt_object h
    have gives := judges_decodeEntries path s entries
    rw [hg] at gives
    have complete : ∀ f ∈ s.fields, f.default? = none → f.name ∈ given.map Prod.fst := by
      intro f hf hd
      obtain ⟨j, hj⟩ := Shape.missing_eq_nil_iff.mp missing f hf hd
      exact gives.kept f j hf hj
    obtain ⟨i', hi', rfl, takes⟩ := Shape.build?_of_typed gives.typed complete
    obtain rfl : i' = i := Option.some.inj (hi'.symm.trans hi)
    refine ⟨i', rfl, hs, fun key hl ht => ?_, ?_⟩
    · obtain ⟨j, hj⟩ := Option.ne_none_iff_exists'.mp hl
      exact gives.declared key j (Json.mem_of_lookup? hj) ht
    · refine ((List.forall₂_and_left _ _).mpr ⟨fun f hf => hf, takes⟩).imp ?_
      exact fun f v ⟨hf, hv⟩ => (Shape.takes_iff_reads hg hf v).mp hv
  · rintro ⟨i, rfl, hs, declared, reads⟩
    obtain ⟨given, hg⟩ : ∃ given, decodeEntries path i.shape entries = .ok given := by
      refine exists_decodeEntries_iff.mpr fun key j hm ht => ?_
      have hl := (Json.lookup?_eq_some_iff hk).mpr hm
      obtain ⟨f, hf, rfl⟩ := declared key (by simp [hl]) ht
      obtain ⟨v, hz⟩ := exists_mem_zip reads.length_eq hf
      have hv := List.forall₂_zip reads hz
      simp only [Shape.Reads, hl] at hv
      exact ⟨f, hf, rfl, v, hv⟩
    have takes : List.Forall₂ (Shape.Takes given) i.shape.fields i.fields := by
      refine ((List.forall₂_and_left _ _).mpr ⟨fun f hf => hf, reads⟩).imp ?_
      exact fun f v ⟨hf, hv⟩ => (Shape.takes_iff_reads hg hf v).mpr hv
    rw [decodeAt, hs]
    simp only [hg, Shape.assemble_eq, Shape.required, Shape.missing_of_reads reads, Outcome.both,
      Shape.build?_of_takes takes, i.ofFields?_fields]

end Objects

/-! ### Arrays -/

theorem decodeItems_eq_ok_iff {path : Path} {n : Nat} {items : List Json} {l : List Decoded} :
    decodeItems path n items = .ok l ↔ items.length = l.length ∧
      ∀ (i : Nat) j d, items[i]? = some j → l[i]? = some d →
        decodeAt (path ++ [.index (n + i)]) j = .ok d := by
  induction items generalizing n l with
  | nil => cases l <;> simp [decodeItems]
  | cons j rest ih =>
    rw [decodeItems, Outcome.both_eq_ok_iff]
    constructor
    · rintro ⟨d, l, hd, hl, rfl⟩
      obtain ⟨hlength, hrest⟩ := ih.mp hl
      refine ⟨by simp [hlength], fun i j' d' hj hd' => ?_⟩
      cases i with
      | zero =>
        cases hj
        cases hd'
        exact hd
      | succ i =>
        rw [← Nat.succ_add_eq_add_succ]
        exact hrest i j' d' hj hd'
    · rintro ⟨hlength, h⟩
      cases l with
      | nil => cases hlength
      | cons d l =>
        refine ⟨d, l, h 0 j d rfl rfl, ih.mpr ⟨by simpa using hlength, ?_⟩, rfl⟩
        intro i j' d' hj hd'
        rw [Nat.succ_add_eq_add_succ]
        exact h (i + 1) j' d' hj hd'

/-! ### Values that are alike -/

theorem decodeAt_scalar {j : Json} (path : Path) (ha : ∀ items, j ≠ .array items)
    (ho : ∀ entries, j ≠ .object entries) : decodeAt path j = .ok (.scalar j) := by
  cases j with
  | array items => exact absurd rfl (ha items)
  | object entries => exact absurd rfl (ho entries)
  | _ => simp only [decodeAt]

theorem decodeValue_of_alike {s : Shape} {f : Field} {path path' : Path} {a b : Json}
    {v : FieldValue} (h : a.Alike b)
    (hd : ∀ d, decodeAt path a = .ok d → decodeAt path' b = .ok d)
    (hv : decodeValue path s f a = .ok v) : decodeValue path' s f b = .ok v := by
  rw [decodeValue_eq_ok_iff] at hv ⊢
  rcases hv with ⟨ht, t, rfl, rfl⟩ | ⟨ht, d, ha, hfit⟩
  · exact .inl ⟨ht, t, h.eq_string, rfl⟩
  · exact .inr ⟨ht, d, hd d ha, hfit⟩

/-- Objects that are alike name the same shape. -/
theorem Shape.ofEntries?_of_alike {s : Shape} {l m : List (String × Json)}
    (h : (Json.object l).Alike (.object m)) (hs : ofEntries? l = some s) :
    ofEntries? m = some s := by
  cases h with
  | scalar _ ho => exact absurd rfl (ho _)
  | object keys values =>
    rw [ofEntries?_eq_some_iff] at hs ⊢
    obtain ⟨j, hj⟩ := Json.exists_lookup? keys hs
    rw [hj, (values "type" _ j hs hj).eq_string]

/-- Values that are alike are decoded alike. What is decoded does not depend on the path either. -/
theorem decodeAt_of_alike {a b : Json} (h : a.Alike b) (ha : a.Keyed) (hb : b.Keyed)
    {path : Path} (path' : Path) {d : Decoded} (hd : decodeAt path a = .ok d) :
    decodeAt path' b = .ok d := by
  induction h generalizing path path' d with
  | scalar harray hobject =>
    rw [decodeAt_scalar _ harray hobject] at hd ⊢
    exact hd
  | @array l m length _ ih =>
    rw [Json.keyed_array_iff] at ha hb
    rw [decodeAt, Outcome.map_eq_ok_iff] at hd ⊢
    obtain ⟨ds, hds, rfl⟩ := hd
    obtain ⟨hlength, hitems⟩ := decodeItems_eq_ok_iff.mp hds
    refine ⟨ds, decodeItems_eq_ok_iff.mpr ⟨length.symm.trans hlength, ?_⟩, rfl⟩
    intro i b d hb' hd
    obtain ⟨a, ha'⟩ := Json.exists_getElem? length.symm hb'
    exact ih i a b ha' hb' (ha a (List.mem_of_getElem? ha')) (hb b (List.mem_of_getElem? hb')) _
      (hitems i a d ha' hd)
  | @object l m keys values ih =>
    obtain ⟨ka, va⟩ := Json.keyed_object_iff.mp ha
    obtain ⟨kb, vb⟩ := Json.keyed_object_iff.mp hb
    obtain ⟨i, rfl, hs, declared, reads⟩ := (decodeAt_object_iff ka).mp hd
    -- each condition on an object is about the value under one key
    refine (decodeAt_object_iff kb).mpr ⟨i, rfl, ?_, fun key hl => ?_, ?_⟩
    · exact Shape.ofEntries?_of_alike (.object keys values) hs
    · exact declared key ((keys key).not.mpr hl)
    · refine reads.imp fun f v hv => ?_
      cases hl : Json.lookup? f.name l with
      | none => simpa only [Shape.Reads, hl, (keys f.name).mp hl] using hv
      | some a =>
        obtain ⟨b, hb⟩ := Json.exists_lookup? keys hl
        simp only [Shape.Reads, hl, hb] at hv ⊢
        refine decodeValue_of_alike (values f.name a b hl hb) (fun d hd => ?_) hv
        have hka := va _ a (Json.mem_of_lookup? hl)
        have hkb := vb _ b (Json.mem_of_lookup? hb)
        exact ih f.name a b hl hb hka hkb _ hd

end ShellSyntax
