import ShellSyntax.Json.Read

/-!
# Objects without repeated keys

* `Json.Keyed`: no object in a value has two entries with one key;
* `Keyed.of_read`: every value that is read from a text is one of these, since of several entries
  with one key only the last counts.
-/

namespace ShellSyntax.Json

/-- No object in the value has two entries with one key. -/
inductive Keyed : Json → Prop where
  | scalar {j : Json} (ha : ∀ items, j ≠ .array items) (ho : ∀ entries, j ≠ .object entries) :
      Keyed j
  | array {items : List Json} (h : ∀ j ∈ items, Keyed j) : Keyed (.array items)
  | object {entries : List (String × Json)} (keys : (entries.map Prod.fst).Nodup)
      (values : ∀ key j, (key, j) ∈ entries → Keyed j) : Keyed (.object entries)

theorem keyed_array_iff {items : List Json} : (array items).Keyed ↔ ∀ j ∈ items, j.Keyed := by
  refine ⟨fun h => ?_, .array⟩
  cases h with
  | scalar ha => exact absurd rfl (ha items)
  | array h => exact h

theorem keyed_object_iff {entries : List (String × Json)} : (object entries).Keyed ↔
    (entries.map Prod.fst).Nodup ∧ ∀ key j, (key, j) ∈ entries → j.Keyed := by
  refine ⟨fun h => ?_, fun h => .object h.1 h.2⟩
  cases h with
  | scalar _ ho => exact absurd rfl (ho entries)
  | object keys values => exact ⟨keys, values⟩

/-! ### Entries -/

section Entries

variable {key : String} {j : Json} {entries : List (String × Json)}

theorem mem_of_lookup? (h : lookup? key entries = some j) : (key, j) ∈ entries := by
  induction entries with
  | nil => cases h
  | cons e rest ih =>
    obtain ⟨k, v⟩ := e
    rw [lookup?] at h
    split at h
    · rename_i hk
      cases h
      rw [hk]
      exact List.mem_cons_self
    · exact List.mem_cons_of_mem _ (ih h)

theorem lookup?_eq_none_iff : lookup? key entries = none ↔ ∀ j, (key, j) ∉ entries := by
  induction entries with
  | nil => simp [lookup?]
  | cons e rest ih =>
    obtain ⟨k, v⟩ := e
    by_cases hk : k = key
    · subst hk
      simp only [lookup?, if_true, reduceCtorEq, List.mem_cons, not_or, false_iff]
      exact fun h => (h v).1 rfl
    · rw [lookup?, if_neg hk, ih]
      constructor
      · intro h j hm
        rcases List.mem_cons.mp hm with he | hm
        · cases he
          exact hk rfl
        · exact h j hm
      · exact fun h j hm => h j (List.mem_cons_of_mem _ hm)

theorem lookup?_eq_none_iff_notMem :
    lookup? key entries = none ↔ key ∉ entries.map Prod.fst := by
  rw [lookup?_eq_none_iff]
  simp

theorem lookup?_eq_none (h : key ∉ entries.map Prod.fst) : lookup? key entries = none :=
  lookup?_eq_none_iff_notMem.mpr h

/-- Where no key is repeated, every entry is found under its key. -/
theorem lookup?_eq_some_iff (hk : (entries.map Prod.fst).Nodup) :
    lookup? key entries = some j ↔ (key, j) ∈ entries := by
  refine ⟨mem_of_lookup?, fun hm => ?_⟩
  induction entries with
  | nil => cases hm
  | cons e rest ih =>
    obtain ⟨k, v⟩ := e
    rw [List.map_cons, List.nodup_cons] at hk
    rcases List.mem_cons.mp hm with he | hm
    · cases he
      simp [lookup?]
    · have hmem : key ∈ rest.map Prod.fst := List.mem_map_of_mem hm
      have hne : k ≠ key := fun he => hk.1 (he ▸ hmem)
      rw [lookup?, if_neg hne]
      exact ih hk.2 hm

theorem mem_keys_insert {k : String} :
    k ∈ (insert key j entries).map Prod.fst → k = key ∨ k ∈ entries.map Prod.fst := by
  fun_induction insert key j entries with
  | case1 | case2 => simp
  | case3 k' v rest _ ih =>
    simp only [List.map_cons, List.mem_cons]
    rintro (rfl | hm)
    · exact .inr (.inl rfl)
    · exact (ih hm).imp_right .inr

theorem nodup_keys_insert (h : (entries.map Prod.fst).Nodup) :
    ((insert key j entries).map Prod.fst).Nodup := by
  fun_induction insert key j entries with
  | case1 => simp
  | case2 => exact h
  | case3 k v rest hne ih =>
    rw [List.map_cons, List.nodup_cons] at h ⊢
    refine ⟨fun hm => ?_, ih h.2⟩
    rcases mem_keys_insert hm with he | hm
    · exact hne he
    · exact h.1 hm

theorem mem_values_insert {v : Json} :
    v ∈ (insert key j entries).map Prod.snd → v = j ∨ v ∈ entries.map Prod.snd := by
  fun_induction insert key j entries with
  | case1 => simp
  | case2 | case3 => grind

theorem Keyed.ofEntries (h : ∀ v ∈ entries.map Prod.snd, v.Keyed) :
    (Json.ofEntries entries).Keyed := by
  -- the entries are set one by one, into an object whose keys are already distinct
  suffices hfold : ∀ (entries done : List (String × Json)), (done.map Prod.fst).Nodup →
      (∀ v ∈ done.map Prod.snd, v.Keyed) → (∀ v ∈ entries.map Prod.snd, v.Keyed) →
      (Json.object (entries.foldl (fun l e => insert e.1 e.2 l) done)).Keyed by
    exact hfold entries [] (by simp) (by simp) h
  intro entries
  induction entries with
  | nil =>
    intro done hk hd _
    exact .object hk fun key j hm => hd j (List.mem_map_of_mem hm)
  | cons e rest ih =>
    intro done hk hd hv
    rw [List.map_cons, List.forall_mem_cons] at hv
    refine ih _ (nodup_keys_insert hk) (fun v hm => ?_) hv.2
    rcases mem_values_insert hm with rfl | hm
    · exact hv.1
    · exact hd v hm

end Entries

/-! ### Reading -/

theorem exists_of_bind_eq_ok {ε α β : Type} {x : Except ε α} {f : α → Except ε β} {b : β}
    (h : x >>= f = .ok b) : ∃ a, x = .ok a ∧ f a = .ok b := by
  cases x with
  | error e => cases h
  | ok a => exact ⟨a, rfl, h⟩

theorem keyed_of_readUnsigned? {negative : Bool} {s : List Char} {j : Json} {rest : Shorter s}
    (h : readUnsigned? negative s = some (.ok j, rest)) : j.Keyed := by
  simp only [readUnsigned?, Option.bind_eq_bind, Option.bind_eq_some_iff] at h
  obtain ⟨⟨whole, s₁, h₁⟩, -, h⟩ := h
  dsimp only at h
  split at h
  · cases h
    exact .scalar (by simp) (by simp)
  · split at h
    · split at h
      · cases h
      · cases h
        exact .scalar (by simp) (by simp)
    · cases h
      exact .scalar (by simp) (by simp)

theorem keyed_of_readNumber? {s : List Char} {j : Json} {rest : Shorter s}
    (h : readNumber? s = some (.ok j, rest)) : j.Keyed := by
  unfold readNumber? at h
  split at h
  · obtain ⟨⟨value, more⟩, hu, h⟩ := Option.bind_eq_some_iff.mp h
    cases h
    exact keyed_of_readUnsigned? hu
  · exact keyed_of_readUnsigned? h

theorem keyed_of_mem_words {w : String × Json} (h : w ∈ words) : w.2.Keyed := by
  have hwords : ∀ w ∈ words, (∀ items, w.2 ≠ .array items) ∧ ∀ entries, w.2 ≠ .object entries := by
    simp [words]
  exact .scalar (hwords w h).1 (hwords w h).2

theorem keyed_of_readScalar {s : List Char} {j : Json} {rest : Shorter s}
    (h : readScalar s = .ok (j, rest)) : j.Keyed := by
  unfold readScalar at h
  split at h
  · rename_i found hw
    obtain ⟨w, hm, hf⟩ := List.exists_of_findSome?_eq_some hw
    obtain ⟨more, -, rfl⟩ := Option.map_eq_some_iff.mp hf
    cases h
    exact keyed_of_mem_words hm
  · split at h
    · rename_i value more hn
      cases value with
      | error e => cases h
      | ok v =>
        cases h
        exact keyed_of_readNumber? hn
    · cases h

/-- The values inside an open container. -/
def Open.values : Open → List Json
  | .array items => items
  | .object entries _ => entries.map Prod.snd

/-- The values that are complete where the reader stands. -/
def Expecting.values : Expecting → List Json
  | .value => []
  | .key entries _ => entries.map Prod.snd
  | .next done => [done]

/-- Where all values that were read so far are keyed, the value that is read in the end is. -/
theorem keyed_of_readFrom {stack : List Open} {expecting : Expecting} {s rest : List Char}
    {j : Json} (h : readFrom stack expecting s = .ok (j, rest))
    (hs : ∀ o ∈ stack, ∀ v ∈ o.values, v.Keyed) (he : ∀ v ∈ expecting.values, v.Keyed) :
    j.Keyed := by
  fun_induction readFrom stack expecting s with
  | case1 stack s rest _ ih => exact ih h hs (by simp [Expecting.values])
  | case2 stack s rest _ more _ ih =>
    have hempty : (Json.array []).Keyed := .array (by simp)
    exact ih h hs (by simpa [Expecting.values] using hempty)
  | case3 stack s rest _ _ ih => exact ih h (by simpa [Open.values] using hs) he
  | case4 stack s rest _ ih =>
    obtain ⟨⟨text, more, hm⟩, -, h⟩ := exists_of_bind_eq_ok h
    have htext : (Json.string text).Keyed := .scalar (by simp) (by simp)
    exact ih text more hm h hs (by simpa [Expecting.values] using htext)
  | case5 stack s _ _ _ ih =>
    obtain ⟨⟨value, more, hm⟩, hv, h⟩ := exists_of_bind_eq_ok h
    exact ih value more hm h hs (by simpa [Expecting.values] using keyed_of_readScalar hv)
  | case6 stack s entries _ rest _ ih =>
    obtain ⟨⟨key, more, hm⟩, -, h⟩ := exists_of_bind_eq_ok h
    dsimp only at h
    split at h
    · rename_i left hleft
      refine ih key more hm left hleft h ?_ (by simp [Expecting.values])
      exact List.forall_mem_cons.mpr ⟨he, hs⟩
    · cases h
  | case7 stack s entries rest _ ih =>
    have hempty : (Json.object []).Keyed := .object (by simp) (by simp)
    exact ih h hs (by simpa [Expecting.values] using hempty)
  | case8 | case9 | case13 | case16 => cases h
  | case10 s value =>
    cases h
    exact he j (by simp [Expecting.values])
  | case11 s value items outer rest _ ih =>
    obtain ⟨hitems, hs⟩ := List.forall_mem_cons.mp hs
    refine ih h (List.forall_mem_cons.mpr ⟨?_, hs⟩) (by simp [Expecting.values])
    exact List.forall_mem_cons.mpr ⟨he value (by simp [Expecting.values]), hitems⟩
  | case12 s value items outer rest _ ih =>
    obtain ⟨hitems, hs⟩ := List.forall_mem_cons.mp hs
    have hitems : ∀ v ∈ value :: items, v.Keyed :=
      List.forall_mem_cons.mpr ⟨he value (by simp [Expecting.values]), hitems⟩
    have harray : (Json.array (value :: items).reverse).Keyed :=
      .array fun v hv => hitems v (List.mem_reverse.mp hv)
    exact ih h hs (by simpa [Expecting.values] using harray)
  | case14 s value entries key outer rest _ ih =>
    obtain ⟨hentries, hs⟩ := List.forall_mem_cons.mp hs
    exact ih h hs (List.forall_mem_cons.mpr ⟨he value (by simp [Expecting.values]), hentries⟩)
  | case15 s value entries key outer rest _ ih =>
    obtain ⟨hentries, hs⟩ := List.forall_mem_cons.mp hs
    have hvalues : ∀ v ∈ ((key, value) :: entries).map Prod.snd, v.Keyed :=
      List.forall_mem_cons.mpr ⟨he value (by simp [Expecting.values]), hentries⟩
    have hobject : (Json.ofEntries ((key, value) :: entries).reverse).Keyed := by
      refine .ofEntries fun v hv => hvalues v ?_
      rwa [List.map_reverse, List.mem_reverse] at hv
    exact ih h hs (by simpa [Expecting.values] using hobject)

theorem Keyed.of_read {text : String} {j : Json} (h : read text = .ok j) : j.Keyed := by
  simp only [read] at h
  split at h
  · cases h
  · split at h
    · cases h
    · rename_i value hv
      cases h
      exact keyed_of_readFrom hv (by simp) (by simp [Expecting.values])
    · cases h

end ShellSyntax.Json
