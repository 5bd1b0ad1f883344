import Mathlib.Data.Multiset.Bind
import ShellSyntax.Proofs.Schema.Defects
import ShellSyntax.Proofs.Schema.Normal

/-!
# The order of keys in what is told

* `Located.Alike`: two defects are told at one path, and are equal but for the order of keys in the
  value that they show;
* `tellsAlike_decodeAt`: of values that are alike the same defects are told, but for that and the
  order in which they are told;
* `loadTree_of_alike`: so the order of keys decides neither which tree is read nor what is logged,
  except where a message shows an object.
-/

namespace ShellSyntax

/-! ### Defects that are alike -/

/-- No part of the value is an object. -/
inductive Json.Keyless : Json → Prop where
  | scalar {j : Json} (ha : ∀ items, j ≠ .array items) (ho : ∀ entries, j ≠ .object entries) :
      Keyless j
  | array {items : List Json} (h : ∀ j ∈ items, Keyless j) : Keyless (.array items)

theorem Json.Alike.eq_of_keyless {a b : Json} (h : a.Alike b) (ha : a.Keyless) : a = b := by
  induction h with
  | scalar => rfl
  | @array l m length _ ih =>
    have keyless : ∀ j ∈ l, j.Keyless := by
      cases ha with
      | scalar ha => exact absurd rfl (ha l)
      | array h => exact h
    congr 1
    refine List.ext_getElem length fun i hl hm => ?_
    have hi := keyless _ (List.getElem_mem hl)
    exact ih i _ _ (List.getElem?_eq_getElem hl) (List.getElem?_eq_getElem hm) hi
  | object =>
    cases ha with
    | scalar _ ho => exact absurd rfl (ho _)

namespace Defect

/-- The value that the message shows, if there is one. -/
def shown? : Defect → Option Json
  | .unknownType found => found
  | .unknownToken found => some found
  | .unknownField _ _ | .mistyped _ _ | .missing _ _ | .notATree => none

/-- The defects are equal, but for the order of keys in the values that they show. -/
inductive Alike : Defect → Defect → Prop where
  | same (d : Defect) : Alike d d
  | unknownType {a b : Json} (h : a.Alike b) : Alike (.unknownType (some a)) (.unknownType (some b))
  | unknownToken {a b : Json} (h : a.Alike b) : Alike (.unknownToken a) (.unknownToken b)

theorem Alike.eq_of_keyless {d e : Defect} (h : d.Alike e) (hd : ∀ j ∈ d.shown?, j.Keyless) :
    d = e := by
  cases h with
  | same => rfl
  | unknownType h => rw [h.eq_of_keyless (hd _ rfl)]
  | unknownToken h => rw [h.eq_of_keyless (hd _ rfl)]

end Defect

/-- The defects are told at one path, and are alike. -/
def Located.Alike (d e : Located) : Prop := d.path = e.path ∧ d.defect.Alike e.defect

theorem Located.Alike.refl (d : Located) : d.Alike d := ⟨rfl, .same d.defect⟩

/-- The same defects are told in both lists, but for their order and that of the keys they show. -/
def TellsAlike (l m : List Located) : Prop := Multiset.Rel Located.Alike ↑l ↑m

namespace TellsAlike

variable {l m l' m' : List Located}

theorem refl (l : List Located) : TellsAlike l l :=
  Multiset.rel_refl_of_refl_on fun d _ => Located.Alike.refl d

theorem append (h : TellsAlike l m) (h' : TellsAlike l' m') : TellsAlike (l ++ l') (m ++ m') := by
  have := h.add h'
  rwa [Multiset.coe_add, Multiset.coe_add] at this

theorem singleton {d e : Defect} (path : Path) (h : d.Alike e) :
    TellsAlike [⟨d, path⟩] [⟨e, path⟩] := by
  have hnil : TellsAlike [] [] := refl []
  exact Multiset.Rel.cons ⟨rfl, h⟩ hnil

/-- What is told of each entry may depend on its value, if that is told alike under one key. -/
theorem flatMap {entries entries' : List (String × Json)} {f : String × Json → List Located}
    (keys : (entries.map Prod.fst).Perm (entries'.map Prod.fst))
    (h : ∀ key a b, (key, a) ∈ entries → (key, b) ∈ entries' →
      TellsAlike (f (key, a)) (f (key, b))) :
    TellsAlike (entries.flatMap f) (entries'.flatMap f) := by
  have hkeys : Multiset.Rel (fun e e' : String × Json => e.1 = e'.1) ↑entries ↑entries' := by
    rw [← Multiset.rel_map (p := Eq) (f := Prod.fst) (g := Prod.fst), Multiset.rel_eq]
    simpa using keys
  have htold : Multiset.Rel (fun e e' => TellsAlike (f e) (f e')) ↑entries ↑entries' := by
    refine hkeys.mono ?_
    rintro ⟨key, a⟩ ha ⟨key', b⟩ hb rfl
    exact h key a b ha hb
  rw [TellsAlike, ← Multiset.coe_bind, ← Multiset.coe_bind]
  exact Multiset.rel_bind (fun _ _ h => h) htold

/-- Where no object is shown, the same defects are told in some order. -/
theorem perm (h : TellsAlike l m) (hl : ∀ d ∈ l, ∀ j ∈ d.defect.shown?, j.Keyless) : l.Perm m := by
  rw [← Multiset.coe_eq_coe, ← Multiset.rel_eq]
  refine h.mono fun d hd e _ hde => ?_
  obtain ⟨hpath, hdefect⟩ := hde
  obtain ⟨defect, path⟩ := d
  obtain ⟨defect', path'⟩ := e
  have hsame : defect = defect' := hdefect.eq_of_keyless (hl _ hd)
  rw [hsame, show path = path' from hpath]

end TellsAlike

/-! ### Values that are alike -/

theorem Json.perm_keys {l m : List (String × Json)} (hl : (l.map Prod.fst).Nodup)
    (hm : (m.map Prod.fst).Nodup) (keys : ∀ key, lookup? key l = none ↔ lookup? key m = none) :
    (l.map Prod.fst).Perm (m.map Prod.fst) := by
  refine (List.perm_ext_iff_of_nodup hl hm).mpr fun key => ?_
  rw [← not_iff_not, ← lookup?_eq_none_iff_notMem, ← lookup?_eq_none_iff_notMem]
  exact keys key

section Alike

variable {path : Path} {s : Shape} {a b : Json} {l m : List (String × Json)}

/-- Of values that are alike, both or neither can be decoded. -/
theorem decodeAt_alike_cases (h : a.Alike b) (ha : a.Keyed) (hb : b.Keyed) (path : Path) :
    decodeAt path a = decodeAt path b ∨
      ∃ e e', decodeAt path a = .error e ∧ decodeAt path b = .error e' := by
  cases hd : decodeAt path a with
  | ok d => exact .inl (decodeAt_of_alike h ha hb path hd).symm
  | error e =>
    cases hd' : decodeAt path b with
    | ok d =>
      rw [decodeAt_of_alike h.symm hb ha path hd'] at hd
      cases hd
    | error e' => exact .inr ⟨e, e', rfl, rfl⟩

theorem tellsAlike_decodeToken (s : Shape) (f : Field) (path : Path) (h : a.Alike b) :
    TellsAlike (decodeToken s f path a).defects (decodeToken s f path b).defects := by
  have whole := h
  cases h with
  | scalar => exact .refl _
  | array | object => exact .singleton path (.unknownToken whole)

/-- Whether something is wrong inside a value does not depend on the order of its keys, so neither
does whether the field is told to be mistyped. -/
theorem tellsAlike_decodeValue {f : Field} (h : a.Alike b) (ha : a.Keyed) (hb : b.Keyed)
    (hd : TellsAlike (decodeAt path a).defects (decodeAt path b).defects) :
    TellsAlike (decodeValue path s f a).defects (decodeValue path s f b).defects := by
  unfold decodeValue
  split
  · exact tellsAlike_decodeToken s f path h
  · rcases decodeAt_alike_cases h ha hb path with hsame | ⟨e, e', he, he'⟩
    · rw [hsame]
      exact .refl _
    · rw [he, he'] at hd ⊢
      exact hd

theorem tellsAlike_decodeItems {l m : List Json} {n : Nat} (length : l.length = m.length)
    (items : ∀ (i : Nat) a b, l[i]? = some a → m[i]? = some b →
      TellsAlike (decodeAt (path ++ [.index (n + i)]) a).defects
        (decodeAt (path ++ [.index (n + i)]) b).defects) :
    TellsAlike (decodeItems path n l).defects (decodeItems path n m).defects := by
  induction l generalizing m n with
  | nil =>
    cases m with
    | nil => exact .refl _
    | cons b m => cases length
  | cons a l ih =>
    cases m with
    | nil => cases length
    | cons b m =>
      have hrest := ih (m := m) (n := n + 1) (by simpa using length) fun i a b ha hb => by
        rw [Nat.succ_add_eq_add_succ]
        exact items (i + 1) a b ha hb
      rw [decodeItems, decodeItems, Outcome.defects_both, Outcome.defects_both]
      exact (items 0 a b rfl rfl).append hrest

theorem Shape.ofEntries?_eq_of_alike (h : (Json.object l).Alike (.object m)) :
    ofEntries? l = ofEntries? m :=
  Option.ext fun _ => ⟨ofEntries?_of_alike h, ofEntries?_of_alike h.symm⟩

theorem Shape.missing_eq_of_keys (s : Shape)
    (keys : ∀ key, Json.lookup? key l = none ↔ Json.lookup? key m = none) :
    s.missing l = s.missing m := by
  unfold missing
  congr 1
  funext f
  have hkey : (Json.lookup? f.name l).isNone = (Json.lookup? f.name m).isNone := by
    rw [Bool.eq_iff_iff, Option.isNone_iff_eq_none, Option.isNone_iff_eq_none, keys]
  rw [hkey]

theorem Shape.tellsAlike_entryDefects {key : String} (h : a.Alike b) (ha : a.Keyed) (hb : b.Keyed)
    (hd : TellsAlike (decodeAt (path ++ [.key key]) a).defects
      (decodeAt (path ++ [.key key]) b).defects) :
    TellsAlike (s.entryDefects path (key, a)) (s.entryDefects path (key, b)) := by
  rw [entryDefects, entryDefects]
  split
  · exact .refl _
  · split
    · exact .refl _
    · exact tellsAlike_decodeValue h ha hb hd

/-- The induction is on how the values are alike. What is told of an entry depends on nothing but
the entry, so entries may be told of in any order. -/
theorem tellsAlike_decodeAt (h : a.Alike b) (ha : a.Keyed) (hb : b.Keyed) (path : Path) :
    TellsAlike (decodeAt path a).defects (decodeAt path b).defects := by
  have whole := h
  induction h generalizing path with
  | scalar => exact .refl _
  | array length items ih =>
    rw [Json.keyed_array_iff] at ha hb
    rw [decodeAt, decodeAt, Outcome.defects_map, Outcome.defects_map]
    refine tellsAlike_decodeItems length fun i a b hl hm => ?_
    have hka := ha a (List.mem_of_getElem? hl)
    have hkb := hb b (List.mem_of_getElem? hm)
    exact ih i a b hl hm hka hkb _ (items i a b hl hm)
  | @object l m keys values ih =>
    obtain ⟨nodup, va⟩ := Json.keyed_object_iff.mp ha
    obtain ⟨nodup', vb⟩ := Json.keyed_object_iff.mp hb
    have hshape := Shape.ofEntries?_eq_of_alike whole
    cases hs : Shape.ofEntries? l with
    | none =>
      rw [defects_decodeAt_unnamed path hs, defects_decodeAt_unnamed path (hshape ▸ hs)]
      refine .singleton path ?_
      cases hl : Json.lookup? "type" l with
      | none =>
        rw [(keys "type").mp hl]
        exact .same _
      | some a =>
        obtain ⟨b, hm⟩ := Json.exists_lookup? keys hl
        rw [hm]
        exact .unknownType (values "type" a b hl hm)
    | some s =>
      rw [defects_decodeAt_object path hs, defects_decodeAt_object path (hshape ▸ hs),
        s.missing_eq_of_keys keys]
      refine .append (.flatMap (Json.perm_keys nodup nodup' keys) fun key a b hl hm => ?_) (.refl _)
      have hka := va key a hl
      have hkb := vb key b hm
      rw [← Json.lookup?_eq_some_iff nodup] at hl
      rw [← Json.lookup?_eq_some_iff nodup'] at hm
      have halike := values key a b hl hm
      exact Shape.tellsAlike_entryDefects halike hka hkb (ih key a b hl hm hka hkb _ halike)

/-! ### Loading -/

theorem tellsAlike_decode (h : a.Alike b) (ha : a.Keyed) (hb : b.Keyed) :
    TellsAlike (Node.decode a).defects (Node.decode b).defects := by
  rcases decodeAt_alike_cases h ha hb [] with hsame | ⟨e, e', he, he'⟩
  · rw [Node.decode, hsame]
    exact .refl _
  · have := tellsAlike_decodeAt h ha hb []
    rw [he, he'] at this
    simp only [Node.decode, he, he']
    exact this

theorem tree_loadTree_of_alike (r : Reporter) (h : a.Alike b) (ha : a.Keyed) (hb : b.Keyed) :
    (loadTree r a).tree = (loadTree r b).tree := by
  refine Option.ext fun n => ?_
  rw [loadTree_eq_some_iff, loadTree_eq_some_iff]
  exact ⟨decodeAt_of_alike h ha hb [], decodeAt_of_alike h.symm hb ha []⟩

/-- The order of keys does not matter: values that are alike are read as one tree or both refused,
and what is logged of them is alike. If no message shows an object, the messages are the same. -/
theorem loadTree_of_alike (r : Reporter) (h : a.Alike b) (ha : a.Keyed) (hb : b.Keyed) :
    (loadTree r a).tree = (loadTree r b).tree ∧
    (loadTree r a).reporter = r.logAll ((Node.decode a).defects.map Located.diagnostic) ∧
    (loadTree r b).reporter = r.logAll ((Node.decode b).defects.map Located.diagnostic) ∧
    TellsAlike (Node.decode a).defects (Node.decode b).defects ∧
    ((∀ d ∈ (Node.decode a).defects, ∀ j ∈ d.defect.shown?, j.Keyless) →
      (loadTree r a).reporter.backlog.Perm (loadTree r b).reporter.backlog) := by
  have htold := tellsAlike_decode h ha hb
  refine ⟨tree_loadTree_of_alike r h ha hb, reporter_loadTree r a, reporter_loadTree r b, htold, ?_⟩
  intro hshown
  rw [reporter_loadTree, reporter_loadTree]
  exact (((htold.perm hshown).map _).map _).append_left _

/-- The two defects of the object are told in the order in which the entries stand. -/
theorem loadTree_of_alike_literal :
    let a : Json := .object [("type", .string "Lit"), ("valu", .string "x"), ("value", .int 5)]
    let b : Json := .object [("value", .int 5), ("type", .string "Lit"), ("valu", .string "x")]
    (a.Alike b ∧ a.Keyed ∧ b.Keyed) ∧
      (∀ d ∈ (Node.decode a).defects, ∀ j ∈ d.defect.shown?, j.Keyless) ∧
      (loadTree {} a).reporter.backlog ≠ (loadTree {} b).reporter.backlog ∧
      (loadTree {} a).reporter.backlog.Perm (loadTree {} b).reporter.backlog := by
  intro a b
  have htext (t : String) : (Json.string t).Keyed := .scalar (by simp) (by simp)
  have hnumber (n : Int) : (Json.int n).Keyed := .scalar (by simp) (by simp)
  have ha : a.Keyed := by
    simp [a, Json.keyed_object_iff, or_imp, forall_and, htext, hnumber]
  have hb : b.Keyed := by
    simp [b, Json.keyed_object_iff, or_imp, forall_and, htext, hnumber]
  have halike : a.Alike b := by
    refine .of_lookup? fun key => ?_
    simp only [Json.lookup?]
    grind [Json.Alike.of_keyed]
  have hshown : ∀ d ∈ (Node.decode a).defects, ∀ j ∈ d.defect.shown?, j.Keyless := by
    have hdefects : (Node.decode a).defects.map (fun d => d.defect.shown?) = [none, none] := rfl
    intro d hd j hj
    have hnone := List.mem_map_of_mem (f := fun d => d.defect.shown?) hd
    rw [hdefects] at hnone
    simp_all
  refine ⟨⟨halike, ha, hb⟩, hshown, by decide +kernel, ?_⟩
  exact (loadTree_of_alike {} halike ha hb).2.2.2.2 hshown

/-- A message shows the keys of an object in their order, so from it this order can be told. -/
theorem order_of_shown_keys :
    ∃ a b : Json, a.Alike b ∧ a.Keyed ∧ b.Keyed ∧
      ¬(loadTree {} a).reporter.backlog.Perm (loadTree {} b).reporter.backlog := by
  let a : Json := .object [("type", .object [("a", .null), ("b", .null)])]
  let b : Json := .object [("type", .object [("b", .null), ("a", .null)])]
  have hnull : Json.null.Keyed := .scalar (by simp) (by simp)
  have ha : a.Keyed := by
    simp [a, Json.keyed_object_iff, or_imp, forall_and, hnull]
  have hb : b.Keyed := by
    simp [b, Json.keyed_object_iff, or_imp, forall_and, hnull]
  have halike : a.Alike b := by
    refine .of_lookup? fun key => ?_
    have hinner : (Json.object [("a", .null), ("b", .null)]).Alike
        (.object [("b", .null), ("a", .null)]) := by
      refine .of_lookup? fun key => ?_
      simp only [Json.lookup?]
      grind [Json.Alike.of_keyed]
    simp only [Json.lookup?]
    grind
  refine ⟨a, b, halike, ha, hb, ?_⟩
  decide +kernel

end Alike

end ShellSyntax
