import ShellSyntax.CommandLine.Run
import ShellSyntax.Proofs.Schema.Object

/-!
# The values that encode a tree

* `Json.Conforms`: a value is an object of a shape, with the fields that the shape declares;
  `Json.Fits`: a value may stand in a field of a type;
* `Outcome.Judges`: an outcome accepts what conforms, and tells a defect of anything else;
* `judges_decode`: decoding judges the values of every shape, so that a tree is read from
  exactly the values that conform to the shape of a node.
-/

namespace ShellSyntax

mutual

/-- The value may stand in a field of the type. -/
inductive Json.Fits : FieldType → Json → Prop where
  | bool (b : Bool) : Fits .bool (.bool b)
  | int (n : Int) : Fits .int (.int n)
  | text (t : String) : Fits .text (.string t)
  | token (t : Token) : Fits .token (.string t.spelling)
  | pos {j : Json} (h : Conforms .pos j) : Fits .pos j
  | node {f : Family} {kind : Kind} {j : Json} (hk : kind ∈ f.kinds) (h : Conforms (.node kind) j) :
      Fits (.node f) j
  | null (f : Family) : Fits (.optional f) .null
  | present {f : Family} {kind : Kind} {j : Json} (hk : kind ∈ f.kinds)
      (h : Conforms (.node kind) j) : Fits (.optional f) j
  | list {f : Family} {items : List Json} (h : ∀ j ∈ items, Fits (.node f) j) :
      Fits (.list f) (.array items)

/-- The value is an object that names the shape, has only fields of it, each with a value of its
type, and leaves out none that has no default. -/
inductive Json.Conforms : Shape → Json → Prop where
  | object {s : Shape} {entries : List (String × Json)}
      (named : Json.lookup? "type" entries = some (.string s.name))
      (declared : ∀ key j, (key, j) ∈ entries → key ≠ "type" → ∃ f ∈ s.fields, f.name = key)
      (typed : ∀ f j, f ∈ s.fields → (f.name, j) ∈ entries → Fits f.type j)
      (complete : ∀ f ∈ s.fields, f.default? = none → ∃ j, (f.name, j) ∈ entries) :
      Conforms s (.object entries)

end

/-- What was decoded is what the value stands for. -/
inductive Stands : Json → Decoded → Prop where
  | scalar {j : Json} (ha : ∀ items, j ≠ .array items) (ho : ∀ entries, j ≠ .object entries) :
      Stands j (.scalar j)
  | list {items : List Json} {values : List Decoded} (h : List.Forall₂ Stands items values) :
      Stands (.array items) (.list values)
  | item {entries : List (String × Json)} {i : Item} (h : Json.Conforms i.shape (.object entries)) :
      Stands (.object entries) (.item i)

/-! ### Fields -/

theorem Json.Conforms.unique {s t : Shape} {j : Json} (hs : Conforms s j) (ht : Conforms t j) :
    s = t := by
  obtain ⟨named, -, -, -⟩ := hs
  obtain ⟨named', -, -, -⟩ := ht
  rw [named] at named'
  simp only [Option.some.injEq, Json.string.injEq] at named'
  exact Shape.name_inj named'

theorem Family.admit?_eq_some_iff {f : Family} {d : Decoded} {n : Node} :
    f.admit? d = some n ↔ d = .item (.node n) ∧ n.kind ∈ f.kinds := by
  unfold admit?
  split
  · rename_i m
    constructor
    · intro h
      split at h
      · cases h
        exact ⟨rfl, by assumption⟩
      · cases h
    · rintro ⟨he, hk⟩
      cases he
      rw [if_pos hk]
  · rename_i hno
    constructor
    · intro h
      cases h
    · rintro ⟨rfl, -⟩
      exact absurd rfl (hno n)

namespace Stands

variable {j : Json} {d : Decoded}

theorem eq_item {s : Shape} (h : Stands j d) (hc : j.Conforms s) :
    ∃ i : Item, d = .item i ∧ i.shape = s := by
  cases h with
  | scalar _ ho =>
    cases hc with
    | object => exact absurd rfl (ho _)
  | list => cases hc
  | item h => exact ⟨_, rfl, h.unique hc⟩

theorem eq_node {kind : Kind} (h : Stands j d) (hc : j.Conforms (.node kind)) :
    ∃ n : Node, d = .item (.node n) ∧ n.kind = kind := by
  obtain ⟨i, rfl, hs⟩ := h.eq_item hc
  cases i with
  | pos p => cases hs
  | node n => exact ⟨n, rfl, Shape.node.inj hs⟩

theorem fits_of_admit? {f : Family} {n : Node} (h : Stands j d) (hn : f.admit? d = some n) :
    j.Conforms (.node n.kind) ∧ n.kind ∈ f.kinds := by
  obtain ⟨rfl, hk⟩ := Family.admit?_eq_some_iff.mp hn
  cases h with
  | item h => exact ⟨h, hk⟩

theorem admit?_of_fits {f : Family} {kind : Kind} (h : Stands j d) (hk : kind ∈ f.kinds)
    (hc : j.Conforms (.node kind)) : ∃ n, f.admit? d = some n := by
  obtain ⟨n, rfl, rfl⟩ := h.eq_node hc
  exact ⟨n, Family.admit?_eq_some_iff.mpr ⟨rfl, hk⟩⟩

theorem fits_of_mapM {f : Family} {items : List Json} {l : List Decoded} {nodes : List Node}
    (h : List.Forall₂ Stands items l) (hn : l.mapM f.admit? = some nodes) :
    (∀ j ∈ items, j.Fits (.node f)) ∧ ∀ n ∈ nodes, n.kind ∈ f.kinds := by
  induction h generalizing nodes with
  | nil =>
    cases hn
    simp
  | @cons j d items l hd _ ih =>
    simp only [List.mapM_cons, Option.bind_eq_bind, Option.bind_eq_some_iff, Option.pure_def,
      Option.some.injEq] at hn
    obtain ⟨n, hadmit, rest, hrest, rfl⟩ := hn
    obtain ⟨hc, hk⟩ := hd.fits_of_admit? hadmit
    obtain ⟨hitems, hnodes⟩ := ih hrest
    constructor
    · intro j' hj
      rcases List.mem_cons.mp hj with rfl | hj
      · exact .node hk hc
      · exact hitems j' hj
    · intro m hm
      rcases List.mem_cons.mp hm with rfl | hm
      · exact hk
      · exact hnodes m hm

theorem mapM_of_fits {f : Family} {items : List Json} {l : List Decoded}
    (h : List.Forall₂ Stands items l) (hf : ∀ j ∈ items, j.Fits (.node f)) :
    ∃ nodes, l.mapM f.admit? = some nodes := by
  induction h with
  | nil => exact ⟨[], rfl⟩
  | @cons j d items l hd _ ih =>
    obtain ⟨nodes, hnodes⟩ := ih fun j' hj => hf j' (List.mem_cons_of_mem _ hj)
    cases hf j List.mem_cons_self with
    | node hk hc =>
      obtain ⟨n, hn⟩ := hd.admit?_of_fits hk hc
      exact ⟨n :: nodes, by simp [List.mapM_cons, hn, hnodes]⟩

/-- A decoded value that fits a field has its type, and so has the value that it stands for. -/
theorem fits {type : FieldType} {v : FieldValue} (h : Stands j d) (hv : type.fit? d = some v) :
    j.Fits type ∧ v.HasType type := by
  unfold FieldType.fit? at hv
  split at hv
  · cases hv
    cases h with
    | scalar => exact ⟨.bool _, .bool _⟩
  · cases hv
    cases h with
    | scalar => exact ⟨.int _, .int _⟩
  · cases hv
    cases h with
    | scalar => exact ⟨.text _, .text _⟩
  · cases hv
    cases h with
    | item hc => exact ⟨.pos hc, .pos _⟩
  · obtain ⟨n, hn, rfl⟩ := Option.map_eq_some_iff.mp hv
    obtain ⟨hc, hk⟩ := h.fits_of_admit? hn
    exact ⟨.node hk hc, .node hk⟩
  · cases hv
    cases h with
    | scalar => exact ⟨.null _, .absent _⟩
  · obtain ⟨n, hn, rfl⟩ := Option.map_eq_some_iff.mp hv
    obtain ⟨hc, hk⟩ := h.fits_of_admit? hn
    exact ⟨.present hk hc, .present hk⟩
  · obtain ⟨nodes, hn, rfl⟩ := Option.map_eq_some_iff.mp hv
    cases h with
    | list h =>
      obtain ⟨hitems, hnodes⟩ := fits_of_mapM h hn
      exact ⟨.list hitems, .list hnodes⟩
  · cases hv

/-- What fits a field that holds no token is taken by it once decoded. -/
theorem fit?_of_fits {type : FieldType} (h : Stands j d) (hf : j.Fits type) (ht : type ≠ .token) :
    ∃ v, type.fit? d = some v := by
  cases hf with
  | bool b =>
    cases h with
    | scalar => exact ⟨_, rfl⟩
  | int n =>
    cases h with
    | scalar => exact ⟨_, rfl⟩
  | text t =>
    cases h with
    | scalar => exact ⟨_, rfl⟩
  | token t => exact absurd rfl ht
  | pos hc =>
    obtain ⟨i, rfl, hs⟩ := h.eq_item hc
    cases i with
    | pos p => exact ⟨_, rfl⟩
    | node n => cases hs
  | node hk hc =>
    obtain ⟨n, hn⟩ := h.admit?_of_fits hk hc
    exact ⟨.node n, by simp [FieldType.fit?, hn]⟩
  | null f =>
    cases h with
    | scalar => exact ⟨_, rfl⟩
  | present hk hc =>
    obtain ⟨n, rfl, rfl⟩ := h.eq_node hc
    have hn := Family.admit?_eq_some_iff.mpr (And.intro rfl hk)
    exact ⟨.node n, by simp [FieldType.fit?, hn]⟩
  | list hl =>
    cases h with
    | scalar ha => exact absurd rfl (ha _)
    | list h =>
      obtain ⟨nodes, hn⟩ := mapM_of_fits h hl
      exact ⟨.nodes nodes, by simp [FieldType.fit?, hn]⟩

end Stands

/-! ### Outcomes -/

/-- A result is right, and where there is none some defect is told and something is wrong. -/
def Outcome.Judges {α : Type} (good : α → Prop) (bad : Prop) : Outcome α → Prop
  | .ok a => good a
  | .error defects => defects ≠ [] ∧ bad

namespace Outcome

variable {α β γ : Type}

theorem Judges.imp {good good' : α → Prop} {bad bad' : Prop} {o : Outcome α}
    (h : o.Judges good bad) (hg : ∀ a, good a → good' a) (hb : bad → bad') :
    o.Judges good' bad' := by
  cases o with
  | ok a => exact hg a h
  | error defects => exact ⟨h.1, hb h.2⟩

theorem Judges.map {good : α → Prop} {good' : β → Prop} {bad : Prop} {o : Outcome α}
    (h : o.Judges good bad) (f : α → β) (hg : ∀ a, good a → good' (f a)) :
    Judges good' bad (o.map f) := by
  cases o with
  | ok a => exact hg a h
  | error defects => exact h

theorem Judges.both {ga : α → Prop} {gb : β → Prop} {gc : γ → Prop} {ba bb bc : Prop}
    {f : α → β → γ} {a : Outcome α} {b : Outcome β} (ha : a.Judges ga ba) (hb : b.Judges gb bb)
    (hg : ∀ x y, ga x → gb y → gc (f x y)) (ha' : ba → bc) (hb' : bb → bc) :
    (Outcome.both f a b).Judges gc bc := by
  cases a with
  | ok x =>
    cases b with
    | ok y => exact hg x y ha hb
    | error e => exact ⟨hb.1, hb' hb.2⟩
  | error e =>
    cases b with
    | ok y => exact ⟨ha.1, ha' ha.2⟩
    | error e' => exact ⟨by simp [ha.1], ha' ha.2⟩

end Outcome

/-! ### Decoding -/

/-- The value fits no field, except perhaps one that holds a token. -/
def Json.Unfit (j : Json) : Prop := ∀ type, j.Fits type → type = .token

theorem judges_decodeToken {path : Path} {s : Shape} {f : Field} (hf : f.type = .token) (j : Json) :
    (decodeToken s f path j).Judges (fun v => j.Fits f.type ∧ v.HasType f.type)
      (¬j.Fits f.type) := by
  rw [hf]
  unfold decodeToken
  split
  · exact ⟨by simp, fun h => by cases h⟩
  · rename_i t
    split
    · rename_i token h
      rw [← Token.spelling_of_ofSpelling? h]
      exact ⟨.token token, .token token⟩
    · rename_i h
      refine ⟨by simp, fun hfits => ?_⟩
      cases hfits
      rw [Token.ofSpelling?_spelling] at h
      cases h
  · rename_i hno
    refine ⟨by simp, fun hfits => ?_⟩
    cases hfits
    exact hno _ rfl

theorem judges_decodeValue {path : Path} {s : Shape} {f : Field} {j : Json}
    (h : (decodeAt path j).Judges (Stands j) j.Unfit) :
    (decodeValue path s f j).Judges (fun v => j.Fits f.type ∧ v.HasType f.type)
      (¬j.Fits f.type) := by
  unfold decodeValue
  split
  · rename_i ht
    exact judges_decodeToken ht j
  · rename_i ht
    cases hd : decodeAt path j with
    | error e =>
      rw [hd] at h
      exact ⟨h.1, fun hf => ht (h.2 _ hf)⟩
    | ok d =>
      rw [hd] at h
      simp only [fitField]
      split
      · rename_i v hv
        exact h.fits hv
      · rename_i hv
        refine ⟨by simp, fun hf => ?_⟩
        obtain ⟨v, hfit⟩ := Stands.fit?_of_fits h hf ht
        rw [hv] at hfit
        cases hfit

namespace Shape

/-- The entries are fields of the shape, and these are their values. -/
structure Gives (s : Shape) (entries : List (String × Json)) (given : List (String × FieldValue)) :
    Prop where
  declared : ∀ key j, (key, j) ∈ entries → key ≠ "type" → ∃ f ∈ s.fields, f.name = key
  fits : ∀ f j, f ∈ s.fields → (f.name, j) ∈ entries → j.Fits f.type
  typed : ∀ name v, (name, v) ∈ given → ∃ f, s.field? name = some f ∧ v.HasType f.type
  kept : ∀ f j, f ∈ s.fields → (f.name, j) ∈ entries → f.name ∈ given.map Prod.fst

/-- Some entry is no field of the shape, or has a value that the field does not admit. -/
def Refuses (s : Shape) (entries : List (String × Json)) : Prop :=
  ∃ key j, (key, j) ∈ entries ∧ key ≠ "type" ∧ ∀ f ∈ s.fields, f.name = key → ¬j.Fits f.type

variable {s : Shape} {entries : List (String × Json)} {given : List (String × FieldValue)}

theorem gives_nil : s.Gives [] [] := by
  constructor <;> simp

theorem Gives.skip (h : s.Gives entries given) (j : Json) :
    s.Gives (("type", j) :: entries) given := by
  constructor
  · intro key j' hm hk
    rcases List.mem_cons.mp hm with he | hm
    · cases he
      exact absurd rfl hk
    · exact h.declared key j' hm hk
  · intro f j' hf hm
    rcases List.mem_cons.mp hm with he | hm
    · exact absurd (congrArg Prod.fst he) (name_ne_type hf)
    · exact h.fits f j' hf hm
  · exact h.typed
  · intro f j' hf hm
    rcases List.mem_cons.mp hm with he | hm
    · exact absurd (congrArg Prod.fst he) (name_ne_type hf)
    · exact h.kept f j' hf hm

theorem Gives.cons (h : s.Gives entries given) {f : Field} (hf : f ∈ s.fields) {j : Json}
    {v : FieldValue} (hj : j.Fits f.type) (hv : v.HasType f.type) :
    s.Gives ((f.name, j) :: entries) ((f.name, v) :: given) := by
  constructor
  · intro key j' hm hk
    rcases List.mem_cons.mp hm with he | hm
    · cases he
      exact ⟨f, hf, rfl⟩
    · exact h.declared key j' hm hk
  · intro g j' hg hm
    rcases List.mem_cons.mp hm with he | hm
    · cases eq_of_name_eq hg hf (congrArg Prod.fst he)
      cases he
      exact hj
    · exact h.fits g j' hg hm
  · intro name w hm
    rcases List.mem_cons.mp hm with he | hm
    · cases he
      exact ⟨f, field?_of_mem hf, hv⟩
    · exact h.typed name w hm
  · intro g j' hg hm
    rw [List.map_cons]
    rcases List.mem_cons.mp hm with he | hm
    · have hname : g.name = f.name := congrArg Prod.fst he
      rw [hname]
      exact List.mem_cons_self
    · exact List.mem_cons_of_mem _ (h.kept g j' hg hm)

theorem Refuses.cons (h : s.Refuses entries) (e : String × Json) : s.Refuses (e :: entries) := by
  obtain ⟨key, j, hm, hk⟩ := h
  exact ⟨key, j, List.mem_cons_of_mem _ hm, hk⟩

theorem not_conforms_of_refuses (h : s.Refuses entries) : ¬(Json.object entries).Conforms s := by
  rintro ⟨-, declared, typed, -⟩
  obtain ⟨key, j, hm, hk, hno⟩ := h
  obtain ⟨f, hf, rfl⟩ := declared key j hm hk
  exact hno f hf rfl (typed f j hf hm)

theorem judges_required {path : Path} : (s.required path entries).Judges
    (fun _ => ∀ f ∈ s.fields, f.default? = none → ∃ j, (f.name, j) ∈ entries)
    (¬(Json.object entries).Conforms s) := by
  unfold required
  split
  · rename_i hm
    exact missing_eq_nil_iff.mp hm
  · rename_i hm
    refine ⟨by simpa using hm, ?_⟩
    rintro ⟨-, -, -, complete⟩
    exact hm (missing_eq_nil_iff.mpr complete)

/-- Fields that are all right make up an item of the shape. -/
theorem Gives.exists_item (h : s.Gives entries given)
    (hs : Json.lookup? "type" entries = some (.string s.name))
    (complete : ∀ f ∈ s.fields, f.default? = none → ∃ j, (f.name, j) ∈ entries) :
    ∃ i : Item, s.build? given = some i ∧ Stands (.object entries) (.item i) := by
  have hkept : ∀ f ∈ s.fields, f.default? = none → f.name ∈ given.map Prod.fst := by
    intro f hf hd
    obtain ⟨j, hj⟩ := complete f hf hd
    exact h.kept f j hf hj
  obtain ⟨i, hi, rfl, -⟩ := build?_of_typed h.typed hkept
  exact ⟨i, hi, .item (.object hs h.declared h.fits complete)⟩

theorem judges_assemble {path : Path} {fields : Outcome (List (String × FieldValue))}
    (hs : ofEntries? entries = some s) (h : fields.Judges (s.Gives entries) (s.Refuses entries)) :
    (s.assemble path entries fields).Judges (Stands (.object entries))
      (¬(Json.object entries).Conforms s) := by
  have hboth : (Outcome.both (fun given _ => given) fields (s.required path entries)).Judges
      (fun given => ∃ i, s.build? given = some i ∧ Stands (.object entries) (.item i))
      (¬(Json.object entries).Conforms s) :=
    h.both judges_required (fun given _ hg hc => hg.exists_item (ofEntries?_eq_some_iff.mp hs) hc)
      not_conforms_of_refuses id
  rw [assemble_eq]
  split
  · rename_i e he
    rw [he] at hboth
    exact hboth
  · rename_i given hgiven
    rw [hgiven] at hboth
    obtain ⟨i, hi, hstands⟩ := hboth
    simp only [hi]
    exact hstands

end Shape

theorem Json.Unfit.array {items : List Json} (h : ∃ j ∈ items, j.Unfit) : (array items).Unfit := by
  intro type hf
  obtain ⟨j, hj, hno⟩ := h
  cases hf with
  | pos hc | node _ hc | present _ hc => cases hc
  | list hl => exact absurd (hno _ (hl j hj)) (by simp)

theorem Json.Unfit.object {entries : List (String × Json)}
    (h : ∀ s, ¬(Json.object entries).Conforms s) : (object entries).Unfit := by
  intro type hf
  cases hf with
  | pos hc | node _ hc | present _ hc => exact absurd hc (h _)

mutual

/-- What is decoded is what the value stands for; where nothing is, the value fits no field. -/
theorem judges_decodeAt (path : Path) :
    (j : Json) → (decodeAt path j).Judges (Stands j) j.Unfit
  | .array items => by
    rw [decodeAt]
    have hitems := (judges_decodeItems path 0 items).imp (fun _ h => h) Json.Unfit.array
    exact hitems.map Decoded.list fun _ h => Stands.list h
  | .object entries => by
    rw [decodeAt]
    split
    · rename_i hno
      refine ⟨by simp, Json.Unfit.object ?_⟩
      rintro s ⟨named, -, -, -⟩
      rw [Shape.ofEntries?_eq_some_iff.mpr named] at hno
      cases hno
    · rename_i s hs
      refine (Shape.judges_assemble hs (judges_decodeEntries path s entries)).imp (fun _ h => h) ?_
      intro hno
      refine Json.Unfit.object fun t ht => ?_
      have named : Shape.ofEntries? entries = some t := by
        obtain ⟨named, -, -, -⟩ := ht
        exact Shape.ofEntries?_eq_some_iff.mpr named
      rw [hs] at named
      cases named
      exact hno ht
  | .null | .bool _ | .int _ | .float _ | .string _ => by
    simp only [decodeAt]
    exact .scalar (by simp) (by simp)

theorem judges_decodeItems (path : Path) (i : Nat) : (items : List Json) →
    (decodeItems path i items).Judges (List.Forall₂ Stands items) (∃ j ∈ items, j.Unfit)
  | [] => .nil
  | j :: rest => by
    rw [decodeItems]
    apply (judges_decodeAt (path ++ [Step.index i]) j).both (judges_decodeItems path (i + 1) rest)
    · exact fun d l hd hl => List.Forall₂.cons hd hl
    · exact fun h => ⟨j, List.mem_cons_self, h⟩
    · rintro ⟨j', hj, h⟩
      exact ⟨j', List.mem_cons_of_mem _ hj, h⟩

theorem judges_decodeEntries (path : Path) (s : Shape) : (entries : List (String × Json)) →
    (decodeEntries path s entries).Judges (s.Gives entries) (s.Refuses entries)
  | [] => by
    rw [decodeEntries]
    exact Shape.gives_nil
  | (key, j) :: rest => by
    have hrest := judges_decodeEntries path s rest
    by_cases hk : key = "type"
    · subst hk
      rw [decodeEntries_type]
      exact hrest.imp (fun _ h => h.skip j) (fun h => h.cons _)
    · cases hf : s.field? key with
      | none =>
        have hundeclared : s.Refuses ((key, j) :: rest) := by
          refine ⟨key, j, List.mem_cons_self, hk, fun f hm he => ?_⟩
          rw [← he, Shape.field?_of_mem hm] at hf
          cases hf
        have hunknown : Outcome.Judges (fun _ => False) (s.Refuses ((key, j) :: rest))
            (.error [⟨.unknownField s key, path⟩] : Outcome Unit) := ⟨by simp, hundeclared⟩
        rw [decodeEntries, if_neg hk]
        simp only [hf]
        exact hunknown.both hrest (fun _ _ h _ => h.elim) id (fun h => h.cons _)
      | some f =>
        obtain ⟨hm, rfl⟩ := Shape.mem_of_field? hf
        rw [decodeEntries_declared hm]
        have hvalue :=
          judges_decodeValue (s := s) (f := f) (judges_decodeAt (path ++ [.key f.name]) j)
        refine hvalue.both hrest (fun v l hv hl => hl.cons hm hv.1 hv.2) ?_ (fun h => h.cons _)
        intro hno
        refine ⟨f.name, j, List.mem_cons_self, hk, fun g hg he => ?_⟩
        rw [Shape.eq_of_name_eq hg hm he]
        exact hno

end

/-! ### Trees -/

theorem judges_decode (j : Json) : (Node.decode j).Judges (fun n => j.Conforms (.node n.kind))
    (∀ kind, ¬j.Conforms (.node kind)) := by
  have h := judges_decodeAt [] j
  unfold Node.decode
  split
  · rename_i e he
    rw [he] at h
    refine ⟨h.1, fun kind hc => ?_⟩
    have hfits : j.Fits (.node .any) := .node (Kind.mem_all kind) hc
    cases h.2 _ hfits
  · rename_i n hn
    rw [hn] at h
    cases h with
    | item hc => exact hc
  · rename_i d hno hd
    rw [hd] at h
    refine ⟨by simp, fun kind hc => ?_⟩
    obtain ⟨n, rfl, -⟩ := Stands.eq_node h hc
    exact hno n rfl

/-- A value is loaded as a tree exactly if it conforms to the declarations of some kind of node.
Then all fields in the tree have their types and nothing is logged; otherwise something is. -/
theorem loadTree_iff_conforms (r : Reporter) (j : Json) :
    ((∃ n, (loadTree r j).tree = some n) ↔ ∃ kind, j.Conforms (.node kind)) ∧
    (∀ n, (loadTree r j).tree = some n → j.Conforms (.node n.kind) ∧ (loadTree r j).reporter = r ∧
      ∀ m ∈ n.preorder, FieldValue.Typed m.kind.fields m.fields) ∧
    ((loadTree r j).tree = none → ∃ messages, messages ≠ [] ∧
      (loadTree r j).reporter = { r with backlog := r.backlog ++ messages }) := by
  have h := judges_decode j
  unfold loadTree
  cases hd : Node.decode j with
  | ok n =>
    rw [hd] at h
    refine ⟨⟨fun _ => ⟨_, h⟩, fun _ => ⟨n, rfl⟩⟩, ?_, ?_⟩
    · rintro n' ⟨⟩
      exact ⟨h, rfl, fun m _ => (Item.node m).fields_typed⟩
    · intro hn
      cases hn
  | error defects =>
    rw [hd] at h
    refine ⟨⟨?_, ?_⟩, ?_, ?_⟩
    · rintro ⟨n, hn⟩
      cases hn
    · rintro ⟨kind, hc⟩
      exact absurd hc (h.2 kind)
    · intro n hn
      cases hn
    · intro _
      refine ⟨_, ?_, rfl⟩
      simpa using h.1

/-- A flag is no whole number, though everything else about the object is right. -/
theorem loadTree_iff_conforms_flag :
    (∃ n, (loadTree {} (.object [("type", .string "Lit"), ("value", .string "a")])).tree = some n ∧
      (loadTree {} (.object [("type", .string "Lit"), ("value", .string "a")])).reporter = {} ∧
      ∀ m ∈ n.preorder, FieldValue.Typed m.kind.fields m.fields) ∧
    (∃ messages, messages ≠ [] ∧
      (loadTree {} (.object [("type", .string "Lit"), ("value_pos",
        .object [("type", .string "Pos"), ("line", .bool true)])])).reporter
        = { backlog := messages }) := by
  have lit : (loadTree {} (.object [("type", .string "Lit"), ("value", .string "a")])).tree
      = some (.lit { value := "a" }) := rfl
  have flag : (loadTree {} (.object [("type", .string "Lit"), ("value_pos",
      .object [("type", .string "Pos"), ("line", .bool true)])])).tree = none := rfl
  obtain ⟨-, hr, ht⟩ := (loadTree_iff_conforms {} _).2.1 _ lit
  exact ⟨⟨_, lit, hr, ht⟩, (loadTree_iff_conforms {} _).2.2 flag⟩

end ShellSyntax
