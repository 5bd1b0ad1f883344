import ShellSyntax.Proofs.CommandLine.Delivery

/-!
# A file that exists is overwritten only with consent

* `Options.Quiet`: loading and checking log nothing (`quiet_iff`);
* `Agrees`: the next line of the input says yes;
* `storage_of_not_quiet`, `storage_of_declined`, `replaced_of_quiet`: what a run does to the files;
* `overwritten_only_with_consent`: so a file changes only where the user is asked and agrees, and
  never if the tree is read from standard input.
-/

namespace ShellSyntax

/-- The next line of the input is empty or begins with a y. The end of the input is no line. -/
def Agrees (input : String) : Prop :=
  ∃ line, firstLine? input = some line ∧ ∀ c ∈ line.toList.head?, c = 'y' ∨ c = 'Y'

theorem confirms_iff {input : String} : confirms input = true ↔ Agrees input := by
  rw [confirms, Agrees]
  cases firstLine? input with
  | none => simp [affirms]
  | some line => cases hline : line.toList <;> simp [affirms, hline]

instance (input : String) : Decidable (Agrees input) := decidable_of_iff _ confirms_iff

namespace Options

variable {o : Options} {w : World} {name : String}

/-- The reporter of a run in which nothing was logged so far. -/
def reporter (o : Options) (phase : String) : Reporter :=
  { phase? := some phase, verbose := o.verbose }

/-- What a run has loaded. -/
def loaded (o : Options) (w : World) : Loaded := o.source.loaded (o.reporter "loading") w

/-- Nothing is logged while the tree is loaded and checked. -/
structure Quiet (o : Options) (w : World) : Prop where
  loading : (o.loaded w).reporter.backlog = []
  checking : ∀ n, (o.loaded w).tree = some n → (o.inspect (o.reporter "checking") n).backlog = []

instance (o : Options) (w : World) : Decidable (o.Quiet w) :=
  decidable_of_iff ((o.loaded w).reporter.backlog = [] ∧
      (o.loaded w).tree.all fun n => (o.inspect (o.reporter "checking") n).backlog = [])
    ⟨fun h => ⟨h.1, fun n hn => by simpa [hn] using h.2⟩,
      fun h => ⟨h.loading, by simpa [Option.all_eq_true] using h.checking⟩⟩

theorem gives_loaded_iff {tree : Option Node} :
    o.source.Gives w tree ↔ (o.loaded w).reporter.backlog = [] ∧ (o.loaded w).tree = tree :=
  Source.gives_iff rfl o.source tree

theorem quiet_iff : o.Quiet w ↔
    ∃ tree, o.source.Gives w tree ∧ ∀ n, tree = some n → o.Admits n := by
  constructor
  · rintro ⟨hloading, hchecking⟩
    exact ⟨_, gives_loaded_iff.mpr ⟨hloading, rfl⟩,
      fun n hn => (backlog_inspect rfl o n).mp (hchecking n hn)⟩
  · rintro ⟨tree, hgives, hadmits⟩
    obtain ⟨hloading, rfl⟩ := gives_loaded_iff.mp hgives
    exact ⟨hloading, fun n hn => (backlog_inspect rfl o n).mpr (hadmits n hn)⟩

/-! ### What happens to the files -/

theorem storage_of_not_quiet (h : ¬o.Quiet w) :
    (o.dialogue.within w).world.storage = w.storage := by
  rcases o.dialogue_cases w with ⟨tree, hgives, hadmits, -⟩ | ⟨⟨-, hstorage, -⟩, -⟩
  · exact absurd (quiet_iff.mpr ⟨tree, hgives, hadmits⟩) h
  · exact hstorage

theorem delivers_of_quiet (h : o.Quiet w) (hplace : o.Deliverable (o.source.unread w) w.storage) :
    (o.dialogue.within w).code = 0 ∧
      o.Delivers (o.source.unread w) (resultText (o.loaded w).tree) w
        (o.dialogue.within w).world := by
  rcases o.dialogue_cases w with ⟨tree, hgives, -, hend⟩ | ⟨-, hno⟩
  · obtain ⟨-, rfl⟩ := gives_loaded_iff.mp hgives
    rcases hend with ⟨hcode, -, hdelivers⟩ | ⟨-, hno⟩
    · exact ⟨hcode, hdelivers⟩
    · exact absurd hplace hno
  · exact absurd (quiet_iff.mp h) hno

/-- A user who is asked and does not agree keeps all files, and this is no error. -/
theorem storage_of_declined (hout : o.output = some name)
    (h : o.Declined w.storage name (o.source.unread w)) :
    (o.dialogue.within w).world.storage = w.storage ∧
      (o.Quiet w → (o.dialogue.within w).code = 0) := by
  have hplace : o.Deliverable (o.source.unread w) w.storage := by
    simp [Deliverable, hout, h]
  by_cases hquiet : o.Quiet w
  · obtain ⟨hcode, hdelivers⟩ := delivers_of_quiet hquiet hplace
    simp only [Delivers, hout] at hdelivers
    exact ⟨hdelivers.2.1 h, fun _ => hcode⟩
  · exact ⟨storage_of_not_quiet hquiet, fun h => absurd h hquiet⟩

theorem replaced_of_quiet (hout : o.output = some name) (h : o.Quiet w)
    (hwritable : w.storage.Writable name)
    (hagreed : ¬o.Declined w.storage name (o.source.unread w)) :
    (o.dialogue.within w).code = 0 ∧ w.storage.Replaced name (resultText (o.loaded w).tree)
      (o.dialogue.within w).world.storage := by
  have hplace : o.Deliverable (o.source.unread w) w.storage := by
    simp [Deliverable, hout, hwritable]
  obtain ⟨hcode, hdelivers⟩ := delivers_of_quiet h hplace
  simp only [Delivers, hout] at hdelivers
  exact ⟨hcode, hdelivers.2.2 hagreed⟩

section Existing

variable {path old : String} (hout : o.output = some name) (hkeep : o.overwrite = false)
  (hfile : w.storage.locate name = .ok (.file path old))

include hkeep hfile

/-- The user is asked about a file that exists, unless it may be overwritten unasked. -/
theorem declined_iff {input : String} : o.Declined w.storage name input ↔ ¬Agrees input := by
  have hasks : o.Asks w.storage name := ⟨by simp [Storage.occupied, hfile], hkeep⟩
  rw [← confirms_iff, Bool.not_eq_true]
  exact and_iff_right hasks

include hout

theorem quiet_and_agrees_of_changed
    (h : (o.dialogue.within w).world.storage.get? path ≠ some (.file old)) :
    o.Quiet w ∧ Agrees (o.source.unread w) := by
  have hold := Storage.get?_of_locate_file hfile
  constructor
  · by_contra hloud
    rw [storage_of_not_quiet hloud] at h
    exact h hold
  · by_contra hno
    rw [(storage_of_declined hout ((declined_iff hkeep hfile).mpr hno)).1] at h
    exact h hold

theorem changed_of_quiet (hquiet : o.Quiet w) (hagrees : Agrees (o.source.unread w)) :
    (o.dialogue.within w).code = 0 ∧ (o.dialogue.within w).world.storage.get? path
      = some (.file (resultText (o.loaded w).tree)) := by
  have hagreed : ¬o.Declined w.storage name (o.source.unread w) := by
    rwa [declined_iff hkeep hfile, not_not]
  obtain ⟨hcode, path', hpath, -, htext, -⟩ :=
    replaced_of_quiet hout hquiet ⟨path, .inr ⟨old, hfile⟩⟩ hagreed
  obtain rfl : path = path' := by
    rcases hpath with h | ⟨text, h⟩ <;> rw [hfile] at h <;> cases h
    rfl
  exact ⟨hcode, htext⟩

/-- With the input `-`, standard input is used up when the user is asked; or else the minus sign is
taken for an expression, which it is not. -/
theorem storage_of_minus (h : o.source = .standardInput ∨ o.source = .expression "-") :
    (o.dialogue.within w).world.storage = w.storage ∧
      (o.Quiet w → (o.dialogue.within w).code = 0) := by
  rcases h with h | h
  · have hno : ¬Agrees (o.source.unread w) := by
      rw [h]
      rintro ⟨line, hline, -⟩
      cases hline
    exact storage_of_declined hout ((declined_iff hkeep hfile).mpr hno)
  · have hloud : ¬o.Quiet w := by
      have hfault : (Arith.parse "-").errors.length = 1 := by
        decide +kernel
      rw [quiet_iff, h]
      rintro ⟨tree, ⟨hnone⟩, -⟩
      rw [hnone] at hfault
      cases hfault
    exact ⟨storage_of_not_quiet hloud, fun h => absurd h hloud⟩

end Existing

end Options

/-- A run whose result goes to a file that exists, and that may not overwrite it unasked, changes
this file only if nothing was logged while the tree was loaded and checked, and the next line of
standard input agrees. If so, the file gets the text of the tree. With the input `-` no file
changes, whatever standard input holds: it is used up when the user is asked, or else `-` is taken
for an expression, which it is not. The run ends well all the same if the tree is good. -/
theorem overwritten_only_with_consent {args : List String} {w : World} {name path old : String}
    (hargs : ∀ o, Options.ofArgs args = .ok o → o.output = some name ∧ o.overwrite = false)
    (hfile : w.storage.locate name = .ok (.file path old)) :
    let e := (runWith args).within w
    (e.world.storage.get? path ≠ some (.file old) →
      ∃ o, Options.ofArgs args = .ok o ∧ o.Quiet w ∧ Agrees (o.source.unread w)) ∧
    ∀ o, Options.ofArgs args = .ok o →
      (o.Quiet w → Agrees (o.source.unread w) → e.code = 0 ∧ ∃ text,
        EndsLine (Node.print? (o.loaded w).tree) text ∧
          e.world.storage.get? path = some (.file text)) ∧
      (o.source = .standardInput ∨ o.source = .expression "-" →
        e.world.storage = w.storage ∧ (o.Quiet w → e.code = 0)) := by
  intro e
  cases ho : Options.ofArgs args with
  | error halt =>
    have hstorage : e.world.storage = w.storage := by
      cases halt <;> simp [e, runWith, ho, Dialogue.within]
    rw [hstorage]
    refine ⟨fun h => absurd (Storage.get?_of_locate_file hfile) h, ?_⟩
    rintro o ⟨⟩
  | ok o =>
    obtain ⟨hout, hkeep⟩ := hargs o ho
    have he : e = o.dialogue.within w := by
      simp only [e, runWith, ho]
    rw [he]
    refine ⟨fun h => ⟨o, rfl, Options.quiet_and_agrees_of_changed hout hkeep hfile h⟩, ?_⟩
    rintro _ ⟨⟩
    refine ⟨fun hquiet hagrees => ?_, Options.storage_of_minus hout hkeep hfile⟩
    obtain ⟨hcode, htext⟩ := Options.changed_of_quiet hout hkeep hfile hquiet hagrees
    exact ⟨hcode, _, endsLine_resultText _, htext⟩

/-- The first line of standard input agrees; but none is left where a tree was read from there. -/
theorem overwritten_only_with_consent_answered :
    let s : Storage := { entries := [("out", .file "old")] }
    let args := ["--arith", "a+1", "-o", "out"]
    let w : World := { storage := s, input := "Yes\nno" }
    let args' := ["-", "-o", "out"]
    let w' : World := { storage := s, input := "\x7b\"type\": \"File\"\x7d\n" }
    s.locate "out" = .ok (.file "out" "old") ∧
      (∀ o, Options.ofArgs args = .ok o → o.output = some "out" ∧ o.overwrite = false) ∧
      ((runWith args).within w).code = 0 ∧
      ((runWith args).within w).world.storage.get? "out" = some (.file "a + 1\n") ∧
      (∀ o, Options.ofArgs args' = .ok o → o.output = some "out" ∧ o.overwrite = false) ∧
      ((runWith args').within w').code = 0 ∧ ((runWith args').within w').world.storage = s := by
  intro s args w args' w'
  let o : Options := { source := .expression "a+1", output := some "out" }
  let o' : Options := { source := .standardInput, output := some "out" }
  have hargs : Options.ofArgs args = .ok o := by
    decide +kernel
  have hargs' : Options.ofArgs args' = .ok o' := by
    decide +kernel
  have hkeep : ∀ o, Options.ofArgs args = .ok o → o.output = some "out" ∧ o.overwrite = false := by
    rw [hargs]
    rintro _ ⟨⟩
    exact ⟨rfl, rfl⟩
  have hkeep' :
      ∀ o, Options.ofArgs args' = .ok o → o.output = some "out" ∧ o.overwrite = false := by
    rw [hargs']
    rintro _ ⟨⟩
    exact ⟨rfl, rfl⟩
  have hfile : s.locate "out" = .ok (.file "out" "old") :=
    (Storage.locate_eq_file_iff (by decide) (by decide)).mpr rfl
  obtain ⟨-, hconsent⟩ := overwritten_only_with_consent (w := w) hkeep hfile
  obtain ⟨-, hminus⟩ := overwritten_only_with_consent (w := w') hkeep' hfile
  obtain ⟨hcode, text, hends, htext⟩ :=
    (hconsent o hargs).1 (by decide +kernel) (by decide +kernel)
  obtain ⟨hstorage, hgood⟩ := (hminus o' hargs').2 (.inl rfl)
  have htree : Node.print? (o.loaded w).tree = "a + 1" := by
    decide +kernel
  rw [htree] at hends
  obtain rfl : text = "a + 1\n" := by
    simpa [EndsLine] using hends
  exact ⟨hfile, hkeep, hcode, htext, hkeep', hgood (by decide +kernel), hstorage⟩

end ShellSyntax
