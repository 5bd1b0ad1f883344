import ShellSyntax.CommandLine.Run
import ShellSyntax.Proofs.CommandLine.Replacing
import ShellSyntax.Proofs.Reporter.Backlog
import ShellSyntax.Proofs.Schema.Conforms
import ShellSyntax.Proofs.Tree.Rules

/-!
# A run does all or nothing

* `Source.Gives`: an input without fault, and its tree;
* `Options.Admits`: the trees that pass the check and the limit on their depth;
* `Options.Delivers`: the one place to which the result goes;
* `within_load`, `backlog_inspect`, `save_cases`: what each phase of a run does to its surroundings;
* `run_all_or_nothing`: a run that ends well has delivered its result, and any other leaves all
  files alone.
-/

namespace ShellSyntax

variable {r : Reporter} {w : World}

/-! ### Loading -/

/-- The JSON text holds the tree. The text `null` holds none. -/
inductive HoldsTree (text : String) : Option Node → Prop where
  | null (h : Json.read text = .ok .null) : HoldsTree text none
  | tree {j : Json} {n : Node} (hj : Json.read text = .ok j) (hn : Node.decode j = .ok n) :
      HoldsTree text (some n)

namespace Source

/-- Nothing is wrong with the input, and this is its tree, if it has one. -/
inductive Gives (w : World) : Source → Option Node → Prop where
  | expression {text : String} (h : (Arith.parse text).errors = []) :
      Gives w (.expression text) ((Arith.parse text).tree.map .arith)
  | standardInput {tree : Option Node} (h : HoldsTree w.input tree) : Gives w .standardInput tree
  | file {name text : String} {tree : Option Node} (hr : w.storage.read name = .ok text)
      (h : HoldsTree (.ofList (unifyBreaks text.toList)) tree) : Gives w (.file name) tree

/-- What loading leaves of standard input. -/
def unread (w : World) : Source → String
  | .standardInput => ""
  | .expression _ | .file _ => w.input

/-- The outcome of reading a file and loading what it holds. -/
def loadedFile (r : Reporter) (name : String) : Except FileError String → Loaded
  | .ok text => loadJson r name (.ofList (unifyBreaks text.toList))
  | .error e =>
    { tree := none
      reporter := r.logMessage ("cannot read JSON file " ++ name ++ ": " ++ e.message name) }

/-- The outcome of loading. -/
def loaded (r : Reporter) (w : World) : Source → Loaded
  | .expression text => loadExpression r text
  | .standardInput => loadJson r "-" w.input
  | .file name => loadedFile r name (w.storage.read name)

end Source

theorem backlog_logMessage_ne_nil (r : Reporter) (message : String) :
    (r.logMessage message).backlog ≠ [] := by
  simp [Reporter.logMessage]

/-- A refused value has some defect, so that loading it logs something. -/
theorem defects_ne_nil {j : Json} {defects : List Located} (h : Node.decode j = .error defects) :
    defects ≠ [] := by
  have hj := judges_decode j
  rw [h] at hj
  exact hj.1

theorem holdsTree_iff_decode {text : String} {j : Json} (hj : Json.read text = .ok j)
    (hne : j ≠ .null) (tree : Option Node) :
    HoldsTree text tree ↔ ∃ n, Node.decode j = .ok n ∧ some n = tree := by
  constructor
  · rintro (hnull | ⟨hj', hn⟩)
    · rw [hj] at hnull
      cases hnull
      exact absurd rfl hne
    · rw [hj] at hj'
      cases hj'
      exact ⟨_, hn, rfl⟩
  · rintro ⟨n, hn, rfl⟩
    exact .tree hj hn

/-- A text holds a tree exactly if loading it logs nothing. -/
theorem holdsTree_iff (hr : r.backlog = []) (name text : String) (tree : Option Node) :
    HoldsTree text tree ↔
      (loadJson r name text).reporter.backlog = [] ∧ (loadJson r name text).tree = tree := by
  unfold loadJson
  split
  · rename_i e he
    constructor
    · rintro (h | ⟨h, -⟩) <;> rw [he] at h <;> cases h
    · rintro ⟨hb, -⟩
      exact absurd hb (backlog_logMessage_ne_nil r _)
  · rename_i hnull
    constructor
    · rintro (_ | ⟨hj, hn⟩)
      · exact ⟨hr, rfl⟩
      · rw [hnull] at hj
        cases hj
        cases hn
    · rintro ⟨-, rfl⟩
      exact .null hnull
  · rename_i j hne hj
    rw [holdsTree_iff_decode hj hne, loadTree]
    cases hd : Node.decode j with
    | error defects => simp [Reporter.logAll, defects_ne_nil hd]
    | ok n => simp [hr]

namespace Source

/-- The input is without fault exactly if loading it logs nothing. -/
theorem gives_iff (hr : r.backlog = []) (source : Source) (tree : Option Node) :
    source.Gives w tree ↔
      (source.loaded r w).reporter.backlog = [] ∧ (source.loaded r w).tree = tree := by
  cases source with
  | expression text =>
    simp only [loaded, loadExpression, Reporter.logAll, hr, List.nil_append, List.map_eq_nil_iff]
    constructor
    · rintro ⟨h⟩
      exact ⟨h, rfl⟩
    · rintro ⟨h, rfl⟩
      exact .expression h
  | standardInput =>
    rw [loaded, ← holdsTree_iff hr]
    constructor
    · rintro (_ | h)
      exact h
    · exact .standardInput
  | file name =>
    rw [loaded]
    cases hread : w.storage.read name with
    | ok text =>
      rw [loadedFile, ← holdsTree_iff hr]
      constructor
      · rintro (_ | _ | ⟨ht, h⟩)
        rw [hread] at ht
        cases ht
        exact h
      · exact .file hread
    | error e =>
      constructor
      · rintro (_ | _ | ⟨ht, -⟩)
        rw [hread] at ht
        cases ht
      · rintro ⟨hb, -⟩
        exact absurd hb (backlog_logMessage_ne_nil r _)

theorem within_load (source : Source) (r : Reporter) (next : Loaded → Dialogue) (w : World) :
    (source.load r next).within w
      = (next (source.loaded r w)).within { w with input := source.unread w } := by
  cases source with
  | expression text => rfl
  | standardInput => rfl
  | file name =>
    rw [load, Dialogue.within, loaded]
    cases w.storage.read name <;> rfl

/-- Nothing that is loaded depends on what was told to the user. -/
theorem loaded_warned (source : Source) (r : Reporter) (w : World) (warnings : String) :
    source.loaded r { w with warnings } = source.loaded r w := by
  cases source <;> rfl

theorem unread_warned (source : Source) (w : World) (warnings : String) :
    source.unread { w with warnings } = source.unread w := by
  cases source <;> rfl

end Source

/-! ### Sections -/

/-- A section begins if nothing was logged. -/
theorem within_enter_of_nil (hr : r.backlog = []) (name : String) (next : Reporter → Dialogue)
    (w : World) : ∃ warnings, (r.enter name next).within w
      = (next { r with phase? := some name }).within { w with warnings } := by
  rw [Reporter.enter, Reporter.checkpoint_of_nil hr]
  exact ⟨_, rfl⟩

/-- Otherwise the run ends, and only messages were written. -/
theorem within_enter_of_ne_nil (hr : r.backlog ≠ []) (name : String) (next : Reporter → Dialogue)
    (w : World) : ∃ warnings, (r.enter name next).within w
      = { code := 1, world := { w with warnings } } := by
  rw [Reporter.enter, Reporter.checkpoint_of_ne_nil hr]
  exact ⟨_, rfl⟩

namespace Options

/-! ### Checking -/

/-- The tree is not too deep, and keeps all rules unless they are not checked. -/
def Admits (o : Options) (n : Node) : Prop :=
  n.depth ≤ o.maxDepth ∧ (o.check = true → ∀ m ∈ n.stored, ∀ rule : Rule, ¬rule.BrokenBy m)

theorem backlog_inspect (hr : r.backlog = []) (o : Options) (n : Node) :
    (o.inspect r n).backlog = [] ↔ o.Admits n := by
  have hchecked : (if o.check then (n.check r).reporter else r).backlog = [] ↔
      (o.check = true → ∀ m ∈ n.stored, ∀ rule : Rule, ¬rule.BrokenBy m) := by
    cases o.check with
    | false => simp [hr]
    | true =>
      rw [← Node.findings_eq_nil_iff_unbroken]
      simp [Node.check, Checker.check, Reporter.logAll, hr]
  unfold inspect
  by_cases hdepth : n.depth > o.maxDepth
  · have hdeep : ¬o.Admits n := fun h => absurd h.1 (by omega)
    simp only [hdepth, if_true, hdeep, iff_false]
    exact backlog_logMessage_ne_nil _ _
  · simp only [hdepth, if_false, hchecked, Admits]
    constructor
    · exact fun h => ⟨by omega, h⟩
    · exact fun h => h.2

/-! ### Writing -/

/-- The user is asked before the file is written. -/
def Asks (o : Options) (s : Storage) (name : String) : Prop :=
  s.occupied name = true ∧ o.overwrite = false

instance (o : Options) (s : Storage) (name : String) : Decidable (o.Asks s name) :=
  inferInstanceAs (Decidable (_ ∧ _))

/-- The user is asked, and the next line of the input does not say yes. -/
def Declined (o : Options) (s : Storage) (name input : String) : Prop :=
  o.Asks s name ∧ confirms input = false

/-- What the user is asked, if anything. -/
def prompt (o : Options) (s : Storage) (name : String) : String :=
  if o.Asks s name then question name else ""

/-- The text goes to standard output, or to the file of the result unless the user declines, and to
no other place. -/
def Delivers (o : Options) (input text : String) (w w' : World) : Prop :=
  match o.output with
  | none => w'.output = w.output ++ text ∧ w'.storage = w.storage
  | some name =>
    w'.output = w.output ++ o.prompt w.storage name ∧
      (o.Declined w.storage name input → w'.storage = w.storage) ∧
      (¬o.Declined w.storage name input → w.storage.Replaced name text w'.storage)

/-- The file of the result, if there is one, can be written, or the user declines. -/
def Deliverable (o : Options) (input : String) (s : Storage) : Prop :=
  ∀ name, o.output = some name → o.Declined s name input ∨ s.Writable name

/-- The ending of a run that goes wrong: apart from the question, nothing was written. -/
def Spares (o : Options) (w : World) (e : Ending) : Prop :=
  e.code = 1 ∧ e.world.storage = w.storage ∧
    (e.world.output = w.output ∨
      ∃ name, o.output = some name ∧ e.world.output = w.output ++ o.prompt w.storage name)

/-- The last section, in which nothing is left to do. -/
def close (r : Reporter) : Dialogue := r.enter "end" fun _ => .exit 0

theorem within_close (hr : r.backlog = []) (w : World) :
    ∃ warnings, (close r).within w = { code := 0, world := { w with warnings } } :=
  within_enter_of_nil hr "end" (fun _ => .exit 0) w

/-- Writes the text to the file, without a question. -/
def store (r : Reporter) (name text : String) (next : Reporter → Dialogue) : Dialogue :=
  .writeFile name text fun
    | none => next r
    | some e => next (r.logMessage ("Error writing file: " ++ e.message name))

/-- A write that succeeds replaces the file, and one that fails ends the run. -/
theorem store_cases (hr : r.backlog = []) (name text : String) (w : World) :
    let e := (store r name text close).within w
    e.world.output = w.output ∧
      (e.code = 0 ∧ w.storage.Writable name ∧ w.storage.Replaced name text e.world.storage ∨
        e.code = 1 ∧ ¬w.storage.Writable name ∧ e.world.storage = w.storage) := by
  intro e
  rcases w.storage.write_cases name text with ⟨storage, hw, hwritable, hreplaced⟩ | ⟨f, hw, hno⟩
  · obtain ⟨warnings, hend⟩ := within_close hr { w with storage }
    have he : e = { code := 0, world := { w with storage, warnings } } := by
      simp only [e, store, Dialogue.within, hw, hend]
    rw [he]
    exact ⟨rfl, .inl ⟨rfl, hwritable, hreplaced⟩⟩
  · have hfault := backlog_logMessage_ne_nil r ("Error writing file: " ++ f.message name)
    obtain ⟨warnings, hend⟩ := within_enter_of_ne_nil hfault "end" (fun _ => .exit 0) w
    have he : e = { code := 1, world := { w with warnings } } := by
      simp only [e, store, Dialogue.within, hw, close, hend]
    rw [he]
    exact ⟨rfl, .inr ⟨rfl, hno, rfl⟩⟩

section Save

variable {o : Options} {name : String}

theorem within_save_of_declined (hout : o.output = some name)
    (h : o.Declined w.storage name w.input) (r : Reporter) (text : String)
    (next : Reporter → Dialogue) :
    ∃ input, (o.save r text next).within w = (next r).within
      { w with output := w.output ++ o.prompt w.storage name, input } := by
  obtain ⟨hasks, hno⟩ := h
  have hif : w.storage.occupied name = true ∧ o.overwrite = false := hasks
  have haffirms : affirms (firstLine? w.input) = false := hno
  refine ⟨afterFirstLine w.input, ?_⟩
  simp only [save, hout, Dialogue.within, if_pos hif, haffirms, prompt, if_pos hasks,
    Bool.false_eq_true, if_false]

theorem within_save_of_consent (hout : o.output = some name)
    (h : ¬o.Declined w.storage name w.input) (r : Reporter) (text : String)
    (next : Reporter → Dialogue) :
    ∃ input, (o.save r text next).within w = (store r name text next).within
      { w with output := w.output ++ o.prompt w.storage name, input } := by
  by_cases hasks : o.Asks w.storage name
  · have hif : w.storage.occupied name = true ∧ o.overwrite = false := hasks
    have haffirms : affirms (firstLine? w.input) = true := by
      have hyes : confirms w.input ≠ false := fun hno => h ⟨hasks, hno⟩
      simpa [confirms] using hyes
    refine ⟨afterFirstLine w.input, ?_⟩
    simp only [save, store, hout, Dialogue.within, if_pos hif, haffirms, prompt, if_pos hasks,
      if_true]
  · have hif : ¬(w.storage.occupied name = true ∧ o.overwrite = false) := hasks
    refine ⟨w.input, ?_⟩
    simp only [save, store, hout, Dialogue.within, if_neg hif, prompt, if_neg hasks,
      String.append_empty]

end Save

/-- Writing either delivers the text and ends the run well, or leaves all files alone. -/
theorem save_cases (hr : r.backlog = []) (o : Options) (text : String) (w : World) :
    let e := (o.save r text close).within w
    e.code = 0 ∧ o.Deliverable w.input w.storage ∧ o.Delivers w.input text w e.world ∨
      o.Spares w e ∧ ¬o.Deliverable w.input w.storage := by
  intro e
  cases hout : o.output with
  | none =>
    obtain ⟨warnings, hend⟩ := within_close hr { w with output := w.output ++ text }
    have he : e = { code := 0, world := { w with output := w.output ++ text, warnings } } := by
      simp only [e, save, hout, Dialogue.within, hend]
    rw [he]
    exact .inl ⟨rfl, by simp [Deliverable, hout], by simp [Delivers, hout]⟩
  | some name =>
    by_cases hdeclined : o.Declined w.storage name w.input
    · obtain ⟨input, hsave⟩ := within_save_of_declined hout hdeclined r text close
      obtain ⟨warnings, hend⟩ := within_close hr
        { w with output := w.output ++ o.prompt w.storage name, input }
      rw [show e = _ from hsave.trans hend]
      exact .inl ⟨rfl, by simp [Deliverable, hout, hdeclined], by simp [Delivers, hout, hdeclined]⟩
    · obtain ⟨input, hsave⟩ := within_save_of_consent hout hdeclined r text close
      obtain ⟨houtput, hstored⟩ := store_cases hr name text
        { w with output := w.output ++ o.prompt w.storage name, input }
      rw [← show e = _ from hsave] at houtput hstored
      rcases hstored with ⟨hcode, hwritable, hreplaced⟩ | ⟨hcode, hno, hstorage⟩
      · refine .inl ⟨hcode, by simpa [Deliverable, hout] using .inr hwritable, ?_⟩
        simp only [Delivers, hout]
        exact ⟨houtput, fun h => absurd h hdeclined, fun _ => hreplaced⟩
      · refine .inr ⟨⟨hcode, hstorage, .inr ⟨name, hout, houtput⟩⟩, ?_⟩
        simpa [Deliverable, hout, hdeclined] using hno

/-! ### The whole run -/

/-- Printing and writing the result. -/
def finish (o : Options) (tree : Option Node) (r : Reporter) : Dialogue :=
  r.enter "printing" fun r => r.enter "writing" fun r => o.save r (resultText tree) close

theorem finish_cases (hr : r.backlog = []) (o : Options) (tree : Option Node) (w : World) :
    let e := (o.finish tree r).within w
    e.code = 0 ∧ o.Deliverable w.input w.storage ∧ o.Delivers w.input (resultText tree) w e.world ∨
      o.Spares w e ∧ ¬o.Deliverable w.input w.storage := by
  intro e
  let printing : Reporter := { r with phase? := some "printing" }
  obtain ⟨told, hprint⟩ := within_enter_of_nil hr "printing"
    (fun r => r.enter "writing" fun r => o.save r (resultText tree) close) w
  obtain ⟨told', hwrite⟩ := within_enter_of_nil (r := printing) hr "writing"
    (fun r => o.save r (resultText tree) close) { w with warnings := told }
  rw [show e = _ from hprint.trans hwrite]
  exact save_cases (r := { printing with phase? := some "writing" }) hr o (resultText tree)
    { w with warnings := told' }

/-- A tree that is not admitted ends the run before it is printed. -/
theorem inspect_cases (hr : r.backlog = []) (o : Options) (tree : Option Node) (w : World) :
    let e := (o.finish tree (tree.elim r (o.inspect r))).within w
    (∀ n, tree = some n → o.Admits n) ∧ (e.code = 0 ∧ o.Deliverable w.input w.storage ∧
        o.Delivers w.input (resultText tree) w e.world ∨
      o.Spares w e ∧ ¬o.Deliverable w.input w.storage) ∨
    o.Spares w e ∧ ¬∀ n, tree = some n → o.Admits n := by
  intro e
  have hbacklog : (tree.elim r (o.inspect r)).backlog = [] ↔ ∀ n, tree = some n → o.Admits n := by
    cases tree with
    | none => simpa using hr
    | some n => simpa using backlog_inspect hr o n
  by_cases hadmits : ∀ n, tree = some n → o.Admits n
  · exact .inl ⟨hadmits, finish_cases (hbacklog.mpr hadmits) o tree w⟩
  · obtain ⟨told, hstop⟩ := within_enter_of_ne_nil (hbacklog.not.mpr hadmits) "printing" _ w
    rw [show e = _ from hstop]
    exact .inr ⟨⟨rfl, rfl, .inl rfl⟩, hadmits⟩

/-- What follows upon loading. -/
def proceed (o : Options) (loaded : Loaded) : Dialogue :=
  loaded.reporter.enter "checking" fun r =>
    o.finish loaded.tree (loaded.tree.elim r (o.inspect r))

/-- A run up to the point where the input is loaded. -/
theorem within_dialogue (o : Options) (w : World) : ∃ r : Reporter, r.backlog = [] ∧
    ∃ warnings, o.dialogue.within w = (o.proceed (o.source.loaded r w)).within
      { w with input := o.source.unread w, warnings } := by
  let opened : Reporter := { phase? := some "parsing", verbose := o.verbose }
  let told : World := { w with warnings := w.warnings ++ (opened.info "start").text }
  have hopen : o.dialogue.within w
      = (opened.enter "loading" fun r => o.source.load r o.proceed).within told := rfl
  obtain ⟨warnings, hload⟩ := within_enter_of_nil (r := opened) rfl "loading"
    (fun r => o.source.load r o.proceed) told
  rw [Source.within_load, Source.loaded_warned, Source.unread_warned] at hload
  rw [Source.loaded_warned, Source.unread_warned] at hload
  exact ⟨_, rfl, warnings, hopen.trans hload⟩

/-- A run either delivers the tree of its input, which is admitted, or leaves all files alone. It
delivers if there is such a tree and the place for the result takes it. -/
theorem dialogue_cases (o : Options) (w : World) :
    let e := o.dialogue.within w
    let input := o.source.unread w
    (∃ tree, o.source.Gives w tree ∧ (∀ n, tree = some n → o.Admits n) ∧
      (e.code = 0 ∧ o.Deliverable input w.storage ∧ o.Delivers input (resultText tree) w e.world ∨
        o.Spares w e ∧ ¬o.Deliverable input w.storage)) ∨
    o.Spares w e ∧ ¬∃ tree, o.source.Gives w tree ∧ ∀ n, tree = some n → o.Admits n := by
  intro e input
  obtain ⟨r, hr, told, hload⟩ := o.within_dialogue w
  have hgives := Source.gives_iff (w := w) hr o.source
  generalize o.source.loaded r w = loaded at hload hgives
  by_cases hb : loaded.reporter.backlog = []
  · obtain ⟨told', hcheck⟩ := within_enter_of_nil hb "checking"
      (fun r => o.finish loaded.tree (loaded.tree.elim r (o.inspect r)))
      { w with input, warnings := told }
    rw [show e = _ from hload.trans hcheck]
    have hgiven := (hgives loaded.tree).mpr ⟨hb, rfl⟩
    rcases inspect_cases (r := { loaded.reporter with phase? := some "checking" }) hb o loaded.tree
      { w with input, warnings := told' } with ⟨hadmits, hend⟩ | ⟨hspares, hno⟩
    · exact .inl ⟨loaded.tree, hgiven, hadmits, hend⟩
    · refine .inr ⟨hspares, ?_⟩
      rintro ⟨tree, htree, hadmits⟩
      obtain ⟨-, rfl⟩ := (hgives tree).mp htree
      exact hno hadmits
  · obtain ⟨told', hstop⟩ := within_enter_of_ne_nil hb "checking"
      (fun r => o.finish loaded.tree (loaded.tree.elim r (o.inspect r)))
      { w with input, warnings := told }
    rw [show e = _ from hload.trans hstop]
    refine .inr ⟨⟨rfl, rfl, .inl rfl⟩, ?_⟩
    rintro ⟨tree, htree, -⟩
    exact hb ((hgives tree).mp htree).1

end Options

/-- The text is the rendering, with a line break added only if it does not end in one. -/
def EndsLine (rendering text : String) : Prop :=
  rendering.toList.getLast? = some '\n' ∧ text = rendering ∨
    rendering.toList.getLast? ≠ some '\n' ∧ text = rendering ++ "\n"

theorem endsLine_resultText (tree : Option Node) :
    EndsLine (Node.print? tree) (Options.resultText tree) := by
  have hends : endsIn ['\n'] (Node.print? tree) = true ↔
      (Node.print? tree).toList.getLast? = some '\n' := by
    cases h : (Node.print? tree).toList.getLast? <;> simp [endsIn, h]
  by_cases h : (Node.print? tree).toList.getLast? = some '\n'
  · exact .inl ⟨h, if_pos (hends.mpr h)⟩
  · exact .inr ⟨h, if_neg fun hb => h (hends.mp hb)⟩

/-- A run whose arguments are understood ends with code 0 or 1. With code 1 all files are as before,
and nothing but the question was written to standard output. With code 0 the input had no fault, its
tree, if there is one, was admitted, and its text went to one place; the user may decline that. The
code is 0 whenever there is such an input and the place can be written. -/
theorem run_all_or_nothing {args : List String} {o : Options} (h : Options.ofArgs args = .ok o)
    (w : World) :
    let e := (runWith args).within w
    let input := o.source.unread w
    (e.code = 0 ∨ e.code = 1) ∧
    (e.code = 1 → e.world.storage = w.storage ∧
      (e.world.output = w.output ∨ ∃ name, o.output = some name ∧
        e.world.output = w.output ++ o.prompt w.storage name)) ∧
    (e.code = 0 → ∃ tree text, o.source.Gives w tree ∧ (∀ n, tree = some n → o.Admits n) ∧
      EndsLine (Node.print? tree) text ∧ o.Delivers input text w e.world) ∧
    (e.code = 0 ↔ o.Deliverable input w.storage ∧
      ∃ tree, o.source.Gives w tree ∧ ∀ n, tree = some n → o.Admits n) := by
  intro e input
  have he : e = o.dialogue.within w := by simp only [e, runWith, h]
  rcases o.dialogue_cases w with ⟨tree, hgives, hadmits, hend⟩ | ⟨⟨hcode, hspared⟩, hno⟩
  · rw [← he] at hend
    rcases hend with ⟨hcode, hdeliverable, hdelivers⟩ | ⟨⟨hcode, hspared⟩, hno⟩
    · exact ⟨.inl hcode, by simp [hcode],
        fun _ => ⟨tree, _, hgives, hadmits, endsLine_resultText tree, hdelivers⟩,
        fun _ => ⟨hdeliverable, tree, hgives, hadmits⟩, fun _ => hcode⟩
    · exact ⟨.inr hcode, fun _ => hspared, by simp [hcode], by simp [hcode],
        fun hyes => absurd hyes.1 hno⟩
  · rw [← he] at hcode hspared
    exact ⟨.inr hcode, fun _ => hspared, by simp [hcode], by simp [hcode],
      fun hyes => absurd hyes.2 hno⟩

/-- The user agrees, and only the file of the result changes. -/
theorem run_all_or_nothing_overwriting :
    let args := ["--arith", "a+ 1", "-o", "out"]
    let w : World :=
      { storage := { entries := [("d", .directory), ("out", .file "old")] }, input := "y\n" }
    let e := (runWith args).within w
    ∃ o, Options.ofArgs args = .ok o ∧ e.code = 0 ∧ e.world.output = Options.question "out" ∧
      w.storage.Replaced "out" "a + 1\n" e.world.storage := by
  intro args w e
  let o : Options := { source := .expression "a+ 1", output := some "out" }
  have hargs : Options.ofArgs args = .ok o := by decide +kernel
  have hlocate : w.storage.locate "out" = .ok (.file "out" "old") :=
    (Storage.locate_eq_file_iff (by decide) (by decide)).mpr rfl
  have hfile : w.storage.FilePath "out" "out" := .inr ⟨"old", hlocate⟩
  have hasks : o.Asks w.storage "out" := ⟨by simp [Storage.occupied, hlocate], rfl⟩
  have hgives : o.source.Gives w ((Arith.parse "a+ 1").tree.map .arith) :=
    .expression (by decide +kernel)
  have hadmits : ∀ n, (Arith.parse "a+ 1").tree.map Node.arith = some n → o.Admits n := by
    have hall : ((Arith.parse "a+ 1").tree.map Node.arith).all
        (fun n => n.depth ≤ 200 ∧ (n.check {}).ok = true) = true := by decide +kernel
    intro n hn
    rw [hn] at hall
    simp only [Option.all_some, decide_eq_true_eq] at hall
    exact ⟨hall.1, fun _ => Node.check_ok_iff_stored.mp hall.2⟩
  obtain ⟨-, -, hdelivers, hcode⟩ := run_all_or_nothing hargs w
  have hzero : e.code = 0 := hcode.mpr
    ⟨fun name hname => .inr (by cases hname; exact ⟨"out", hfile⟩), _, hgives, hadmits⟩
  obtain ⟨tree, text, hgives', -, hcloses, houtput, -, hreplaced⟩ := hdelivers hzero
  have htext : text = "a + 1\n" := by
    cases hgives'
    have hprint : Node.print? ((Arith.parse "a+ 1").tree.map .arith) = "a + 1" := by decide +kernel
    rw [hprint] at hcloses
    simpa [EndsLine] using hcloses
  subst htext
  refine ⟨o, hargs, hzero, ?_, hreplaced ?_⟩
  · rw [houtput, Options.prompt, if_pos hasks]
    rfl
  · rintro ⟨-, hno⟩
    have hyes : confirms "y\n" = true := by decide +kernel
    exact Bool.false_ne_true (hno.symm.trans hyes)

end ShellSyntax
