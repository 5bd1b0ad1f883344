import Mathlib.Logic.ExistsUnique
import ShellSyntax.Proofs.Arith.Outline

/-!
# How a reading comes out

* `Reader`: a reading in the middle of its text, which goes over one character or lexeme at a time;
* `Reader.exists_runs`: a run ends, and only at the end of the text;
* `filter_isIllegal_readParts`: whatever else is wrong, every illegal character of the text is told;
* `Verdict`: a tree, a refusal with errors, or nothing at all, which only blank texts come to;
* `parse_outcome`: every text has exactly one of them.
-/

namespace ShellSyntax

/-! ### Runs -/

/-- A reading that has reached `pos`, where the rest of its text begins. -/
structure Reader where
  rest : List Char
  pos : Pos
  progress : Progress

namespace Reader

def start (text : String) : Reader where
  rest := text.toList
  pos := { line := 1, column := 1, offset := 0 }
  progress := {}

/-- Goes over the next blank, lexeme or illegal character, and does not look behind it. -/
def next? (parts : Nat) (r : Reader) : Option Reader :=
  match r.rest with
  | [] => none
  | c :: more =>
    if c = '\n' then some { r with rest := more, pos := r.pos.nextLine }
    else if c = ' ' ∨ c = '\t' then some { r with rest := more, pos := r.pos.right 1 }
    else match Lexeme.read? (c :: more) with
      | some (l, behind) => some
          { rest := behind
            pos := r.pos.right l.spelling.length
            progress := r.progress.step parts (.lexeme l r.pos) }
      | none => some
          { rest := more
            pos := r.pos.right 1
            progress := r.progress.step parts (.illegal c r.pos) }

/-- The reader goes on until there is nothing more to go over. -/
inductive Runs (parts : Nat) : Reader → Reader → Prop where
  | done {r : Reader} (h : r.next? parts = none) : Runs parts r r
  | next {r s t : Reader} (h : r.next? parts = some s) (hr : Runs parts s t) : Runs parts r t

/-- What comes of the rest of the text once all of it is scanned. -/
def outlook (parts : Nat) (r : Reader) : Progress :=
  (scanFrom r.pos r.rest).foldl (Progress.step parts) r.progress

variable {parts : Nat}

theorem rest_eq_nil_of_next? {r : Reader} (h : r.next? parts = none) : r.rest = [] := by
  unfold next? at h
  split at h
  · assumption
  · split at h
    · cases h
    · split at h
      · cases h
      · split at h <;> cases h

/-- Every step uses up some of the text and leaves the outlook as it was. -/
theorem next?_spec {r s : Reader} (h : r.next? parts = some s) :
    s.rest.length < r.rest.length ∧ s.outlook parts = r.outlook parts := by
  obtain ⟨rest, pos, progress⟩ := r
  unfold next? at h
  split at h
  · cases h
  · rename_i c more hrest
    cases hrest
    split at h
    · rename_i hn
      cases h
      exact ⟨by simp, by simp only [outlook, scanFrom, if_pos hn]⟩
    · rename_i hn
      split at h
      · rename_i hb
        cases h
        exact ⟨by simp, by simp only [outlook, scanFrom, if_neg hn, if_pos hb]⟩
      · rename_i hb
        split at h
        · rename_i l behind hread
          cases h
          exact ⟨Lexeme.length_lt_of_read? hread, by
            simp only [outlook, scanFrom_some hn hb hread, List.foldl_cons]⟩
        · rename_i hread
          cases h
          exact ⟨by simp, by simp only [outlook, scanFrom_none hn hb hread, List.foldl_cons]⟩

/-- A run ends with nothing of the text left, and with what a scan of the whole text comes to. -/
theorem exists_runs (parts : Nat) (r : Reader) :
    ∃ s, r.Runs parts s ∧ s.rest = [] ∧ s.progress = r.outlook parts := by
  induction hn : r.rest.length using Nat.strongRecOn generalizing r with
  | ind n ih =>
    cases hnext : r.next? parts with
    | none =>
      have hrest := rest_eq_nil_of_next? hnext
      exact ⟨r, .done hnext, hrest, by simp [outlook, hrest, scanFrom]⟩
    | some s =>
      obtain ⟨hlength, houtlook⟩ := next?_spec hnext
      obtain ⟨t, hruns, hrest, hprogress⟩ := ih _ (hn ▸ hlength) s rfl
      exact ⟨t, .next hnext hruns, hrest, hprogress.trans houtlook⟩

end Reader

/-! ### Illegal characters -/

/-- Whether the error is about a character that begins no lexeme. -/
def ArithError.isIllegal : ArithError → Bool
  | .illegal _ _ => true
  | .unexpected _ _ | .unexpectedEnd | .notAssignable _ _ _ => false

/-- What is said of an illegal character when the text is only scanned. -/
def Scanned.illegal? : Scanned → Option ArithError
  | .lexeme _ _ => none
  | .illegal c pos => some (.illegal c pos)

theorem filter_isIllegal_of_isAssignment {l : List ArithError}
    (h : ∀ e ∈ l, e.isAssignment = true) : l.filter ArithError.isIllegal = [] := by
  rw [List.filter_eq_nil_iff]
  intro e he
  have := h e he
  cases e with
  | notAssignable op target pos => simp [ArithError.isIllegal]
  | illegal c pos | unexpected l pos | unexpectedEnd => cases this

theorem filter_isIllegal_refuse (p : Progress) {error : ArithError}
    (h : error.isIllegal = false) :
    (p.refuse error).errors.filter ArithError.isIllegal = p.errors.filter ArithError.isIllegal := by
  unfold Progress.refuse
  split
  · simp [h]
  · rfl

/-- A step tells the illegal character that it meets, and no other. -/
theorem filter_isIllegal_step (parts : Nat) (p : Progress) (e : Scanned) :
    (p.step parts e).errors.filter ArithError.isIllegal
      = p.errors.filter ArithError.isIllegal ++ e.illegal?.toList := by
  cases e with
  | illegal c pos => simp [Progress.step, Scanned.illegal?, ArithError.isIllegal]
  | lexeme l pos =>
    have hshift := filter_isIllegal_of_isAssignment (@isAssignment_of_shift parts p.stack l pos)
    simp only [Progress.step, Scanned.illegal?, Option.toList_none, List.append_nil]
    split
    · simp [hshift]
    · rw [filter_isIllegal_refuse _ rfl]
      simp [hshift]

theorem filter_isIllegal_foldl (parts : Nat) (p : Progress) (l : List Scanned) :
    (l.foldl (Progress.step parts) p).errors.filter ArithError.isIllegal
      = p.errors.filter ArithError.isIllegal ++ l.filterMap Scanned.illegal? := by
  induction l generalizing p with
  | nil => simp
  | cons e rest ih =>
    rw [List.foldl_cons, ih, filter_isIllegal_step, List.append_assoc]
    cases he : e.illegal? <;> simp [he]

theorem filter_isIllegal_reading (parts : Nat) (p : Progress) :
    (p.reading parts).errors.filter ArithError.isIllegal
      = p.errors.filter ArithError.isIllegal := by
  have hfinish := filter_isIllegal_of_isAssignment (@isAssignment_of_finish parts p.stack)
  unfold Progress.reading
  split
  · rename_i errors read heq
    rw [heq] at hfinish
    simp [hfinish]
  · rename_i errors heq
    rw [heq] at hfinish
    rw [filter_isIllegal_refuse _ rfl]
    simp [hfinish]

/-- The illegal characters that a reading tells are those of the scan, each once and in order. -/
theorem filter_isIllegal_readParts (parts : Nat) (text : String) :
    (readParts parts text).errors.filter ArithError.isIllegal
      = (scan text).filterMap Scanned.illegal? := by
  have hread : readParts parts text
      = ((scan text).foldl (Progress.step parts) {}).reading parts := rfl
  rw [hread, filter_isIllegal_reading, filter_isIllegal_foldl]
  rfl

/-! ### Readings without an error -/

/-- A text is read to its end unless an error is told. -/
theorem readParts_of_errors_eq_nil {parts : Nat} {text : String}
    (h : (readParts parts text).errors = []) :
    ∃ read, readParts parts text = { built := some read, errors := [] } := by
  have hread : readParts parts text
      = ((scan text).foldl (Progress.step parts) {}).reading parts := rfl
  rw [hread] at h ⊢
  have hrun : ((scan text).foldl (Progress.step parts) {}).errors = [] := by
    have := errors_prefix_reading parts ((scan text).foldl (Progress.step parts) {})
    rw [h] at this
    exact List.prefix_nil.mp this
  -- The counter that silences errors only moves once one was told.
  obtain ⟨l, s, -, -, hs⟩ := reads_of_foldl hrun
  have hs' : (scan text).foldl (Progress.step parts) {} = ⟨s, 0, []⟩ := hs
  rw [hs'] at h ⊢
  unfold Progress.reading at h ⊢
  split at h
  · rename_i errors read heq
    exact ⟨read, congrArg (Reading.mk (some read)) h⟩
  · simp [Progress.refuse] at h

theorem scanFrom_eq_nil_iff {pos : Pos} {text : List Char} :
    scanFrom pos text = [] ↔ ∀ c ∈ text, c ∈ [' ', '\t', '\n'] := by
  induction pos, text using scanFrom.induct with
  | case1 pos => simp [scanFrom]
  | case2 pos rest ih =>
    rw [scanFrom, if_pos rfl, ih]
    simp
  | case3 pos c rest hn hb ih =>
    have hc : c ∈ [' ', '\t', '\n'] := by
      rcases hb with rfl | rfl <;> simp
    rw [scanFrom, if_neg hn, if_pos hb, ih, List.forall_mem_cons]
    exact (and_iff_right hc).symm
  | case4 pos c rest hn hb l more hr ih =>
    rw [scanFrom_some hn hb hr]
    simp [not_or.mp hb, hn]
  | case5 pos c rest hn hb hr ih =>
    rw [scanFrom_none hn hb hr]
    simp [not_or.mp hb, hn]

/-- An expression without an error is the whole text, or the text is blank. -/
theorem Arith.parse_of_errors_eq_nil {text : String} (h : (Arith.parse text).errors = []) :
    (∃ t, Arith.parse text = { built := some t, errors := [] }) ∨
      Arith.parse text = { built := none, errors := [] } ∧
        ∀ c ∈ text.toList, c ∈ [' ', '\t', '\n'] := by
  obtain ⟨read, hread⟩ := @readParts_of_errors_eq_nil 1 text h
  obtain ⟨l, front, last, hscan, rfl, hlength, whole⟩ := whole_of_readParts hread
  cases List.length_eq_zero_iff.mp (Nat.succ.inj hlength)
  obtain ⟨before, rfl, hbefore⟩ := whole.tokens
  cases List.map_eq_nil_iff.mp hbefore
  cases last with
  | some t => exact Or.inl ⟨t, by simp [Arith.parse, hread]⟩
  | none =>
    refine Or.inr ⟨by simp [Arith.parse, hread], ?_⟩
    exact scanFrom_eq_nil_iff.mp hscan

/-- The head of a loop without an error is the whole text. -/
theorem CountLoop.parse_of_errors_eq_nil {text : String} (h : (CountLoop.parse text).errors = []) :
    ∃ l, CountLoop.parse text = { built := some l, errors := [] } := by
  obtain ⟨read, hread⟩ := @readParts_of_errors_eq_nil 3 text h
  obtain ⟨l, front, last, hscan, hfront, hlength, whole⟩ := whole_of_readParts hread
  have hthree : read.length = 3 := by
    rw [hfront, List.length_append, List.length_singleton, hlength]
  match read, hthree with
  | [init, cond, step], _ => exact ⟨{ init, cond, step }, by simp [CountLoop.parse, hread]⟩

/-! ### Verdicts -/

inductive Verdict where
  | tree | refusal | nothing

namespace Verdict

/-- A reading comes out as a tree and no error, as errors and no tree, or, of a blank text, as
neither. -/
def Of {α : Type} (text : String) (r : Reading α) : Verdict → Prop
  | .tree => r.tree ≠ none ∧ r.errors = []
  | .refusal => r.tree = none ∧ r.errors ≠ []
  | .nothing => r.tree = none ∧ r.errors = [] ∧ ∀ c ∈ text.toList, c ∈ [' ', '\t', '\n']

variable {α : Type} {text : String} {r : Reading α}

theorem Of.unique {o o' : Verdict} (h : o.Of text r) (h' : o'.Of text r) : o = o' := by
  cases o <;> cases o' <;> first | rfl | simp_all [Of]

theorem of_refusal (h : r.errors ≠ []) : Verdict.refusal.Of text r := by
  refine ⟨?_, h⟩
  simp [Reading.tree, h]

end Verdict

/-- The run over a text ends, at the end of the text, and comes out in exactly one way: as a tree
and no error, as no tree and an error, or, if the text is blank, as neither; the head of a loop
never comes out as neither. Whatever else is wrong, the illegal characters that are told are those
which a scan of the whole text meets. -/
theorem parse_outcome (text : String) :
    (∀ parts, ∃ r, (Reader.start text).Runs parts r ∧ r.rest = [] ∧
      readParts parts text = r.progress.reading parts) ∧
    (∃! o : Verdict, o.Of text (Arith.parse text)) ∧
    (∃! o : Verdict, o ≠ .nothing ∧ o.Of text (CountLoop.parse text)) ∧
    (Arith.parse text).errors.filter ArithError.isIllegal = (scan text).filterMap Scanned.illegal? ∧
    (CountLoop.parse text).errors.filter ArithError.isIllegal
      = (scan text).filterMap Scanned.illegal? := by
  refine ⟨fun parts => ?_, ?_, ?_, filter_isIllegal_readParts 1 text,
    filter_isIllegal_readParts 3 text⟩
  · obtain ⟨r, hruns, hrest, hprogress⟩ := (Reader.start text).exists_runs parts
    exact ⟨r, hruns, hrest, by rw [hprogress]; rfl⟩
  · refine existsUnique_of_exists_of_unique ?_ fun o o' => Verdict.Of.unique
    by_cases herrors : (Arith.parse text).errors = []
    · rcases Arith.parse_of_errors_eq_nil herrors with ⟨t, ht⟩ | ⟨hnone, hblank⟩
      · exact ⟨.tree, by simp [ht, Reading.tree], herrors⟩
      · exact ⟨.nothing, by simp [hnone, Reading.tree], herrors, hblank⟩
    · exact ⟨.refusal, Verdict.of_refusal herrors⟩
  · refine existsUnique_of_exists_of_unique ?_ fun o o' h h' => Verdict.Of.unique h.2 h'.2
    by_cases herrors : (CountLoop.parse text).errors = []
    · obtain ⟨l, hl⟩ := CountLoop.parse_of_errors_eq_nil herrors
      exact ⟨.tree, by simp, by simp [hl, Reading.tree], herrors⟩
    · exact ⟨.refusal, by simp, Verdict.of_refusal herrors⟩

end ShellSyntax
