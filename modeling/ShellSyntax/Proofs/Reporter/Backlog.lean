import Mathlib.Data.List.Induction
import ShellSyntax.Reporter

/-!
# The backlog over a whole run

* `Request`: what may be asked of a reporter, `Reporter.after`: the reporter after a sequence of
  requests;
* `openSection`: the section that the latest checkpoint opened, `backlogEntries`: all that was
  logged, each message behind the section that was open at the time;
* `answer_after`: what a reporter holds after any sequence of requests, and how it answers the next.
-/

namespace ShellSyntax

inductive Request where
  | log (d : Diagnostic)
  | logMessage (message : String)
  | logAll (l : List Diagnostic)
  | info (message : String)
  | checkpoint (name : Option String)
  | crash (message : String)
  deriving DecidableEq, Repr

namespace Request

/-- The messages that are logged, in order. -/
def logged : Request → List String
  | .log d => [d.render]
  | .logMessage message => [message]
  | .logAll l => l.map Diagnostic.render
  | .info _ | .checkpoint _ | .crash _ => []

/-- The section that is opened, which may be none. -/
def opened? : Request → Option (Option String)
  | .checkpoint name => some name
  | _ => none

/-- Why the run ends, if it ends here. -/
def farewell? : Request → Option String
  | .checkpoint _ => some "error backlog at checkpoint"
  | .crash message => some message
  | _ => none

end Request

/-- The section opened by the latest checkpoint, whether or not that one ended the run. -/
def openSection (before : List Request) : Option String :=
  (before.filterMap Request.opened?).getLast?.getD none

/-- A message in the backlog, behind its section. -/
def backlogEntry (name : Option String) (message : String) : String :=
  "\x7b" ++ name.getD "None" ++ "\x7d \t| " ++ message

/-- All that the requests log. -/
def backlogEntries (requests : List Request) : List String :=
  requests.zipIdx.flatMap fun (q, i) => q.logged.map (backlogEntry (openSection (requests.take i)))

/-- The message of a fatal error. A section without a name is left out. -/
def fatalEntry (name : Option String) (message : String) : String :=
  if name = none ∨ name = some "" then message else backlogEntry name message

namespace Reporter

def answer (r : Reporter) : Request → Report
  | .log d => { reporter := r.log d }
  | .logMessage message => { reporter := r.logMessage message }
  | .logAll l => { reporter := r.logAll l }
  | .info message => r.info message
  | .checkpoint name => r.checkpoint name
  | .crash message => r.crash message

/-- The reporter after the requests. One that ends the run does not keep others from being made. -/
def after (r : Reporter) (requests : List Request) : Reporter :=
  requests.foldl (fun r q => (r.answer q).reporter) r

/-! ### One request -/

theorem tagged_eq (r : Reporter) (message : String) :
    r.tagged message = backlogEntry r.phase? message := rfl

theorem fatal_eq (r : Reporter) (message : String) :
    r.fatal message = fatalEntry r.phase? message := by
  obtain ⟨phase, backlog, verbose⟩ := r
  cases phase with
  | none => simp [fatal, fatalEntry]
  | some name => simp [fatal, fatalEntry, tagged_eq]

theorem checkpoint_of_nil {r : Reporter} (h : r.backlog = []) (name : Option String) :
    r.checkpoint name = info { r with phase? := name } "start" := by
  simp [checkpoint, h]

theorem checkpoint_of_ne_nil {r : Reporter} (h : r.backlog ≠ []) (name : Option String) :
    r.checkpoint name = crash { r with phase? := name } "error backlog at checkpoint" := by
  simp [checkpoint, h]

theorem reporter_checkpoint (r : Reporter) (name : Option String) :
    (r.checkpoint name).reporter = { r with phase? := name } := by
  by_cases h : r.backlog = []
  · rw [checkpoint_of_nil h]
    rfl
  · rw [checkpoint_of_ne_nil h]
    rfl

/-- Only what is logged adds to the backlog, behind the section in force. -/
theorem backlog_answer (r : Reporter) (q : Request) :
    (r.answer q).reporter.backlog = r.backlog ++ q.logged.map (backlogEntry r.phase?) := by
  cases q with
  | log d => rfl
  | logMessage message => rfl
  | logAll l => simp [answer, logAll, Request.logged, tagged_eq, Function.comp_def]
  | info message => simp [answer, info, Request.logged]
  | checkpoint name => simp [answer, reporter_checkpoint, Request.logged]
  | crash message => simp [answer, crash, Request.logged]

/-- Only a checkpoint changes the section. -/
theorem phase?_answer (r : Reporter) (q : Request) :
    (r.answer q).reporter.phase? = q.opened?.getD r.phase? := by
  cases q with
  | checkpoint name => simp [answer, reporter_checkpoint, Request.opened?]
  | log | logMessage | logAll | info | crash => rfl

/-- A crash always ends the run, a checkpoint if something was logged, and nothing else does. -/
theorem exits_answer_iff (r : Reporter) (q : Request) :
    (r.answer q).exits = true ↔
      (∃ message, q = .crash message) ∨ (∃ name, q = .checkpoint name) ∧ r.backlog ≠ [] := by
  cases q with
  | log | logMessage | logAll | info => simp [answer, info]
  | checkpoint name =>
    by_cases h : r.backlog = []
    · simp [answer, checkpoint_of_nil h, info, h]
    · simp [answer, checkpoint_of_ne_nil h, crash, h]
  | crash message => simp [answer, crash]

theorem text_crash (r : Reporter) (message : String) : (r.crash message).text =
    "=== Error backlog ===\n" ++ String.join (r.backlog.map fun e => "[ Error ] " ++ e ++ "\n")
      ++ "[ Fatal Error ] | " ++ fatalEntry r.phase? message ++ "\n" := by
  rw [crash, fatal_eq]

/-- Where the run ends, the whole backlog is written. -/
theorem text_answer {r : Reporter} {q : Request} (h : (r.answer q).exits = true) :
    ∃ message, q.farewell? = some message ∧ (r.answer q).text =
      "=== Error backlog ===\n" ++ String.join (r.backlog.map fun e => "[ Error ] " ++ e ++ "\n")
        ++ "[ Fatal Error ] | " ++ fatalEntry (q.opened?.getD r.phase?) message ++ "\n" := by
  rcases (exits_answer_iff r q).mp h with ⟨message, rfl⟩ | ⟨⟨name, rfl⟩, hb⟩
  · exact ⟨message, rfl, text_crash r message⟩
  · refine ⟨_, rfl, ?_⟩
    rw [answer, checkpoint_of_ne_nil hb, text_crash, Request.opened?, Option.getD_some]

end Reporter

/-! ### Sequences of requests -/

theorem openSection_append (before : List Request) (q : Request) :
    openSection (before ++ [q]) = q.opened?.getD (openSection before) := by
  cases h : q.opened? <;> simp [openSection, List.filterMap_append, h]

theorem backlogEntries_append (before : List Request) (q : Request) :
    backlogEntries (before ++ [q])
      = backlogEntries before ++ q.logged.map (backlogEntry (openSection before)) := by
  have earlier : ∀ e ∈ before.zipIdx, (before ++ [q]).take e.2 = before.take e.2 := by
    intro e he
    have := (List.mem_zipIdx he).2.1
    exact List.take_append_of_le_length (by omega)
  rw [backlogEntries, List.zipIdx_append, List.flatMap_append]
  congr 1
  · simp only [List.flatMap_def]
    exact congrArg List.flatten (List.map_congr_left fun e he => by simp only [earlier e he])
  · simp

theorem backlogEntries_eq_nil_iff (requests : List Request) :
    backlogEntries requests = [] ↔ ∀ q ∈ requests, q.logged = [] := by
  induction requests using List.reverseRecOn with
  | nil => simp [backlogEntries]
  | append_singleton before q ih => simp [backlogEntries_append, ih, or_imp, forall_and]

namespace Reporter

theorem after_append (r : Reporter) (before : List Request) (q : Request) :
    r.after (before ++ [q]) = ((r.after before).answer q).reporter := by
  simp [after]

/-- After any requests the section is the latest, and the backlog has all that was logged. -/
theorem phase?_backlog_after (verbose : Bool) (requests : List Request) :
    (after { verbose } requests).phase? = openSection requests ∧
      (after { verbose } requests).backlog = backlogEntries requests := by
  induction requests using List.reverseRecOn with
  | nil => exact ⟨rfl, rfl⟩
  | append_singleton before q ih =>
    obtain ⟨hphase, hbacklog⟩ := ih
    rw [after_append, phase?_answer, backlog_answer, hphase, hbacklog, openSection_append,
      backlogEntries_append]
    exact ⟨rfl, rfl⟩

end Reporter

/-- What a new reporter holds after any requests, and its answer to the next one: the backlog has
all that was logged, in order; a crash ends the run, and so does a checkpoint once something was
logged; then the whole backlog is written, above a line with the section that is open by then. -/
theorem answer_after (verbose : Bool) (before : List Request) (q : Request) :
    let r := Reporter.after { verbose } before
    r.backlog = backlogEntries before ∧
    (∀ message name, q = .info message ∨ q = .crash message ∨ q = .checkpoint name →
      (r.answer q).reporter.backlog = r.backlog) ∧
    (∀ name, q = .checkpoint name →
      ((r.answer q).exits = true ↔ r.backlog ≠ []) ∧
      ((r.answer q).exits = true ↔ ∃ p ∈ before, p.logged ≠ [])) ∧
    ((r.answer q).exits = true → ∃ message, q.farewell? = some message ∧ (r.answer q).text =
      "=== Error backlog ===\n"
        ++ String.join ((backlogEntries before).map fun e => "[ Error ] " ++ e ++ "\n")
        ++ "[ Fatal Error ] | " ++ fatalEntry (openSection (before ++ [q])) message ++ "\n") := by
  intro r
  obtain ⟨hphase, hbacklog⟩ := Reporter.phase?_backlog_after verbose before
  refine ⟨hbacklog, ?_, ?_, ?_⟩
  · rintro message name (rfl | rfl | rfl) <;> simp [Reporter.backlog_answer, Request.logged]
  · rintro name rfl
    have hexits : (r.answer (.checkpoint name)).exits = true ↔ r.backlog ≠ [] := by
      simp [Reporter.exits_answer_iff]
    refine ⟨hexits, hexits.trans ?_⟩
    rw [hbacklog, Ne, backlogEntries_eq_nil_iff]
    simp
  · intro hexits
    obtain ⟨message, hm, htext⟩ := Reporter.text_answer hexits
    refine ⟨message, hm, ?_⟩
    rw [htext, hphase, hbacklog, openSection_append]

/-- A message keeps the section in which it was logged; the last line has the section of the
checkpoint that ended the run. -/
theorem answer_after_later_section :
    let before : List Request :=
      [.checkpoint (some "loading"), .logMessage "a", .checkpoint (some "checking"),
       .logAll [{ message := "b" }, { message := "c" }]]
    let r := Reporter.after {} before
    r.backlog = ["\x7bloading\x7d \t| a", "\x7bchecking\x7d \t| b", "\x7bchecking\x7d \t| c"] ∧
    (r.answer (.checkpoint (some "printing"))).exits = true ∧
    (r.answer (.checkpoint (some "printing"))).text =
      "=== Error backlog ===\n[ Error ] \x7bloading\x7d \t| a\n[ Error ] \x7bchecking\x7d \t| b\n"
        ++ "[ Error ] \x7bchecking\x7d \t| c\n"
        ++ "[ Fatal Error ] | \x7bprinting\x7d \t| error backlog at checkpoint\n" := by
  intro before r
  obtain ⟨hbacklog, -, hexits, htext⟩ :=
    answer_after false before (.checkpoint (some "printing"))
  have exits : (r.answer (.checkpoint (some "printing"))).exits = true :=
    (hexits _ rfl).2.mpr ⟨.logMessage "a", by simp [before], by simp [Request.logged]⟩
  obtain ⟨message, hm, text⟩ := htext exits
  cases hm
  exact ⟨hbacklog.trans (by decide), exits, text.trans (by decide +kernel)⟩

end ShellSyntax
