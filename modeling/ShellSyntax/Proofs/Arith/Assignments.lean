import ShellSyntax.Proofs.Arith.Completeness
import ShellSyntax.Proofs.Arith.Outcome
import ShellSyntax.Proofs.Arith.Partition

/-!
# Assignments to something other than a variable

Where every lexeme stands where it may, a tree is built whatever its assignments are, and it is kept
only if they all have variables on their left.

* `Arith.postorder`: the nodes of a tree, operands before their operator;
* `Arith.faults_eq_filterMap`: the faults of a tree are the complaints about its nodes, in order;
* `Arith.Represents`: a tree is what the binding levels make of a text, which only one tree is;
* `parse_assignments`: so, of a text without any other error, these complaints are the errors.
-/

namespace ShellSyntax

namespace Arith

/-! ### Complaints about nodes -/

mutual

/-- The expression with all expressions in it, from left to right and operands before their
operator. -/
@[simp] def postorder : Arith → List Arith
  | .word w => [.word w]
  | .unary op operand postfixed pos => postorder? operand ++ [.unary op operand postfixed pos]
  | .binary op left right pos => postorder? left ++ postorder? right ++ [.binary op left right pos]
  | .paren inner lparen rparen => postorder? inner ++ [.paren inner lparen rparen]

@[simp] def postorder? : Option Arith → List Arith
  | none => []
  | some a => a.postorder

end

/-- A word of one literal, which does not begin with a digit. -/
def IsVariable (a : Arith) : Prop :=
  ∃ l : Lit, a = .word ⟨[.lit l]⟩ ∧ ∀ c ∈ l.value.toList.head?, c.isDigit = false

theorem isVariable_iff_assignable {a : Arith} : a.IsVariable ↔ a.assignable = true := by
  constructor
  · rintro ⟨l, rfl, h⟩
    cases hc : l.value.toList.head? with
    | none => simp [assignable, hc]
    | some c => simp [assignable, hc, h c hc]
  · intro h
    unfold assignable at h
    split at h
    · rename_i l
      refine ⟨l, rfl, fun c hc => ?_⟩
      rw [hc] at h
      simpa using h
    · cases h

instance (a : Arith) : Decidable a.IsVariable := decidable_of_iff' _ isVariable_iff_assignable

/-- What is wrong with the node itself. -/
def complaint? : Arith → Option ArithError
  | .binary op (some left) _ pos =>
    if op ∈ Token.assignments ∧ ¬left.IsVariable then some (.notAssignable op left pos) else none
  | _ => none

theorem errors_infixOp (left : Arith) (op : Token) (right : Option Arith) (pos : Pos) :
    (Waiting.infixOp left op pos).errors
      = (complaint? (.binary op (some left) right pos)).toList := by
  simp only [Waiting.errors, complaint?, isVariable_iff_assignable, Bool.not_eq_true]
  split <;> rfl

mutual

/-- The faults of a tree are the complaints about its nodes, one after the other. -/
theorem faults_eq_filterMap : (t : Arith) → t.faults = t.postorder.filterMap complaint?
  | .word w => by simp [complaint?]
  | .unary op operand postfixed pos => by
    simp [faults?_eq_filterMap operand, complaint?]
  | .binary op none right pos => by
    simp [faults?_eq_filterMap right, complaint?]
  | .binary op (some left) right pos => by
    have hnode := errors_infixOp left op right pos
    simp only [faults, faults?, postorder, postorder?, List.filterMap_append,
      faults_eq_filterMap left, faults?_eq_filterMap right, Option.map_some, Option.getD_some,
      hnode]
    cases hc : complaint? (.binary op (some left) right pos) <;> simp [hc]
  | .paren inner lparen rparen => by
    simp [faults?_eq_filterMap inner, complaint?]

theorem faults?_eq_filterMap : (a : Option Arith) →
    faults? a = (postorder? a).filterMap complaint?
  | none => rfl
  | some a => faults_eq_filterMap a

end

theorem exists_of_complaint? {node : Arith} {e : ArithError} (h : node.complaint? = some e) :
    ∃ op left right pos,
      node = .binary op (some left) right pos ∧ e = .notAssignable op left pos := by
  unfold complaint? at h
  split at h
  · split at h
    · cases h
      exact ⟨_, _, _, _, rfl, rfl⟩
    · cases h
  · cases h

/-- A node of a legal tree has a legal left operand, and its operator is a lexeme of the tree. -/
theorem Legal.of_mem_postorder {t : Arith} (h : t.Legal) {op : Token} {left : Arith}
    {right : Option Arith} {pos : Pos} (hm : .binary op (some left) right pos ∈ t.postorder) :
    left.Legal ∧ (.op op, pos) ∈ t.tokens := by
  induction h with
  | word hw ht => simp at hm
  | prefixed ho hx ih =>
    obtain ⟨legal, htokens⟩ := ih (by simpa using hm)
    exact ⟨legal, by simp [htokens]⟩
  | postfixed ho hx ih =>
    obtain ⟨legal, htokens⟩ := ih (by simpa using hm)
    exact ⟨legal, by simp [htokens]⟩
  | binary ho hx hy ihx ihy =>
    simp only [postorder, postorder?, List.mem_append, List.mem_singleton] at hm
    rcases hm with (hm | hm) | hm
    · obtain ⟨legal, htokens⟩ := ihx hm
      exact ⟨legal, by simp [htokens]⟩
    · obtain ⟨legal, htokens⟩ := ihy hm
      exact ⟨legal, by simp [htokens]⟩
    · cases hm
      exact ⟨hx, by simp⟩
  | paren hx ih =>
    obtain ⟨legal, htokens⟩ := ih (by simpa using hm)
    exact ⟨legal, by simp [htokens]⟩

/-! ### The tree of a text -/

/-- The tree has the lexemes of the text, grouped by their binding levels. -/
structure Represents (t : Arith) (text : String) : Prop where
  legal : t.Legal
  grouped : t.Grouped
  tokens : scan text = Placed.scanned t.tokens

theorem Represents.unplaced_eq {t u : Arith} {text : String} (ht : t.Represents text)
    (hu : u.Represents text) : t.unplaced = u.unplaced := by
  have hread : ∀ {v : Arith}, v.Represents text → ∃ built, readParts 1 text
      = { built := some built, errors := built.flatMap faults? } ∧
        built.map unplaced? = [some v.unplaced] := by
    intro v hv
    have hsound : SoundParts ([] ++ [some v]) := by
      simpa [SoundParts] using And.intro hv.legal hv.grouped
    exact readParts_of_sound hsound hv.tokens rfl
  obtain ⟨built, hbuilt, htree⟩ := hread ht
  obtain ⟨again, hagain, htree'⟩ := hread hu
  rw [hbuilt] at hagain
  cases hagain
  rw [htree] at htree'
  simpa using htree'

end Arith

/-! ### Texts without any other error -/

theorem scanned_lexemes {l : List Scanned} (h : ∀ c pos, .illegal c pos ∉ l) :
    l = Placed.scanned (Scanned.lexemes l) := by
  induction l with
  | nil => rfl
  | cons e rest ih =>
    have hrest := ih fun c pos hm => h c pos (List.mem_cons_of_mem _ hm)
    cases e with
    | illegal c pos => exact absurd List.mem_cons_self (h c pos)
    | lexeme l pos => exact congrArg (Scanned.lexeme l pos :: ·) hrest

theorem ArithError.diagnostic_notAssignable (op : Token) (target : Arith) (pos : Pos) :
    (notAssignable op target pos).diagnostic
      = { message := "cannot assign with `" ++ op.spelling ++ "' to a non-variable"
          construct := some target.print
          pos := some pos } := rfl

theorem ArithError.render_notAssignable {op : Token} {target : Arith} {pos : Pos}
    (ht : target.print ≠ "") (hp : pos.Valid) :
    (notAssignable op target pos).diagnostic.render
      = "cannot assign with `" ++ op.spelling ++ "' to a non-variable in \x7b" ++ target.print
        ++ "\x7d at " ++ pos.render := by
  have hclause : Diagnostic.clause " in " (some target.print)
      = " in " ++ "\x7b" ++ target.print ++ "\x7d" := by
    rw [Diagnostic.clause, if_neg ht]
  have hcontext : Diagnostic.clause " in context " none = "" := rfl
  have hplace : Diagnostic.place (some pos) = " at " ++ pos.render := by
    rw [Diagnostic.place, if_pos hp]
  have hbefore : "' to a non-variable in \x7b" = "' to a non-variable" ++ " in " ++ "\x7b" := by
    decide
  have hbehind : "\x7d at " = "\x7d" ++ " at " := by
    decide
  rw [diagnostic_notAssignable, Diagnostic.render, hclause, hcontext, hplace, hbefore, hbehind]
  simp only [String.append_assoc, String.empty_append]

/-- Everything that stands in a text stands at a valid position. -/
theorem StandsAt.valid {text : List Char} {spelling : String} {pos : Pos}
    (h : StandsAt text spelling pos) : pos.Valid := by
  obtain ⟨before, rest, -, rfl⟩ := h
  simp only [Pos.Valid, Pos.behind]
  omega

/-- A complaint about a node of the tree names its operator, what is on its left, and where in the
text it stands. -/
theorem Arith.Represents.render_complaint {t : Arith} {text : String} (h : t.Represents text)
    {op : Token} {left : Arith} {right : Option Arith} {pos : Pos}
    (hm : .binary op (some left) right pos ∈ t.postorder) :
    StandsAt text.toList op.spelling pos ∧
      (ArithError.notAssignable op left pos).diagnostic.render
        = "cannot assign with `" ++ op.spelling ++ "' to a non-variable in \x7b" ++ left.print
          ++ "\x7d at " ++ pos.render := by
  obtain ⟨legal, htokens⟩ := h.legal.of_mem_postorder hm
  have hscan : .lexeme (.op op) pos ∈ scan text := by
    rw [h.tokens]
    exact List.mem_map.mpr ⟨_, htokens, rfl⟩
  have hstands : StandsAt text.toList op.spelling pos := by
    simpa only [Scanned.spelling, Scanned.pos, Lexeme.spelling, Lexeme.value]
      using standsAt_of_scan _ hscan
  refine ⟨hstands, ArithError.render_notAssignable ?_ hstands.valid⟩
  obtain ⟨c, more, hprint, -⟩ := Arith.print_head legal
  intro hempty
  rw [hempty] at hprint
  cases hprint

/-- A text without illegal characters and syntax errors is blank, or it is built into the tree that
the binding levels give, and its errors are one for each assignment in this tree to something other
than a variable, in postorder; the tree is kept if there is none. -/
theorem parse_assignments {text : String} (hillegal : ∀ c pos, .illegal c pos ∉ scan text)
    (hshape : ∀ e ∈ (Arith.parse text).errors, e.isSyntax = false) :
    ((∀ c ∈ text.toList, c ∈ [' ', '\t', '\n']) →
      Arith.parse text = { built := none, errors := [] }) ∧
    ((∃ c ∈ text.toList, c ∉ [' ', '\t', '\n']) →
      ((Arith.parse text).tree = none ↔ (Arith.parse text).errors ≠ []) ∧
      ∃ t, (Arith.parse text).built = some t ∧ t.Represents text ∧
        (∀ u : Arith, u.Represents text → u.unplaced = t.unplaced) ∧
        (Arith.parse text).errors = t.postorder.filterMap Arith.complaint? ∧
        ∀ e ∈ (Arith.parse text).errors, ∃ op left right pos,
          .binary op (some left) right pos ∈ t.postorder ∧ e = .notAssignable op left pos ∧
          StandsAt text.toList op.spelling pos ∧
          e.diagnostic.render
            = "cannot assign with `" ++ op.spelling ++ "' to a non-variable in \x7b" ++ left.print
              ++ "\x7d at " ++ pos.render) := by
  have hfault : Outline.fault? {} (Scanned.lexemes (scan text)) = none := by
    have hfind : (Arith.parse text).errors.find? ArithError.isSyntax
        = Outline.fault? {} (Scanned.lexemes (scan text)) :=
      find_isSyntax_reading rfl rfl (by simp)
    rw [← hfind, List.find?_eq_none]
    simpa using hshape
  have hscan := scanned_lexemes hillegal
  constructor
  · intro hblank
    have hnil : scan text = [] := scanFrom_eq_nil_iff.mpr hblank
    rw [Arith.parse, readParts, hnil]
    rfl
  · rintro ⟨c, hc, hvisible⟩
    have hne : Scanned.lexemes (scan text) ≠ [] := by
      intro hnil
      rw [hnil] at hscan
      exact hvisible (scanFrom_eq_nil_iff.mp hscan c hc)
    obtain ⟨t, hparse, legal, grouped, htokens⟩ := Arith.built_of_fault?_eq_none hscan hne hfault
    have ht : t.Represents text := ⟨legal, grouped, by rw [htokens]; exact hscan⟩
    rw [hparse]
    refine ⟨by simp [Reading.tree], t, rfl, ht, fun u hu => hu.unplaced_eq ht,
      t.faults_eq_filterMap, ?_⟩
    intro e he
    rw [Arith.faults_eq_filterMap] at he
    obtain ⟨node, hnode, he⟩ := List.mem_filterMap.mp he
    obtain ⟨op, left, right, pos, rfl, rfl⟩ := Arith.exists_of_complaint? he
    obtain ⟨hstands, hrender⟩ := ht.render_complaint hnode
    exact ⟨op, left, right, pos, hnode, rfl, hstands, hrender⟩

/-- Assignments group from the right, so the one that stands first is told last. -/
theorem parse_assignments_nested : ∃ t, (Arith.parse "1 = (2 += x) = 3").built = some t ∧
    t.Represents "1 = (2 += x) = 3" ∧ (Arith.parse "1 = (2 += x) = 3").tree = none ∧
    (Arith.parse "1 = (2 += x) = 3").errors = t.postorder.filterMap Arith.complaint? ∧
    (Arith.parse "1 = (2 += x) = 3").errors.map (fun e => e.diagnostic.render)
      = ["cannot assign with `+=' to a non-variable in \x7b2\x7d at 1:8",
        "cannot assign with `=' to a non-variable in \x7b(2 += x)\x7d at 1:14",
        "cannot assign with `=' to a non-variable in \x7b1\x7d at 1:3"] := by
  have lexemes : scan "1 = (2 += x) = 3" = Placed.scanned
      [(.number "1", ⟨1, 1, 0⟩), (.op .equal, ⟨1, 3, 2⟩), (.op .leftParen, ⟨1, 5, 4⟩),
       (.number "2", ⟨1, 6, 5⟩), (.op .plusEqual, ⟨1, 8, 7⟩), (.name "x", ⟨1, 11, 10⟩),
       (.op .rightParen, ⟨1, 12, 11⟩), (.op .equal, ⟨1, 14, 13⟩), (.number "3", ⟨1, 16, 15⟩)] := by
    decide +kernel
  let one : Arith := .word (.ofLit "1" ⟨1, 1, 0⟩)
  let two : Arith := .word (.ofLit "2" ⟨1, 6, 5⟩)
  let sum : Arith := .binary .plusEqual (some two) (some (.word (.ofLit "x" ⟨1, 11, 10⟩))) ⟨1, 8, 7⟩
  let inner : Arith := .paren (some sum) ⟨1, 5, 4⟩ ⟨1, 12, 11⟩
  have errors : (Arith.parse "1 = (2 += x) = 3").errors
      = [.notAssignable .plusEqual two ⟨1, 8, 7⟩, .notAssignable .equal inner ⟨1, 14, 13⟩,
        .notAssignable .equal one ⟨1, 3, 2⟩] := by
    rw [Arith.parse, readParts, lexemes]
    rfl
  have hillegal : ∀ c pos, .illegal c pos ∉ scan "1 = (2 += x) = 3" := by
    simp [lexemes, Placed.scanned]
  have hshape : ∀ e ∈ (Arith.parse "1 = (2 += x) = 3").errors, e.isSyntax = false := by
    simp [errors, ArithError.isSyntax]
  obtain ⟨htree, t, hbuilt, ht, -, hcomplaints, -⟩ :=
    (parse_assignments hillegal hshape).2 ⟨'1', by decide, by decide⟩
  refine ⟨t, hbuilt, ht, htree.mpr (by simp [errors]), hcomplaints, ?_⟩
  rw [errors]
  decide +kernel

/-- A blank text has no tree either, and nothing is wrong with it. -/
theorem tree_of_blank : (∀ c pos, .illegal c pos ∉ scan "") ∧
    (∀ e ∈ (Arith.parse "").errors, e.isSyntax = false) ∧
    ¬((Arith.parse "").tree = none ↔ (Arith.parse "").errors ≠ []) := by
  have hscan : scan "" = [] := by
    decide +kernel
  have hparse : Arith.parse "" = { built := none, errors := [] } := by
    rw [Arith.parse, readParts, hscan]
    rfl
  simp [hscan, hparse, Reading.tree]

end ShellSyntax
