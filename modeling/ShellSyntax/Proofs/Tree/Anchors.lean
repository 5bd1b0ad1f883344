import ShellSyntax.Proofs.Tree.Breaches

/-!
# Where a violation is reported

A violation is reported where its node stands. A node that stores no position of its own stands
where its first part does, and nowhere if that part is what is missing.

* `Node.Positioned`: the trees in which every stored position is valid; `Node.Unanchored`: the nodes
  with a violation that stand nowhere;
* `exists_stored_faultPos`: any other node with a violation stands at a position stored in it;
* `positioned_unless_unanchored`: so in a positioned tree exactly the errors of unanchored nodes say
  nothing about their place.
-/

namespace ShellSyntax

theorem Kind.name_ne_empty (k : Kind) : k.name ≠ "" := by
  cases k <;> decide

namespace Node

/-- The positions that the node itself stores. -/
def positions (n : Node) : List Pos := n.fields.filterMap FieldValue.pos?

/-- Every position that is stored in the tree is valid. -/
def Positioned (n : Node) : Prop := ∀ m ∈ n.stored, ∀ p ∈ m.positions, p.Valid

theorem positioned_iff_walk {n : Node} :
    (∀ m ∈ n.walk, ∀ p ∈ m.positions, p.Valid) ↔ n.Positioned := by
  simp only [Positioned, mem_stored_iff]

instance (n : Node) : Decidable n.Positioned := decidable_of_iff _ positioned_iff_walk

/-- The node may break a rule, stores no position, and lacks the part where it would stand. -/
def Unanchored : Node → Prop
  | .caseItem i => i.patterns = []
  | .expansion e => e.word.parts = []
  | .assign a => a.name = none ∧ a.value.parts = []
  | _ => False

instance : (n : Node) → Decidable n.Unanchored
  | .caseItem i => inferInstanceAs (Decidable (i.patterns = []))
  | .expansion e => inferInstanceAs (Decidable (e.word.parts = []))
  | .assign a => inferInstanceAs (Decidable (a.name = none ∧ a.value.parts = []))
  | .part _ | .index _ | .replace _ | .arith _ | .redirect _ | .stmt _ | .command _ | .cond _
  | .elif _ | .forHead _ | .file _ => inferInstanceAs (Decidable False)

/-- The position is stored in the node or below. -/
def Stores (n : Node) (p : Pos) : Prop := ∃ m ∈ n.stored, p ∈ m.positions

theorem Stores.of_mem_positions {n : Node} {p : Pos} (h : p ∈ n.positions) : n.Stores p :=
  ⟨n, n.mem_stored_self, h⟩

theorem Stores.of_child {n c : Node} {p : Pos} (hc : c ∈ n.children) (h : c.Stores p) :
    n.Stores p := by
  obtain ⟨m, hm, hp⟩ := h
  exact ⟨m, mem_stored_trans (mem_stored_of_mem_children hc) hm, hp⟩

/-- A position that is stored somewhere in a positioned tree is valid. -/
theorem Positioned.valid {n m : Node} {p : Pos} (h : n.Positioned) (hm : m ∈ n.walk)
    (hp : m.Stores p) : p.Valid := by
  obtain ⟨k, hk, hp⟩ := hp
  exact h k (mem_stored_trans (mem_stored_iff.mpr hm) hk) p hp

end Node

/-! ### Where a node with a violation stands -/

theorem Lit.stores_pos (l : Lit) : (Node.lit l).Stores l.pos :=
  .of_mem_positions (by simp [Node.positions, Node.fields, Part.fields])

theorem Part.stores_pos (p : Part) : (Node.part p).Stores p.pos := by
  apply Node.Stores.of_mem_positions
  cases p <;> simp [Node.positions, Node.fields, Part.fields, pos]

/-- A word stands at its first part. -/
theorem Word.stores_pos {w : Word} (h : w.parts ≠ []) : (Node.word w).Stores w.pos := by
  obtain ⟨_ | ⟨p, rest⟩⟩ := w
  · exact absurd rfl h
  · exact .of_child (by simp [Node.children, Arith.children]) p.stores_pos

/-- A word without parts stands nowhere. -/
theorem Word.pos_of_no_parts {w : Word} (h : w.parts = []) : w.pos = {} := by
  simp [pos, h]

theorem Assign.stores_pos {a : Assign} (h : ¬(Node.assign a).Unanchored) :
    (Node.assign a).Stores a.pos := by
  obtain ⟨value, _ | name, append⟩ := a
  · exact .of_child (by simp [Node.children]) (Word.stores_pos fun hparts => h ⟨rfl, hparts⟩)
  · exact .of_child (by simp [Node.children]) name.stores_pos

theorem Redirect.stores_anchor (r : Redirect) : (Node.redirect r).Stores r.anchor := by
  obtain ⟨op, word, _ | descriptor, pos⟩ := r
  · exact .of_mem_positions (by simp [Node.positions, Node.fields, anchor])
  · exact .of_child (by simp [Node.children]) descriptor.stores_pos

namespace Node

theorem faultPos_of_unanchored {n : Node} (h : n.Unanchored) : n.faultPos = {} := by
  cases n with
  | caseItem i =>
    have hpatterns : i.patterns = [] := h
    simp [faultPos, pos, CaseItem.pos, Word.firstPos, hpatterns]
  | expansion e => exact Word.pos_of_no_parts h
  | assign a =>
    obtain ⟨hname, hvalue⟩ := h
    simp [faultPos, pos, Assign.pos, hname, Word.pos_of_no_parts hvalue]
  | _ => exact h.elim

/-- A node with a violation stands at a position stored in it, if it has the part where it would
stand. -/
theorem exists_stored_faultPos {n : Node} {v : Violation} (hv : v ∈ n.violations)
    (h : ¬n.Unanchored) : n.Stores n.faultPos := by
  -- Some kinds stand where a child does; what else breaks rules has a position of its own.
  cases n with
  | part p => exact p.stores_pos
  | assign a => exact Assign.stores_pos h
  | redirect r => exact r.stores_anchor
  | expansion e => exact .of_child (by simp [children]) (Word.stores_pos h)
  | stmt s => exact .of_mem_positions (by simp [positions, fields, faultPos, pos])
  | arith a =>
    cases a with
    | unary | binary =>
      exact .of_mem_positions (by simp [positions, fields, Arith.fields, faultPos, pos, Arith.pos])
    | word | paren => simp [violations, Arith.violations] at hv
  | command c =>
    cases c with
    | caseClause | function =>
      exact .of_mem_positions
        (by simp [positions, fields, Command.fields, faultPos, pos, Command.pos])
    | _ => simp [violations, Command.violations] at hv
  | forHead head =>
    cases head with
    | words name items => exact .of_child (by simp [children, ForHead.children]) name.stores_pos
    | count loop => simp [violations] at hv
  | caseItem i => simp [violations, Violation.when, show i.patterns ≠ [] from h] at hv
  | index | replace | cond | elif | file => simp [violations] at hv

/-- A pattern list is told of only for the part where it would stand. -/
theorem unanchored_of_patterns {n : Node} {v : Violation} (hv : v ∈ n.violations)
    (hrule : v.rule = .patterns) : n.Unanchored := by
  have hbroken := brokenBy_of_mem_violations hv
  rw [hrule] at hbroken
  cases n with
  | caseItem i => exact hbroken
  | _ => exact hbroken.elim

theorem rule_of_unanchored {n : Node} {v : Violation} (hv : v ∈ n.violations)
    (h : n.Unanchored) : v.rule ∈ [.patterns, .expansionOp, .appendName] := by
  have hbroken := brokenBy_of_mem_violations hv
  generalize v.rule = rule at hbroken ⊢
  cases n with
  | caseItem i => cases rule <;> first | decide | exact hbroken.elim
  | expansion e => cases rule <;> first | decide | exact hbroken.elim
  | assign a =>
    cases rule with
    | appendName => decide
    | identifier =>
      obtain ⟨name, hname, -⟩ := hbroken
      rw [h.1] at hname
      cases hname
    | _ => exact hbroken.elim
  | _ => exact h.elim

/-! ### What is said of the place -/

theorem Positioned.faultPos_valid_iff {n m : Node} {v : Violation} (h : n.Positioned)
    (hm : m ∈ n.walk) (hv : v ∈ m.violations) : m.faultPos.Valid ↔ ¬m.Unanchored := by
  constructor
  · intro hvalid hunanchored
    rw [faultPos_of_unanchored hunanchored] at hvalid
    exact absurd hvalid (by decide)
  · intro hanchored
    exact h.valid hm (exists_stored_faultPos hv hanchored)

theorem render_diagnosis (n : Node) (v : Violation) : (n.diagnosis v).render
    = v.message ++ " in \x7b" ++ n.kind.name ++ "\x7d"
      ++ if n.faultPos.Valid then " at " ++ n.faultPos.render else "" := by
  simp [diagnosis, Diagnostic.render, Diagnostic.clause, Diagnostic.place, n.kind.name_ne_empty,
    String.append_assoc]

theorem mem_findings_iff {n : Node} {d : Diagnostic} :
    d ∈ n.findings ↔ ∃ m v, (m, v) ∈ n.told ∧ m.diagnosis v = d := by
  rw [findings_eq, List.mem_map]
  exact Prod.exists

end Node

/-- In a tree in which every stored position is valid, an error says where its node stands, which is
at a position stored in the node, unless that is a pattern list without patterns, an operator
without a word, or an assignment with neither name nor value. A pattern list has no other errors. -/
theorem positioned_unless_unanchored (n : Node) (r : Reporter) (h : n.Positioned) :
    ((n.check r).reporter.backlog = r.backlog ++ n.told.map fun (m, v) =>
      r.tagged (v.message ++ " in \x7b" ++ m.kind.name ++ "\x7d"
        ++ if m.Unanchored then "" else " at " ++ m.faultPos.render)) ∧
    (∀ m v, (m, v) ∈ n.told →
      (m.faultPos.Valid ↔ ¬m.Unanchored) ∧
      (¬m.Unanchored → m.Stores m.faultPos) ∧
      (m.Unanchored → v.rule ∈ [.patterns, .expansionOp, .appendName]) ∧
      (v.rule = .patterns → m.Unanchored)) ∧
    ((∀ d ∈ n.findings, ∃ p, d.pos = some p ∧ p.Valid) ↔
      ∀ m v, (m, v) ∈ n.told → ¬m.Unanchored) := by
  have hvalid : ∀ m v, (m, v) ∈ n.told → (m.faultPos.Valid ↔ ¬m.Unanchored) := by
    intro m v htold
    obtain ⟨hm, hv⟩ := Node.mem_told_iff.mp htold
    exact h.faultPos_valid_iff hm hv
  refine ⟨?_, ?_, ?_⟩
  · rw [n.backlog_check r, List.append_cancel_left_eq]
    refine List.map_congr_left fun (m, v) htold => ?_
    simp only [m.render_diagnosis v, hvalid m v htold, ite_not]
  · intro m v htold
    obtain ⟨-, hv⟩ := Node.mem_told_iff.mp htold
    exact ⟨hvalid m v htold, Node.exists_stored_faultPos hv, Node.rule_of_unanchored hv,
      Node.unanchored_of_patterns hv⟩
  · constructor
    · intro hall m v htold
      obtain ⟨p, hp, hpvalid⟩ := hall _ (Node.mem_findings_iff.mpr ⟨m, v, htold, rfl⟩)
      cases hp
      exact (hvalid m v htold).mp hpvalid
    · intro hnone d hd
      obtain ⟨m, v, htold, rfl⟩ := Node.mem_findings_iff.mp hd
      exact ⟨m.faultPos, rfl, (hvalid m v htold).mpr (hnone m v htold)⟩

/-- Of a case clause with neither word nor patterns, one error says where it is and one does not. -/
theorem positioned_unless_unanchored_case : ∃ n m : Node,
    n.Positioned ∧ m ∈ n.walk ∧ m.violations ≠ [] ∧ m.faultPos.Valid ∧ m.Stores m.faultPos ∧
    (n.check {}).reporter.backlog
      = ["\x7bNone\x7d \t| case statement without a word in \x7bCaseStmt\x7d at 1:1",
         "\x7bNone\x7d \t| case pattern list without patterns in \x7bPatternList\x7d"] ∧
    ¬∀ d ∈ n.findings, ∃ p, d.pos = some p ∧ p.Valid := by
  let item : CaseItem := ⟨[], []⟩
  let n : Node := .command (.caseClause {} [item] ⟨1, 1, 0⟩ ⟨1, 11, 10⟩)
  have positioned : n.Positioned := by
    decide +kernel
  have root : n ∈ n.walk := Node.mem_stored_iff.mp n.mem_stored_self
  have inside : Node.caseItem item ∈ n.walk :=
    Node.mem_stored_iff.mp
      (Node.mem_stored_of_mem_children (by simp [n, Node.children, Command.children]))
  have wordless : .noCaseWord ∈ n.violations := by
    decide
  have patternless : .noPatterns ∈ (Node.caseItem item).violations := by
    decide
  obtain ⟨-, places, all⟩ := positioned_unless_unanchored n {} positioned
  obtain ⟨valid, stores, -⟩ := places n _ (Node.mem_told_iff.mpr ⟨root, wordless⟩)
  exact ⟨n, n, positioned, root, List.ne_nil_of_mem wordless, valid.mpr id, stores id,
    by decide +kernel,
    fun h => all.mp h _ _ (Node.mem_told_iff.mpr ⟨inside, patternless⟩) rfl⟩

/-- The statement of a pattern list without patterns is placed, but its error is not. -/
theorem pattern_list_told_nowhere : ∃ n : Node, n.Positioned ∧
    (∀ d ∈ n.findings, ∀ p ∈ d.pos, ¬p.Valid) ∧
      (n.check {}).reporter.backlog
        = ["\x7bNone\x7d \t| case pattern list without patterns in \x7bPatternList\x7d"] :=
  ⟨.caseItem ⟨[], [{ pos := ⟨2, 3, 9⟩ }]⟩, by decide +kernel, by decide +kernel,
    by decide +kernel⟩

end ShellSyntax
