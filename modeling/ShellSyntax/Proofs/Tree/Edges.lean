import ShellSyntax.Proofs.Tree.Statements

/-!
# Where a text begins and ends

* `beginsIn_append`, `endsIn_append`: the edges of a text are those of its outer parts that are not
  empty;
* `Stmt.join_concat`: a list ends with its last statement and what ends that;
* `Piece.exists_front`: so a row of pieces begins with one of them, behind pieces without text;
* `Shows.trans`, `Shows.parent`, `Shows.mem_walk`: what stands in a node that stands in a tree.
-/

namespace ShellSyntax

section Text

variable {chars : List Char} {c : Char} {s t : String}

theorem beginsIn_iff : beginsIn chars s = true ↔ ∃ c ∈ chars, s.toList.head? = some c := by
  simp only [beginsIn, Option.any_eq_true, decide_eq_true_eq]
  exact exists_congr fun c => and_comm

theorem begins_of_subset {chars' : List Char} (h : beginsIn chars s = true)
    (hsub : chars ⊆ chars') : beginsIn chars' s = true := by
  obtain ⟨c, hc, hhead⟩ := beginsIn_iff.mp h
  exact beginsIn_iff.mpr ⟨c, hsub hc, hhead⟩

theorem endsIn_iff : endsIn chars s = true ↔ ∃ c ∈ chars, s.toList.getLast? = some c := by
  simp only [endsIn, Option.any_eq_true, decide_eq_true_eq]
  exact exists_congr fun c => and_comm

theorem beginsIn_append :
    beginsIn chars (s ++ t) = if s = "" then beginsIn chars t else beginsIn chars s := by
  split
  · simp_all
  · rename_i h
    rw [beginsIn, String.toList_append, List.head?_append]
    cases hs : s.toList with
    | nil => exact absurd (String.toList_eq_nil_iff.mp hs) h
    | cons c l => simp [beginsIn, hs]

theorem endsIn_append :
    endsIn chars (s ++ t) = if t = "" then endsIn chars s else endsIn chars t := by
  split
  · simp_all
  · rename_i h
    rw [endsIn, String.toList_append, List.getLast?_append]
    cases ht : t.toList.getLast? with
    | none => exact absurd (String.toList_eq_nil_iff.mp (List.getLast?_eq_none_iff.mp ht)) h
    | some c => simp [endsIn, ht]

/-- A text that begins with a fixed one begins with its first character. -/
theorem beginsIn_fixed (h : s ≠ "") : beginsIn chars (s ++ t) = beginsIn chars s := by
  rw [beginsIn_append, if_neg h]

theorem begins_append (h : beginsIn chars s = true) (t : String) :
    beginsIn chars (s ++ t) = true := by
  rw [beginsIn_fixed ?_, h]
  rintro rfl
  simp [beginsIn] at h

theorem ends_append (h : endsIn chars t = true) (s : String) : endsIn chars (s ++ t) = true := by
  rw [endsIn_append, if_neg ?_, h]
  rintro rfl
  simp [endsIn] at h

theorem endsIn_fixed (h : t ≠ "") : endsIn chars (s ++ t) = endsIn chars t := by
  rw [endsIn_append, if_neg h]

/-- The first part begins the row, if it has a text. -/
theorem exists_spaced_cons (h : s ≠ "") (l : List String) : ∃ t, spaced (s :: l) = s ++ t := by
  rw [spaced, List.filter_cons_of_pos (by simpa using h)]
  cases l.filter (· ≠ "") with
  | nil => exact ⟨"", by simp⟩
  | cons u rest => exact ⟨_, by rw [String.intercalate_cons_cons, String.append_assoc]⟩

theorem exists_intercalate_concat (separator : String) (l : List String) (s : String) :
    ∃ t, separator.intercalate (l ++ [s]) = t ++ s := by
  induction l with
  | nil => exact ⟨"", by simp⟩
  | cons u rest ih =>
    obtain ⟨t, ht⟩ := ih
    refine ⟨u ++ separator ++ t, ?_⟩
    rw [List.cons_append, String.intercalate_cons_of_ne_nil (by simp), ht, ← String.append_assoc]

/-- The last part ends the row, if it has a text. -/
theorem exists_spaced_concat (h : s ≠ "") (l : List String) : ∃ t, spaced (l ++ [s]) = t ++ s := by
  rw [spaced, List.filter_append, List.filter_cons_of_pos (by simpa using h), List.filter_nil]
  exact exists_intercalate_concat " " _ s

theorem exists_of_beginsIn (h : beginsIn [c] s = true) :
    ∃ rest, s = String.ofList [c] ++ String.ofList rest := by
  obtain ⟨d, hd, hhead⟩ := beginsIn_iff.mp h
  obtain rfl := List.mem_singleton.mp hd
  obtain ⟨rest, hrest⟩ := List.head?_eq_some_iff.mp hhead
  exact ⟨rest, String.toList_inj.mp (by simpa using hrest)⟩

theorem exists_of_endsIn (h : endsIn [c] s = true) : ∃ t, s = t ++ String.ofList [c] := by
  obtain ⟨d, hd, hlast⟩ := endsIn_iff.mp h
  obtain rfl := List.mem_singleton.mp hd
  obtain ⟨front, hfront⟩ := List.getLast?_eq_some_iff.mp hlast
  exact ⟨String.ofList front, String.toList_inj.mp (by simpa using hfront)⟩

theorem mem_of_beginsIn (h : beginsIn [c] s = true) : c ∈ s.toList := by
  obtain ⟨rest, rfl⟩ := exists_of_beginsIn h
  simp

end Text

/-! ### The last statement of a list -/

namespace Stmt

variable {s : Stmt}

@[simp] theorem join_nil (closed : Bool) : join closed [] = "" := rfl

@[simp] theorem lead_nil : lead [] = "" := rfl

theorem join_concat (front : List Stmt) (s : Stmt) :
    join true (front ++ [s]) = lead front ++ s.print ++ s.terminator true := by
  rw [join_append_cons, join_nil, String.append_empty, List.isEmpty_nil]

theorem terminator_of_heredoc (h : s.hasHeredoc = true) (last : Bool) : s.terminator last = "\n" :=
  if_pos h

theorem terminator_of_not_heredoc (h : s.hasHeredoc = false) : s.terminator true = "" := by
  simp [terminator, h]

end Stmt

open Piece

namespace Piece

variable {chars : List Char} {l : List Piece}

/-- The first piece that has a text begins the row. -/
theorem exists_front (h : beginsIn chars (texts l) = true) : ∃ front p back,
    l = front ++ p :: back ∧ texts front = "" ∧ beginsIn chars p.text = true := by
  induction l with
  | nil => simp [beginsIn] at h
  | cons p rest ih =>
    rw [texts_cons, beginsIn_append] at h
    by_cases hp : p.text = ""
    · rw [if_pos hp] at h
      obtain ⟨front, q, back, rfl, hfront, hq⟩ := ih h
      exact ⟨p :: front, q, back, rfl, by simp [hp, hfront], hq⟩
    · rw [if_neg hp] at h
      exact ⟨[], p, rest, rfl, texts_nil, h⟩

/-- What holds of each text that is not that of a child. -/
def Owns (P : String → Prop) (l : List Piece) : Prop := ∀ s, .own s ∈ l → P s

section Owns

variable {P : String → Prop} {m : List Piece}

@[simp] theorem owns_nil : Owns P [] := by simp [Owns]

@[simp] theorem owns_own {s : String} : Owns P (.own s :: l) ↔ P s ∧ Owns P l := by
  simp [Owns, or_imp, forall_and]

@[simp] theorem owns_child {c : Node} : Owns P (.child c :: l) ↔ Owns P l := by simp [Owns]

@[simp] theorem owns_append : Owns P (l ++ m) ↔ Owns P l ∧ Owns P m := by
  simp [Owns, or_imp, forall_and]

@[simp] theorem owns_each (nodes : List Node) : Owns P (each nodes) := by simp [Owns, each]

theorem owns_between {separator : String} (h : P separator) (nodes : List Node) :
    Owns P (between separator nodes) := by
  induction nodes with
  | nil => exact owns_nil
  | cons n rest ih =>
    cases rest with
    | nil => simp [between, each]
    | cons m rest => simpa [between, h] using ih

theorem owns_blanks {behind : Bool} (hnone : P "") (hblank : P " ") (h : Owns P l) :
    Owns P (blanks behind l) := by
  induction l generalizing behind with
  | nil => exact owns_nil
  | cons p rest ih =>
    have hfirst : P (if behind && p.text ≠ "" then " " else "") := by
      split <;> assumption
    cases p with
    | own s => exact owns_own.mpr ⟨hfirst, owns_own.mpr ⟨(owns_own.mp h).1, ih (owns_own.mp h).2⟩⟩
    | child c => exact owns_own.mpr ⟨hfirst, owns_child.mpr (ih (owns_child.mp h))⟩

theorem owns_lines (hlast : P "") (hnext : P "; ") (hbreak : P "\n") (stmts : List Stmt) :
    Owns P (lines stmts) := by
  induction stmts with
  | nil => exact owns_nil
  | cons s rest ih =>
    rw [lines, owns_child, owns_own]
    refine ⟨?_, ih⟩
    unfold Stmt.terminator
    split
    · exact hbreak
    · split <;> assumption

end Owns

/-- The statements in front of another one, each with what ends it. -/
def leading (stmts : List Stmt) : List Piece :=
  stmts.flatMap fun s => [.child (.stmt s), .own (s.terminator false)]

@[simp] theorem texts_leading (stmts : List Stmt) : texts (leading stmts) = Stmt.lead stmts := by
  induction stmts with
  | nil => simp [leading, Stmt.lead]
  | cons s rest ih => simp_all [leading, Stmt.lead, Node.print, String.append_assoc]

theorem lines_append_cons (front back : List Stmt) (s : Stmt) : lines (front ++ s :: back)
    = leading front ++ .child (.stmt s) :: .own (s.terminator back.isEmpty) :: lines back := by
  induction front with
  | nil => rfl
  | cons t front ih =>
    have hmore : (front ++ s :: back).isEmpty = false := by
      simp
    rw [List.cons_append, lines, ih, hmore]
    rfl

end Piece

namespace Node

variable {n m k : Node} {before after before' after' : String}

theorem Shows.trans (h : n.Shows m before after) (h' : m.Shows k before' after') :
    n.Shows k (before ++ before') (after' ++ after) := by
  induction h with
  | self n => simpa using h'
  | @child n c m front back before after hpieces _ ih =>
    simpa only [String.append_assoc] using Shows.child hpieces (ih h')

theorem Shows.of_pieces {front back : List Piece} (h : n.pieces = front ++ .child m :: back) :
    n.Shows m (texts front) (texts back) := by
  simpa using Shows.child h (.self m)

/-- A node stands in its parent, unless it is the root. -/
theorem Shows.parent (h : n.Shows m before after) : (n = m ∧ before = "" ∧ after = "") ∨
    ∃ p front back outer outer', n.Shows p outer outer' ∧ p.pieces = front ++ .child m :: back ∧
      before = outer ++ texts front ∧ after = texts back ++ outer' := by
  induction h with
  | self n => exact .inl ⟨rfl, rfl, rfl⟩
  | @child n c m front back before after hpieces _ ih =>
    right
    rcases ih with ⟨rfl, rfl, rfl⟩ | ⟨p, front', back', outer, outer', hshows, hp, rfl, rfl⟩
    · exact ⟨n, front, back, "", "", .self n, hpieces, by simp, by simp⟩
    · exact ⟨p, front', back', _, _, .child hpieces hshows, hp, by rw [String.append_assoc],
        by rw [String.append_assoc]⟩

theorem nodes_subset_children (n : Node) : nodes n.pieces ⊆ n.children := by
  by_cases h : n.ShownWhole
  · rw [n.nodes_pieces h]
    exact List.Subset.refl _
  · cases n with
    | part p =>
      cases p with
      | param e =>
        obtain ⟨param, short, length, index, replace, operation, dollar⟩ := e
        cases short with
        | true => simp [pieces, Part.pieces, children, Part.children]
        | false => exact absurd (fun hshort => absurd hshort Bool.false_ne_true) h
      | _ => exact absurd trivial h
    | _ => exact absurd trivial h

theorem mem_children_of_pieces {front back : List Piece}
    (h : n.pieces = front ++ .child m :: back) : m ∈ n.children := by
  apply n.nodes_subset_children
  rw [h]
  simp

theorem Shows.mem_walk (h : n.Shows m before after) : m ∈ n.walk := by
  induction h with
  | self n =>
    rw [walk_eq]
    exact List.mem_cons_self
  | @child n c m front back before after hpieces _ ih =>
    rw [walk_eq]
    exact List.mem_cons_of_mem _
      (List.mem_flatMap.mpr ⟨c, mem_children_of_pieces hpieces, ih⟩)

/-- A statement of a list stands in the text between those in front of it and its terminator. -/
theorem Lists.shows_stmt {front back : List Stmt} {s : Stmt}
    (h : n.Lists (front ++ s :: back) before after) :
    n.Shows (.stmt s) (before ++ Stmt.lead front)
      (s.terminator back.isEmpty ++ Stmt.join true back ++ after) := by
  generalize hstmts : front ++ s :: back = stmts at h
  obtain ⟨hshows, hslot⟩ := h
  have hpieces := pieces_of_mem_slots hslot
  rw [Slot.pieces, ← hstmts, lines_append_cons, ← List.append_assoc, List.append_assoc,
    List.cons_append] at hpieces
  simpa [String.append_assoc] using hshows.trans (.of_pieces hpieces)

theorem Lists.mem_walk {stmts : List Stmt} {s : Stmt} (h : n.Lists stmts before after)
    (hs : s ∈ stmts) : .stmt s ∈ n.walk := by
  obtain ⟨front, back, rfl⟩ := List.append_of_mem hs
  exact h.shows_stmt.mem_walk

end Node

end ShellSyntax
