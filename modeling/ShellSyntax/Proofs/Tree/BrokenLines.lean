import ShellSyntax.Proofs.Tree.LineBreaks
import ShellSyntax.Proofs.Tree.Parentheses
import ShellSyntax.Proofs.Tree.Followers

/-!
# Where lines break

* `exists_list_of_break`: a line break in a text that comes from no leaf ends a statement with a
  here-document, at its place in a list;
* `semicolon_behind_break`: only a separator of case entries or the end of a case clause puts a
  semicolon behind it;
* `esac_behind_break`: so a here-document at the end of a clause is followed by both.
-/

namespace ShellSyntax

open Piece

/-! ### Line breaks among pieces -/

/-- A line break in two texts stands in one of them. -/
theorem break_in_append {s u a t : String} (h : s ++ u = a ++ ("\n" ++ t)) :
    (∃ t', s = a ++ ("\n" ++ t') ∧ t = t' ++ u) ∨ ∃ a', a = s ++ a' ∧ u = a' ++ ("\n" ++ t) := by
  have hlist : s.toList ++ u.toList = a.toList ++ '\n' :: t.toList := by
    simpa using congrArg String.toList h
  rcases List.append_eq_append_iff.mp hlist with ⟨l, ha, hu⟩ | ⟨l, hs, ht⟩
  · refine .inr ⟨String.ofList l, ?_, ?_⟩ <;> apply String.toList_inj.mp <;> simpa
  · cases l with
    | nil =>
      refine .inr ⟨"", ?_, ?_⟩ <;> apply String.toList_inj.mp <;> simp_all
    | cons c l =>
      obtain ⟨rfl, ht⟩ := List.cons.inj ht
      refine .inl ⟨String.ofList l, ?_, ?_⟩ <;> apply String.toList_inj.mp <;> simpa

theorem Stmt.hasHeredoc_of_terminator {x : Stmt} {last : Bool}
    (h : lineBreaks (x.terminator last) ≠ 0) : x.hasHeredoc = true := by
  cases hx : x.hasHeredoc with
  | true => rfl
  | false =>
    refine absurd ?_ h
    rw [Stmt.terminator, hx, if_neg Bool.false_ne_true]
    split <;> rfl

namespace Piece

variable {l m front back : List Piece} {stmts : List Stmt} {a t s : String}

theorem exists_piece_of_break (h : texts l = a ++ ("\n" ++ t)) : ∃ front p back a' t',
    l = front ++ p :: back ∧ p.text = a' ++ ("\n" ++ t') ∧ a = texts front ++ a' ∧
      t = t' ++ texts back := by
  induction l generalizing a with
  | nil =>
    have hlist := congrArg String.toList h
    simp at hlist
  | cons p rest ih =>
    rw [texts_cons] at h
    rcases break_in_append h with ⟨t', hp, rfl⟩ | ⟨a', rfl, hrest⟩
    · exact ⟨[], p, rest, a, t', rfl, hp, by simp, rfl⟩
    · obtain ⟨front, q, back, a'', t', rfl, hq, rfl, rfl⟩ := ih hrest
      exact ⟨p :: front, q, back, a'', t', rfl, hq, by simp [String.append_assoc], rfl⟩

theorem split_of_not_mem {p : Piece} (hp : p ∉ l) (h : l ++ m = front ++ p :: back) :
    ∃ front', front = l ++ front' ∧ m = front' ++ p :: back := by
  rcases List.append_eq_append_iff.mp h with ⟨front', hfront, hm⟩ | ⟨rest, rfl, hrest⟩
  · exact ⟨front', hfront, hm⟩
  · cases rest with
    | nil => exact ⟨[], by simp, by simpa using hrest.symm⟩
    | cons q rest =>
      obtain ⟨rfl, -⟩ := List.cons.inj hrest
      exact absurd (by simp) hp

/-- A text with a line break is none of the pieces that have none themselves. -/
theorem not_mem_of_ownBreaks (hl : ownBreaks l = 0) (hs : lineBreaks s ≠ 0) : .own s ∉ l := by
  intro hmem
  obtain ⟨front, back, rfl⟩ := List.append_of_mem hmem
  rw [ownBreaks_append, ownBreaks_own] at hl
  omega

theorem ne_of_ownBreaks (hl : ownBreaks l = 0) (hs : lineBreaks s ≠ 0) :
    l ≠ front ++ .own s :: back := by
  rintro rfl
  exact not_mem_of_ownBreaks hl hs (by simp)

theorem split_of_ownBreaks (hl : ownBreaks l = 0) (hs : lineBreaks s ≠ 0)
    (h : l ++ m = front ++ .own s :: back) :
    ∃ front', front = l ++ front' ∧ m = front' ++ .own s :: back :=
  split_of_not_mem (not_mem_of_ownBreaks hl hs) h

/-- In the pieces of a list it ends a statement with a here-document. -/
theorem split_lines (hs : lineBreaks s ≠ 0) (h : lines stmts ++ m = front ++ .own s :: back) :
    (∃ lead x rest, stmts = lead ++ x :: rest ∧ x.hasHeredoc = true ∧ s = "\n" ∧
      front = leading lead ++ [.child (.stmt x)] ∧ back = lines rest ++ m) ∨
    ∃ front', front = lines stmts ++ front' ∧ m = front' ++ .own s :: back := by
  induction stmts generalizing front with
  | nil => exact .inr ⟨front, rfl, h⟩
  | cons x rest ih =>
    rcases List.cons_eq_append_iff.mp h with ⟨-, hchild⟩ | ⟨behind, rfl, hbehind⟩
    · cases hchild
    · rcases List.cons_eq_append_iff.mp hbehind with ⟨rfl, hown⟩ | ⟨behind, rfl, hrest⟩
      · obtain ⟨hterminator, rfl⟩ := List.cons.inj hown
        obtain rfl := Piece.own.inj hterminator
        have hx := Stmt.hasHeredoc_of_terminator hs
        exact .inl ⟨[], x, rest, rfl, hx, x.terminator_of_heredoc hx _, rfl, rfl⟩
      · rcases ih hrest with ⟨lead, y, rest, rfl, hy, rfl, rfl, rfl⟩ | ⟨behind, rfl, hm⟩
        · have hmore : (lead ++ y :: rest).isEmpty = false := by
            simp
          refine .inl ⟨x :: lead, y, rest, rfl, hy, rfl, ?_, rfl⟩
          rw [hmore]
          simp [leading]
        · exact .inr ⟨behind, rfl, hm⟩

end Piece

/-! ### Line breaks in a node -/

/-- The pieces up to the line break that ends a statement of the list, and those behind it. -/
def Slot.BreaksAt (slot : Slot) (front back : List Piece) : Prop :=
  ∃ lead x rest, slot.stmts = lead ++ x :: rest ∧ x.hasHeredoc = true ∧
    front = slot.front ++ (leading lead ++ [.child (.stmt x)]) ∧ back = lines rest ++ slot.back

section Slots

variable {front behind back : List Piece} {stmts : List Stmt} {s : String}

/-- A list that has no line breaks around it has them behind its statements only. -/
theorem Slot.breaksAt_of_quiet {slot : Slot} (hfront : ownBreaks slot.front = 0)
    (hback : ownBreaks slot.back = 0) (hs : lineBreaks s ≠ 0)
    (h : slot.pieces = front ++ .own s :: back) : s = "\n" ∧ slot.BreaksAt front back := by
  rw [Slot.pieces, List.append_assoc] at h
  obtain ⟨front, rfl, hlines⟩ := split_of_ownBreaks hfront hs h
  rcases split_lines hs hlines with ⟨lead, x, rest, hstmts, hx, rfl, rfl, rfl⟩ | ⟨front, -, hrest⟩
  · exact ⟨rfl, lead, x, rest, hstmts, hx, rfl, rfl⟩
  · exact absurd hrest (ne_of_ownBreaks hback hs)

/-- A line break in or behind a list between keywords. -/
theorem Slot.breaksAt_body_or_behind (hs : lineBreaks s ≠ 0)
    (h : Piece.body stmts ++ behind = front ++ .own s :: back) (lead : List Piece) :
    (s = "\n" ∧ (Slot.body lead stmts behind).BreaksAt (lead ++ front) back) ∨
      ∃ front', front = Piece.body stmts ++ front' ∧ behind = front' ++ .own s :: back := by
  cases stmts with
  | nil => exact .inr (split_of_ownBreaks rfl hs h)
  | cons x rest =>
    have hclose (p : Prop) [Decidable p] : ownBreaks [.own (if p then "" else "; ")] = 0 := by
      simp (disch := decide) [lineBreaks_fixed]
    have hbody : [.own " "] ++ (lines (x :: rest)
        ++ ([.own (if endsIn ['\n'] (Stmt.join true (x :: rest)) then "" else "; ")] ++ behind))
          = front ++ .own s :: back := by
      simpa [Piece.body] using h
    obtain ⟨front, rfl, hlines⟩ := split_of_ownBreaks rfl hs hbody
    rcases split_lines hs hlines with ⟨_, y, _, hstmts, hy, rfl, rfl, rfl⟩ | ⟨front, rfl, hrest⟩
    · exact .inl ⟨rfl, _, y, _, hstmts, hy, by simp [Slot.body], rfl⟩
    · obtain ⟨front, rfl, hbehind⟩ := split_of_ownBreaks (hclose _) hs hrest
      exact .inr ⟨front, by simp [Piece.body], hbehind⟩

end Slots

namespace Node

variable {n : Node} {front back : List Piece} {s : String}

/-- The here-documents that end a line in a node are those of its lists. -/
theorem countP_endsLine_eq (n : Node) :
    (n.children.countP fun c => endsLine (n, c)) = n.stmtLists.flatten.countP Stmt.hasHeredoc := by
  rw [countP_endsLine]
  cases n with
  | part p =>
    cases p <;> simp [isFunction, isTest, children, Part.children, stmtLists, hasHeredoc,
      Function.comp_def, Option.toList_map]
  | arith a =>
    cases a <;> simp [isFunction, isTest, children, Arith.children, stmtLists, hasHeredoc,
      Function.comp_def, Option.toList_map]
  | forHead h =>
    cases h <;> simp [isFunction, isTest, children, ForHead.children, stmtLists, hasHeredoc,
      Function.comp_def, Option.toList_map]
  | command k =>
    cases k <;> simp [isFunction, isTest, children, Command.children, stmtLists, hasHeredoc,
      Function.comp_def, Option.toList_map]
  | cond c =>
    cases c <;> simp [isFunction, isTest, children, Cond.children, stmtLists, hasHeredoc,
      Function.comp_def]
  | _ =>
    simp [isFunction, isTest, children, stmtLists, hasHeredoc, Function.comp_def, Option.toList_map]

theorem ownBreaks_eq (hleaf : lineBreaks n.leafText = 0) :
    ownBreaks n.pieces = n.stmtLists.flatten.countP Stmt.hasHeredoc := by
  rw [ownBreaks_pieces, hleaf, countP_endsLine_eq, Nat.zero_add]

/-- A node with one list, or none, has no line breaks around it. -/
theorem breaksAt_of_slots (hleaf : lineBreaks n.leafText = 0) (hslots : n.slots.length ≤ 1)
    (hs : lineBreaks s ≠ 0) (h : n.pieces = front ++ .own s :: back) :
    s = "\n" ∧ ∃ slot ∈ n.slots, slot.BreaksAt front back := by
  have hcount := ownBreaks_eq hleaf
  rw [stmtLists_eq] at hcount
  cases hlist : n.slots with
  | nil =>
    rw [hlist] at hcount
    exact absurd h (ne_of_ownBreaks hcount hs)
  | cons slot rest =>
    obtain rfl : rest = [] := by
      simpa [hlist] using hslots
    have hpieces : n.pieces = slot.pieces := pieces_of_mem_slots (by simp [hlist])
    rw [hlist, hpieces, Slot.pieces] at hcount
    simp only [ownBreaks_append, ownBreaks_lines, List.map_cons, List.map_nil,
      List.flatten_singleton] at hcount
    obtain ⟨rfl, hbreaks⟩ := Slot.breaksAt_of_quiet (by omega) (by omega) hs (hpieces ▸ h)
    exact ⟨rfl, slot, List.mem_singleton_self _, hbreaks⟩

theorem breaksAt_ifClause {test : Option Cond} {thenStmts elseStmts : List Stmt} {elifs : List Elif}
    {ifPos fiPos : Pos} (hs : lineBreaks s ≠ 0)
    (h : (Command.ifClause test thenStmts elifs elseStmts ifPos fiPos).pieces
      = front ++ .own s :: back) : s = "\n" ∧
    ∃ slot ∈ (Node.command (.ifClause test thenStmts elifs elseStmts ifPos fiPos)).slots,
      slot.BreaksAt front back := by
  let lead : List Piece := .own "if" :: condition test ++ [.own "then"]
  have hlead : ownBreaks lead = 0 := by
    simp (disch := decide) [lead, lineBreaks_fixed]
  have hthen : lead ++ (Piece.body thenStmts ++ (each (elifs.map .elif)
      ++ ((if elseStmts.isEmpty then [] else .own "else" :: Piece.body elseStmts) ++ [.own "fi"])))
        = front ++ .own s :: back := by
    simpa [lead, Command.pieces] using h
  obtain ⟨front, rfl, hbody⟩ := split_of_ownBreaks hlead hs hthen
  rcases Slot.breaksAt_body_or_behind hs hbody lead with ⟨rfl, hbreaks⟩ | ⟨front, rfl, hbehind⟩
  · refine ⟨rfl, _, List.mem_cons_self, ?_⟩
    rwa [List.append_assoc]
  · obtain ⟨front, rfl, hlast⟩ := split_of_ownBreaks ownBreaks_each hs hbehind
    cases elseStmts with
    | nil => exact absurd hlast (ne_of_ownBreaks rfl hs)
    | cons x rest =>
      have helse : [.own "else"] ++ (Piece.body (x :: rest) ++ [.own "fi"])
          = front ++ .own s :: back := hlast
      obtain ⟨front, rfl, hinside⟩ := split_of_ownBreaks rfl hs helse
      rcases Slot.breaksAt_body_or_behind hs hinside
          (lead ++ Piece.body thenStmts ++ each (elifs.map .elif) ++ [.own "else"])
        with ⟨rfl, hbreaks⟩ | ⟨front, -, hfi⟩
      · refine ⟨rfl, _, List.mem_cons_of_mem _ List.mem_cons_self, ?_⟩
        simpa [lead] using hbreaks
      · exact absurd hfi (ne_of_ownBreaks rfl hs)

/-- So the line breaks that a node writes itself are those of its lists. -/
theorem exists_slot_of_break (hleaf : lineBreaks n.leafText = 0) (hs : lineBreaks s ≠ 0)
    (h : n.pieces = front ++ .own s :: back) :
    s = "\n" ∧ ∃ slot ∈ n.slots, slot.BreaksAt front back := by
  cases n with
  | command k =>
    cases k with
    | ifClause => exact breaksAt_ifClause hs h
    | _ => exact breaksAt_of_slots hleaf (by simp [slots]) hs h
  | part p =>
    cases p with
    | cmdSubst stmts backquotes left right =>
      cases backquotes <;> exact breaksAt_of_slots hleaf (by simp [slots]) hs h
    | _ => exact breaksAt_of_slots hleaf (by simp [slots]) hs h
  | cond c => cases c <;> exact breaksAt_of_slots hleaf (by simp [slots]) hs h
  | _ => exact breaksAt_of_slots hleaf (by simp [slots]) hs h

/-! ### Line breaks in a tree -/

variable {m : Node} {before after a t : String}

theorem Lists.child {stmts : List Stmt} (hpieces : n.pieces = front ++ .child m :: back)
    (h : m.Lists stmts before after) :
    n.Lists stmts (texts front ++ before) (after ++ texts back) := by
  obtain ⟨hshows, hslot⟩ := h
  simpa only [String.append_assoc] using Lists.intro (.child hpieces hshows) hslot

/-- A line break that comes from no leaf ends a statement with a here-document in a list: by
induction on the tree, since it stands in the text of a child or in one of the node's own. -/
theorem exists_list_of_break (plain : ∀ m ∈ n.walk, '\n' ∉ m.leafText.toList)
    (h : n.print = a ++ ("\n" ++ t)) : ∃ front s back before after,
      n.Lists (front ++ s :: back) before after ∧ s.hasHeredoc = true ∧
      a = before ++ Stmt.lead front ++ s.print ∧ t = Stmt.join true back ++ after := by
  induction n using children_induction generalizing a t with
  | h n ih =>
    obtain ⟨hself, hbelow⟩ := forall_mem_walk_iff.mp plain
    rw [← texts_pieces] at h
    obtain ⟨front, p, back, a', t', hpieces, hp, rfl, rfl⟩ := exists_piece_of_break h
    cases p with
    | own s =>
      have hs : lineBreaks s ≠ 0 := by
        obtain rfl : s = a' ++ ("\n" ++ t') := hp
        simp [lineBreaks]
      have hleaf : lineBreaks n.leafText = 0 := List.count_eq_zero.mpr hself
      obtain ⟨rfl, slot, hslot, lead, x, rest, hstmts, hx, rfl, rfl⟩ :=
        exists_slot_of_break hleaf hs hpieces
      -- The texts around a break that is all of a piece are those of the other pieces.
      obtain ⟨rfl, rfl⟩ : a' = "" ∧ t' = "" := by
        simpa [List.cons_eq_append_iff] using congrArg String.toList hp
      have hlists := Lists.intro (.self n) hslot
      rw [hstmts] at hlists
      exact ⟨lead, x, rest, _, _, hlists, hx, by simp [Node.print, String.append_assoc], by simp⟩
    | child c =>
      have hc := mem_children_of_pieces hpieces
      obtain ⟨lead, x, rest, before, after, hlists, hx, rfl, rfl⟩ := ih c hc (hbelow c hc) hp
      exact ⟨lead, x, rest, _, _, hlists.child hpieces, hx, by simp only [String.append_assoc],
        by simp only [String.append_assoc]⟩

end Node

/-! ### Case clauses -/

/-- The last entry of the case clause ends with a here-document. -/
def Command.endsInHeredoc : Command → Bool
  | .caseClause _ items _ _ => items.getLast?.any fun i => i.stmts.getLast?.any Stmt.hasHeredoc
  | _ => false

theorem exists_concat_of_getLast {α : Type} {l : List α} {p : α → Bool}
    (h : l.getLast?.any p = true) : ∃ init x, l = init ++ [x] ∧ p x = true := by
  obtain ⟨x, hx, hp⟩ := (Option.any_eq_true _ _).mp h
  obtain ⟨init, rfl⟩ := List.getLast?_eq_some_iff.mp hx
  exact ⟨init, x, rfl, hp⟩

theorem CaseItem.print_heredoc {i : CaseItem} {front : List Stmt} {s : Stmt}
    (hstmts : i.stmts = front ++ [s]) (hs : s.hasHeredoc = true) :
    ∃ text, i.print = text ++ "\n" := by
  obtain ⟨patterns, stmts⟩ := i
  obtain rfl : stmts = front ++ [s] := hstmts
  refine ⟨" " ++ " | ".intercalate (Word.printAll patterns) ++ ") "
    ++ (Stmt.lead front ++ s.print), ?_⟩
  rw [String.append_assoc, ← s.terminator_of_heredoc hs true, ← Stmt.join_concat, CaseItem.print,
    Stmt.printAll_eq]
  rfl

theorem Command.exists_print_of_endsInHeredoc {k : Command} (h : k.endsInHeredoc = true) :
    ∃ text, k.print = text ++ "\n" ++ "; esac" := by
  cases k with
  | caseClause word items casePos esacPos =>
    obtain ⟨init, i, rfl, hi⟩ := exists_concat_of_getLast h
    obtain ⟨front, s, hstmts, hs⟩ := exists_concat_of_getLast hi
    obtain ⟨text, htext⟩ := CaseItem.print_heredoc hstmts hs
    obtain ⟨entries, hentries⟩ :=
      exists_intercalate_concat ";;" (init.map CaseItem.print) i.print
    refine ⟨"case " ++ word.print ++ " in" ++ entries ++ text, ?_⟩
    rw [Command.print, CaseItem.printAll_eq, List.map_append, List.map_singleton, hentries, htext]
    simp only [String.append_assoc]
  | _ => cases h

namespace Piece

variable {separator last : String} {l : List Node} {front back : List Piece} {c : Node}

/-- Behind one of several nodes with separators between them. -/
theorem behind_between (h : between separator l ++ [.own last] = front ++ .child c :: back) :
    (∃ init, l = init ++ [c] ∧ back = [.own last]) ∨ ∃ rest, back = .own separator :: rest := by
  induction l generalizing front with
  | nil =>
    simp [between, List.cons_eq_append_iff] at h
  | cons m rest ih =>
    cases rest with
    | nil =>
      rcases List.cons_eq_append_iff.mp h with ⟨rfl, hchild⟩ | ⟨behind, rfl, hlast⟩
      · obtain ⟨⟨rfl⟩, rfl⟩ := List.cons.inj hchild
        exact .inl ⟨[], rfl, rfl⟩
      · simp [List.cons_eq_append_iff] at hlast
    | cons m' rest =>
      rcases List.cons_eq_append_iff.mp h with ⟨rfl, hchild⟩ | ⟨behind, rfl, hrest⟩
      · obtain ⟨-, rfl⟩ := List.cons.inj hchild
        exact .inr ⟨_, rfl⟩
      · rcases List.cons_eq_append_iff.mp hrest with ⟨-, hown⟩ | ⟨behind, rfl, hmore⟩
        · cases hown
        · rcases ih hmore with ⟨init, hinit, rfl⟩ | hseparator
          · exact .inl ⟨m :: init, by rw [hinit, List.cons_append], rfl⟩
          · exact .inr hseparator

end Piece

theorem Command.behind_caseItem {k : Command} {i : CaseItem} {front back : List Piece}
    (h : k.pieces = front ++ .child (.caseItem i) :: back) :
    (∃ word items casePos esacPos, k = .caseClause word (items ++ [i]) casePos esacPos ∧
      back = [.own "; esac"]) ∨ ∃ rest, back = .own ";;" :: rest := by
  have hchild : .caseItem i ∈ k.children :=
    Node.mem_children_of_pieces (n := .command k) h
  cases k with
  | caseClause word items casePos esacPos =>
    have hclause : [.own "case ", .child (.word word), .own " in"]
        ++ (between ";;" (items.map .caseItem) ++ [.own "; esac"])
          = front ++ .child (.caseItem i) :: back := h
    obtain ⟨front, -, hitems⟩ := split_of_not_mem (by simp) hclause
    rcases behind_between hitems with ⟨init, hinit, rfl⟩ | hseparator
    · left
      obtain ⟨items, last, rfl, -, hlast⟩ := List.map_eq_append_iff.mp hinit
      obtain ⟨j, rfl, hj⟩ := List.map_eq_singleton_iff.mp hlast
      obtain rfl := Node.caseItem.inj hj
      exact ⟨word, items, casePos, esacPos, rfl, rfl⟩
    · exact .inr hseparator
  | _ => simp [Command.children] at hchild

/-! ### Semicolons behind a line break -/

namespace Node

variable {n : Node} {front back : List Stmt} {s x : Stmt} {before after rest : String}

/-- A statement that has a text does not begin with a semicolon. -/
theorem not_begins_semicolon (plain : (Node.stmt x).Without ';') :
    beginsIn [';'] x.print = false := by
  rw [Bool.eq_false_iff]
  intro hbegins
  -- Only a parenthesis could stand in front of it, and that is the first character then.
  obtain ⟨rest, hrest⟩ := (opensAt_of_begins (by decide) rfl plain hbegins).exists_print
  have hparen : x.print = "(" ++ rest := hrest
  rw [hparen, beginsIn_fixed (by decide)] at hbegins
  exact absurd hbegins (by decide)

/-- Nor does the rest of a list behind one of its statements. -/
theorem Lists.not_begins_next (h : n.Lists (front ++ s :: x :: back) before after)
    (plain : n.Without ';') (hx : x.print ≠ "") :
    beginsIn [';'] (Stmt.join true (x :: back) ++ after) = false := by
  rw [List.append_cons] at h
  have hnone := not_begins_semicolon (plain.of_shows h.shows_stmt)
  rw [← List.nil_append (x :: back), Stmt.join_append_cons, Stmt.lead_nil, String.empty_append]
  simp only [String.append_assoc]
  rw [beginsIn_fixed hx, hnone]

/-- A semicolon behind the here-document at the end of a list is that of an entry. -/
theorem Lists.entry_of_begins (h : n.Lists (front ++ [s]) before after)
    (hs : s.hasHeredoc = true) (hafter : beginsIn [';'] after = true) :
    n.ListsEntry (front ++ [s]) before after := by
  have hne : front ++ [s] ≠ [] := by
    simp
  have hsemicolon : ';' ∉ closers := by
    decide
  rcases h.follows hne with hbody | hentry | hcloses
  · obtain ⟨rest, rfl, hrest⟩ := hbody.follows hne
    have hbreak : endsIn ['\n'] (Stmt.join true (front ++ [s])) = true := by
      rw [Stmt.join_concat, s.terminator_of_heredoc hs, endsIn_fixed (by decide)]
      decide
    rw [if_pos hbreak, String.empty_append, hrest.not_begins hsemicolon] at hafter
    cases hafter
  · exact hentry
  · rw [hcloses.not_begins hsemicolon] at hafter
    cases hafter

/-- The semicolon stands alone if the entry is the last of its clause. -/
theorem ListsEntry.exists_clause (h : n.ListsEntry (front ++ [s]) before (";" ++ rest))
    (hs : s.hasHeredoc = true) (hrest : beginsIn [';'] rest = false) :
    ∃ clause outer outer', clause.endsInHeredoc = true ∧ n.Shows (.command clause) outer outer' ∧
      ";" ++ rest = "; esac" ++ outer' := by
  generalize hstmts : front ++ [s] = stmts at h
  generalize hafter : ";" ++ rest = after at h
  obtain @⟨k, i, slot, pieces, back, outer, outer', hshows, hpieces, hslot⟩ := h
  obtain rfl := List.mem_singleton.mp hslot
  rcases Command.behind_caseItem hpieces
    with ⟨word, items, casePos, esacPos, rfl, rfl⟩ | ⟨back, rfl⟩
  · refine ⟨_, _, _, ?_, hshows, by simp⟩
    have hlast : i.stmts = front ++ [s] := hstmts.symm
    simp [Command.endsInHeredoc, hlast, hs]
  · have hsecond : rest = ";" ++ (texts back ++ outer') := by
      apply (String.append_right_inj ";").mp
      rw [hafter, texts_nil, texts_cons, text_own, String.empty_append, String.append_assoc,
        ← String.append_assoc]
      rfl
    rw [hsecond, beginsIn_fixed (by decide)] at hrest
    exact absurd hrest (by decide)

end Node

/-- In the text of an accepted tree whose statements all have a text, and none of whose leaves has a
line break or semicolon, a semicolon stands alone behind a line break exactly at the end of a case
clause whose last entry ends with a here-document. -/
theorem semicolon_behind_break (n : Node) (r : Reporter) (accepted : (n.check r).ok = true)
    (present : ∀ m ∈ n.walk, m.kind = .stmt → m.print ≠ "")
    (plain : ∀ m ∈ n.walk, '\n' ∉ m.leafText.toList ∧ ';' ∉ m.leafText.toList) :
    (∀ a b, n.print = a ++ "\n" ++ b →
      ((∃ rest, b = ";" ++ rest ∧ beginsIn [';'] rest = false) ↔
        ∃ clause before after, clause.endsInHeredoc = true ∧
          n.Shows (.command clause) before after ∧
          a ++ "\n" ++ "; esac" = before ++ clause.print ∧ b = "; esac" ++ after)) ∧
    ∀ clause before after, clause.endsInHeredoc = true → n.Shows (.command clause) before after →
      ∃ a, n.print = a ++ "\n" ++ ("; esac" ++ after) ∧
        a ++ "\n" ++ "; esac" = before ++ clause.print := by
  have unsplit : n.Without ';' := Node.without_of_check accepted fun m hm => (plain m hm).2
  constructor
  · intro a b hprint
    constructor
    · rintro ⟨rest, rfl, hrest⟩
      have hsplit : n.print = a ++ ("\n" ++ (";" ++ rest)) := by
        rw [hprint, String.append_assoc]
      have hbegins : beginsIn [';'] (";" ++ rest) = true := begins_append (by decide) rest
      obtain ⟨front, s, back, before, after, hlists, hs, -, hbehind⟩ :=
        Node.exists_list_of_break (fun m hm => (plain m hm).1) hsplit
      cases back with
      | cons x back =>
        have hx : .stmt x ∈ n.walk := hlists.mem_walk (by simp)
        rw [hbehind, hlists.not_begins_next unsplit (present _ hx rfl)] at hbegins
        cases hbegins
      | nil =>
        obtain rfl : ";" ++ rest = after := by
          rw [hbehind]
          exact String.empty_append
        obtain ⟨clause, outer, outer', hlast, hshows, hesac⟩ :=
          (hlists.entry_of_begins hs hbegins).exists_clause hs hrest
        refine ⟨clause, outer, outer', hlast, hshows, ?_, hesac⟩
        apply (String.append_left_inj outer').mp
        rw [String.append_assoc, ← hesac, ← hprint, hshows.print_eq, Node.print]
    · rintro ⟨clause, before, after, -, -, -, rfl⟩
      refine ⟨" esac" ++ after, ?_, ?_⟩
      · rw [← String.append_assoc]
        rfl
      · rw [beginsIn_fixed (by decide)]
        decide
  · intro clause before after hlast hshows
    obtain ⟨text, htext⟩ := Command.exists_print_of_endsInHeredoc hlast
    refine ⟨before ++ text, ?_, ?_⟩
    · rw [hshows.print_eq, Node.print, htext]
      simp only [String.append_assoc]
    · rw [htext]
      simp only [String.append_assoc]

/-- The clause stands in a block, and the one semicolon follows its here-document. -/
theorem semicolon_behind_break_block : ∃ (n : Node) (clause : Command) (before after a : String),
    n.print = "\x7b case x in a) cat <<E\n; esac; \x7d" ∧ (n.check {}).ok = true ∧
      (∀ m ∈ n.walk, m.kind = .stmt → m.print ≠ "") ∧
      (∀ m ∈ n.walk, '\n' ∉ m.leafText.toList ∧ ';' ∉ m.leafText.toList) ∧
      clause.endsInHeredoc = true ∧ n.Shows (.command clause) before after ∧
      n.print = a ++ "\n" ++ ("; esac" ++ after) ∧
      ∃ rest, "; esac" ++ after = ";" ++ rest ∧ beginsIn [';'] rest = false := by
  let cat : Stmt :=
    { command := some (.simple [.ofLit "cat"])
      redirs := [{ op := .lessLess, word := .ofLit "E" }] }
  let clause : Command := .caseClause (.ofLit "x") [⟨[.ofLit "a"], [cat]⟩] {} {}
  let n : Node := .command (.block [{ command := some clause }] {} {})
  have accepted : (n.check {}).ok = true := by
    decide +kernel
  have present : ∀ m ∈ n.walk, m.kind = .stmt → m.print ≠ "" := by
    decide +kernel
  have plain : ∀ m ∈ n.walk, '\n' ∉ m.leafText.toList ∧ ';' ∉ m.leafText.toList := by
    decide +kernel
  have inside : .command clause ∈ n.walk := by
    rw [Node.walk_eq]
    refine List.mem_cons_of_mem _ (List.mem_flatMap.mpr ⟨_, List.mem_singleton_self _, ?_⟩)
    rw [Node.walk_eq]
    refine List.mem_cons_of_mem _ (List.mem_flatMap.mpr ⟨_, List.mem_singleton_self _, ?_⟩)
    rw [Node.walk_eq]
    exact List.mem_cons_self
  obtain ⟨before, after, hshows⟩ := Node.exists_shows (Node.shownWhole_of_check accepted) _ inside
  obtain ⟨alone, ends⟩ := semicolon_behind_break n {} accepted present plain
  obtain ⟨a, hprint, hclause⟩ := ends clause before after rfl hshows
  exact ⟨n, clause, before, after, a, by decide, accepted, present, plain, rfl, hshows, hprint,
    (alone a _ hprint).mpr ⟨clause, before, after, rfl, hshows, hclause, rfl⟩⟩

/-- Braces add no separator behind the line break of the here-document, the case clause does. -/
theorem esac_behind_break : ∃ s : Stmt,
    let block : Node := .command (.block [s] {} {})
    let clause : Node := .command (.caseClause (.ofLit "x") [⟨[.ofLit "a"], [s]⟩] {} {})
    (∀ n ∈ [block, clause], (n.check {}).ok = true ∧
      (∀ m ∈ n.walk, m.kind = .stmt → m.print ≠ "") ∧
      ∀ m ∈ n.walk, '\n' ∉ m.leafText.toList ∧ ';' ∉ m.leafText.toList) ∧
      block.print = "\x7b cat <<E\n\x7d" ∧ clause.print = "case x in a) cat <<E\n; esac" :=
  ⟨{ command := some (.simple [.ofLit "cat"])
     redirs := [{ op := .lessLess, word := .ofLit "E" }] },
    by decide +kernel, by decide, by decide⟩

end ShellSyntax
