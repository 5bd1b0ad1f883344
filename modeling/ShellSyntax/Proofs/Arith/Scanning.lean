import ShellSyntax.Proofs.Arith.Spelling

/-!
# Scanning

* `Placed.scanned`: a scan that met the given lexemes, at their positions, and nothing illegal;
* `Spells`: a text is the given lexemes, with blanks wherever one would run into the next;
* `scan_of_spells`: such a text is scanned into exactly these lexemes;
* `wellSpelled_of_scan`: every lexeme of a scan is well spelled.
-/

namespace ShellSyntax

/-- A lexeme with the position of its first character. -/
abbrev Placed := Lexeme × Pos

/-- The scan of a text that has these lexemes and nothing illegal. -/
def Placed.scanned (l : List Placed) : List Scanned := l.map fun (lexeme, pos) => .lexeme lexeme pos

theorem Placed.scanned_inj {l m : List Placed} (h : scanned l = scanned m) : l = m := by
  refine (List.map_inj_right ?_).mp h
  rintro ⟨lexeme, pos⟩ ⟨lexeme', pos'⟩ he
  cases he
  rfl

/-- The text is the spellings of the lexemes in order, with blanks and line breaks around them. A
lexeme stands at once before the next only where it ends. -/
inductive Spells : List Lexeme → List Char → Prop where
  | nil : Spells [] []
  | blank {ls : List Lexeme} {c : Char} {text : List Char} (hc : c = '\n' ∨ c = ' ' ∨ c = '\t')
      (h : Spells ls text) : Spells ls (c :: text)
  | lexeme {l : Lexeme} {ls : List Lexeme} {text : List Char} (hl : l.WellSpelled)
      (he : l.EndsAt text) (h : Spells ls text) : Spells (l :: ls) (l.spelling.toList ++ text)

namespace Lexeme

/-- A name or number begins with a letter, digit or underscore, a parameter with its dollar sign. -/
theorem head_of_operand {l : Lexeme} (hl : l.WellSpelled) (hno : ∀ t, l ≠ .op t) :
    ∃ c more, l.spelling.toList = c :: more ∧ (isNameChar c = true ∨ c = '$') := by
  cases l with
  | op t => exact absurd rfl (hno t)
  | name text =>
    simp only [WellSpelled, IsName] at hl
    split at hl
    · exact absurd hl id
    · rename_i c more hc
      exact ⟨c, more, hc, Or.inl (isNameChar_of_isNameStart hl.1)⟩
  | number text =>
    rcases hl with ⟨hne, hd⟩ | ⟨x, digits, -, -, -, hc⟩
    · cases hc : text.toList with
      | nil => exact absurd (by simpa using hc) hne
      | cons c more =>
        rw [hc, List.all_cons, Bool.and_eq_true] at hd
        exact ⟨c, more, hc, Or.inl (isNameChar_of_isDigit hd.1)⟩
    · exact ⟨'0', x :: digits, hc, Or.inl (by decide)⟩
  | param text => exact ⟨'$', text.toList, by simp [spelling], Or.inr rfl⟩

/-- No lexeme begins with a blank. -/
theorem head_not_blank {l : Lexeme} (hl : l.WellSpelled) :
    ∃ c more, l.spelling.toList = c :: more ∧ c ≠ '\n' ∧ c ≠ ' ' ∧ c ≠ '\t' := by
  cases l with
  | op t =>
    have hall : ∀ t ∈ operators, t.spelling.toList.head?.any (fun c =>
        c ≠ '\n' && c ≠ ' ' && c ≠ '\t') = true := by
      decide
    have h := hall t hl
    simp only [spelling, value]
    cases hc : t.spelling.toList with
    | nil => rw [hc] at h; cases h
    | cons c more =>
      rw [hc] at h
      simp only [List.head?_cons, Option.any_some, Bool.and_eq_true, decide_eq_true_eq] at h
      exact ⟨c, more, rfl, h.1.1, h.1.2, h.2⟩
  | name text | number text | param text =>
    obtain ⟨c, more, hc, h⟩ := head_of_operand hl (by simp)
    refine ⟨c, more, hc, ?_, ?_, ?_⟩ <;> (rintro rfl; revert h; decide)

end Lexeme

theorem scanFrom_some {pos : Pos} {c : Char} {rest more : List Char} {l : Lexeme} (hn : c ≠ '\n')
    (hb : ¬(c = ' ' ∨ c = '\t')) (hr : Lexeme.read? (c :: rest) = some (l, more)) :
    scanFrom pos (c :: rest) = .lexeme l pos :: scanFrom (pos.right l.spelling.length) more := by
  rw [scanFrom, if_neg hn, if_neg hb]
  split
  · rename_i l' more' heq
    rw [hr] at heq
    cases heq
    rfl
  · rename_i heq
    rw [hr] at heq
    cases heq

theorem scanFrom_none {pos : Pos} {c : Char} {rest : List Char} (hn : c ≠ '\n')
    (hb : ¬(c = ' ' ∨ c = '\t')) (hr : Lexeme.read? (c :: rest) = none) :
    scanFrom pos (c :: rest) = .illegal c pos :: scanFrom (pos.right 1) rest := by
  rw [scanFrom, if_neg hn, if_neg hb]
  split
  · rename_i l' more' heq
    rw [hr] at heq
    cases heq
  · rfl

theorem scanFrom_lexeme (pos : Pos) {l : Lexeme} {text : List Char} (hl : l.WellSpelled)
    (he : l.EndsAt text) :
    scanFrom pos (l.spelling.toList ++ text)
      = .lexeme l pos :: scanFrom (pos.right l.spelling.length) text := by
  have hr := Lexeme.read?_spelling_append hl he
  obtain ⟨c, more, hc, hn, hb, ht⟩ := Lexeme.head_not_blank hl
  rw [hc, List.cons_append] at hr ⊢
  exact scanFrom_some hn (not_or.mpr ⟨hb, ht⟩) hr

/-- A spelled-out text has exactly its lexemes, wherever it stands. -/
theorem scanFrom_of_spells {ls : List Lexeme} {text : List Char} (h : Spells ls text) (pos : Pos) :
    ∃ l : List Placed, scanFrom pos text = Placed.scanned l ∧ l.map Prod.fst = ls := by
  induction h generalizing pos with
  | nil => exact ⟨[], by rw [scanFrom]; rfl, rfl⟩
  | @blank ls c text hc h ih =>
    by_cases hn : c = '\n'
    · obtain ⟨l, hl, hm⟩ := ih pos.nextLine
      exact ⟨l, by rw [scanFrom, if_pos hn, hl], hm⟩
    · obtain ⟨l, hl, hm⟩ := ih (pos.right 1)
      have hb : c = ' ' ∨ c = '\t' := hc.resolve_left hn
      exact ⟨l, by rw [scanFrom, if_neg hn, if_pos hb, hl], hm⟩
  | @lexeme l ls text hw he h ih =>
    obtain ⟨rest, hl, hm⟩ := ih (pos.right l.spelling.length)
    refine ⟨(l, pos) :: rest, ?_, by rw [List.map_cons, hm]⟩
    rw [scanFrom_lexeme pos hw he, hl]
    rfl

theorem scan_of_spells {ls : List Lexeme} {text : String} (h : Spells ls text.toList) :
    ∃ l : List Placed, scan text = Placed.scanned l ∧ l.map Prod.fst = ls :=
  scanFrom_of_spells h _

theorem wellSpelled_of_scanFrom {pos : Pos} {text : List Char} {l : Lexeme} {p : Pos}
    (h : .lexeme l p ∈ scanFrom pos text) : l.WellSpelled := by
  induction pos, text using scanFrom.induct with
  | case1 pos => simp [scanFrom] at h
  | case2 pos rest ih =>
    rw [scanFrom, if_pos rfl] at h
    exact ih h
  | case3 pos c rest hn hb ih =>
    rw [scanFrom, if_neg hn, if_pos hb] at h
    exact ih h
  | case4 pos c rest hn hb l' more hr ih =>
    rw [scanFrom_some hn hb hr] at h
    rcases List.mem_cons.mp h with h | h
    · cases h
      exact Lexeme.wellSpelled_of_read? hr
    · exact ih h
  | case5 pos c rest hn hb hr ih =>
    rw [scanFrom_none hn hb hr] at h
    rcases List.mem_cons.mp h with h | h
    · cases h
    · exact ih h

/-- Every lexeme of a text is well spelled. -/
theorem wellSpelled_of_scan {text : String} {l : Lexeme} {p : Pos}
    (h : .lexeme l p ∈ scan text) : l.WellSpelled :=
  wellSpelled_of_scanFrom h

theorem wellSpelled_of_scanned {text : String} {l : List Placed} (h : scan text = Placed.scanned l) :
    ∀ t ∈ l, t.1.WellSpelled := by
  intro t ht
  apply wellSpelled_of_scan (p := t.2)
  rw [h]
  exact List.mem_map_of_mem ht

end ShellSyntax
