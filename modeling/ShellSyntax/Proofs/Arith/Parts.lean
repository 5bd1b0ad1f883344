import ShellSyntax.Proofs.Arith.Completeness
import ShellSyntax.Proofs.Arith.Outcome
import ShellSyntax.Proofs.Arith.Partition

/-!
# The parts of a loop head

The head of a counting loop is read like three expressions, each of which may be blank.

* `symbols`: what a scan of a text meets, wherever the text stands;
* `splitOn_symbols`: a semicolon splits the symbols of a text where it splits the text;
* `parts_of_readParts`, `readParts_of_parts`: a text of several parts is read without complaint
  exactly if there are parts without a fault whose lexemes are the symbols between its semicolons;
* `CountLoop.parts_of_tree`, `CountLoop.exists_tree_of_parts`: so the head of a loop is what its
  three texts are on their own (`parse_parts`).
-/

namespace ShellSyntax

/-! ### Semicolons in a text -/

namespace Lexeme

/-- A semicolon goes into no other lexeme. -/
theorem eq_semicolon_of_mem {l : Lexeme} (hl : l.WellSpelled) (h : ';' ∈ l.spelling.toList) :
    l = .op .semicolon := by
  cases l with
  | op t =>
    have hall : ∀ t ∈ operators, ';' ∈ t.spelling.toList → t = .semicolon := by
      decide
    rw [hall t hl h]
  | name text | number text | param text =>
    rcases isNameChar_of_mem_operand hl (by simp) _ h with hname | hdollar
    · exact absurd hname (by decide)
    · exact absurd hdollar (by decide)

/-- No lexeme that begins in front of a semicolon reaches it. -/
theorem begins_append_semicolon {m : Lexeme} {front : List Char} (hf : front ≠ [])
    (behind : List Char) : m.Begins (front ++ ';' :: behind) ↔ m.Begins front := by
  constructor
  · rintro ⟨hm, hprefix⟩
    refine ⟨hm, ?_⟩
    by_cases hlength : m.spelling.toList.length ≤ front.length
    · exact List.prefix_of_prefix_length_le hprefix (List.prefix_append _ _) hlength
    · -- The lexeme would have the semicolon in it, and something in front of that.
      have hfront : front ++ [';'] <+: m.spelling.toList := by
        refine List.prefix_of_prefix_length_le ⟨behind, by simp⟩ hprefix ?_
        rw [List.length_append, List.length_singleton]
        omega
      have hsemicolon := eq_semicolon_of_mem hm (hfront.subset (by simp))
      subst hsemicolon
      have hone : (front ++ [';']).length ≤ 1 := hfront.length_le
      have := List.length_pos_iff.mpr hf
      rw [List.length_append, List.length_singleton] at hone
      omega
  · rintro ⟨hm, hprefix⟩
    exact ⟨hm, hprefix.trans (List.prefix_append _ _)⟩

theorem read?_append_semicolon {front rest : List Char} {l : Lexeme}
    (h : read? front = some (l, rest)) (behind : List Char) :
    read? (front ++ ';' :: behind) = some (l, rest ++ ';' :: behind) := by
  obtain ⟨⟨hbegins, hlongest⟩, htext⟩ := read?_eq_some_iff.mp h
  have hne : front ≠ [] := by
    rintro rfl
    cases h
  refine read?_eq_some_iff.mpr ⟨⟨(begins_append_semicolon hne behind).mpr hbegins, ?_⟩, ?_⟩
  · intro m hm
    exact hlongest m ((begins_append_semicolon hne behind).mp hm)
  · rw [htext, List.append_assoc]

theorem read?_append_semicolon_of_none {front : List Char} (hf : front ≠ [])
    (h : read? front = none) (behind : List Char) : read? (front ++ ';' :: behind) = none := by
  refine read?_eq_none_iff.mpr fun m hm => ?_
  exact read?_eq_none_iff.mp h m ((begins_append_semicolon hf behind).mp hm)

end Lexeme

theorem scanFrom_semicolon (pos : Pos) (behind : List Char) :
    scanFrom pos (';' :: behind)
      = .lexeme (.op .semicolon) pos :: scanFrom (pos.right 1) behind := by
  have hread : Lexeme.read? (';' :: behind) = some (.op .semicolon, behind) := by
    have := @Lexeme.read?_spelling_append (.op .semicolon) behind (List.elem_iff.mp rfl)
      (Lexeme.endsAt_of_final behind (by decide))
    exact this
  exact scanFrom_some (by decide) (by decide) hread

/-- A scan comes to every semicolon of the text. -/
theorem scanFrom_append_semicolon (pos : Pos) (front behind : List Char) :
    ∃ p : Pos, scanFrom pos (front ++ ';' :: behind)
      = scanFrom pos front ++ .lexeme (.op .semicolon) p :: scanFrom (p.right 1) behind := by
  induction pos, front using scanFrom.induct with
  | case1 pos => exact ⟨pos, by simp [scanFrom_semicolon, scanFrom]⟩
  | case2 pos rest ih =>
    obtain ⟨p, hp⟩ := ih
    exact ⟨p, by rw [List.cons_append, scanFrom, if_pos rfl, hp, scanFrom, if_pos rfl]⟩
  | case3 pos c rest hn hb ih =>
    obtain ⟨p, hp⟩ := ih
    refine ⟨p, ?_⟩
    rw [List.cons_append, scanFrom, if_neg hn, if_pos hb, hp, scanFrom, if_neg hn, if_pos hb]
  | case4 pos c rest hn hb l more hr ih =>
    obtain ⟨p, hp⟩ := ih
    have hread := Lexeme.read?_append_semicolon hr behind
    rw [List.cons_append] at hread
    refine ⟨p, ?_⟩
    rw [List.cons_append, scanFrom_some hn hb hread, hp, scanFrom_some hn hb hr, List.cons_append]
  | case5 pos c rest hn hb hr ih =>
    obtain ⟨p, hp⟩ := ih
    have hread := Lexeme.read?_append_semicolon_of_none (by simp) hr behind
    rw [List.cons_append] at hread
    refine ⟨p, ?_⟩
    rw [List.cons_append, scanFrom_none hn hb hread, hp, scanFrom_none hn hb hr, List.cons_append]

/-! ### Symbols -/

namespace Scanned

/-- The element without its position. -/
def unplaced : Scanned → Scanned
  | .lexeme l _ => .lexeme l {}
  | .illegal c _ => .illegal c {}

def ofLexeme (l : Lexeme) : Scanned := .lexeme l {}

/-- The semicolon without its position. -/
def semicolon : Scanned := .ofLexeme (.op .semicolon)

end Scanned

/-- The elements of a text without their positions. -/
def symbols (text : List Char) : List Scanned := (scanFrom (.behind []) text).map Scanned.unplaced

theorem unplaced_scanFrom (pos pos' : Pos) (text : List Char) :
    (scanFrom pos text).map Scanned.unplaced = (scanFrom pos' text).map Scanned.unplaced := by
  induction pos, text using scanFrom.induct generalizing pos' with
  | case1 pos => simp [scanFrom]
  | case2 pos rest ih =>
    rw [scanFrom, if_pos rfl, ih pos'.nextLine]
    simp [scanFrom]
  | case3 pos c rest hn hb ih =>
    rw [scanFrom, if_neg hn, if_pos hb, ih (pos'.right 1)]
    simp [scanFrom, hn, hb]
  | case4 pos c rest hn hb l more hr ih =>
    rw [scanFrom_some hn hb hr, scanFrom_some hn hb hr, List.map_cons, List.map_cons,
      ih (pos'.right l.spelling.length)]
    rfl
  | case5 pos c rest hn hb hr ih =>
    rw [scanFrom_none hn hb hr, scanFrom_none hn hb hr, List.map_cons, List.map_cons,
      ih (pos'.right 1)]
    rfl

theorem symbols_append_semicolon (front behind : List Char) :
    symbols (front ++ ';' :: behind) = symbols front ++ .semicolon :: symbols behind := by
  obtain ⟨p, hp⟩ := scanFrom_append_semicolon (.behind []) front behind
  rw [symbols, hp, List.map_append, List.map_cons, unplaced_scanFrom (p.right 1) (.behind [])]
  rfl

theorem semicolon_notMem_symbols {text : List Char} (h : ';' ∉ text) :
    .semicolon ∉ symbols text := by
  intro hm
  obtain ⟨e, he, hsemicolon⟩ := List.mem_map.mp hm
  cases e with
  | illegal c pos => cases hsemicolon
  | lexeme l pos =>
    cases hsemicolon
    obtain ⟨before, rest, htext, -⟩ := @standsAt_of_scanFrom [] text _ he
    refine h ?_
    rw [List.nil_append] at htext
    rw [htext]
    simp [Scanned.spelling, Lexeme.spelling, Lexeme.value, Token.spelling]

/-- A semicolon splits the symbols of a text where it splits the text. -/
theorem splitOn_symbols (text : List Char) :
    (symbols text).splitOn .semicolon = (text.splitOn ';').map symbols := by
  induction hn : text.length using Nat.strongRecOn generalizing text with
  | ind n ih =>
    by_cases hm : ';' ∈ text
    · obtain ⟨front, behind, rfl, hfront⟩ := List.eq_append_cons_of_mem hm
      have hbehind := ih behind.length (by simp at hn; omega) behind rfl
      rw [symbols_append_semicolon, List.splitOn_append_cons_self_of_not_mem hfront,
        List.splitOn_append_cons_self_of_not_mem (semicolon_notMem_symbols hfront), hbehind,
        List.map_cons]
    · rw [List.splitOn_eq_singleton hm, List.splitOn_eq_singleton (semicolon_notMem_symbols hm)]
      rfl

theorem length_splitOn {α : Type} [DecidableEq α] (a : α) (l : List α) :
    (l.splitOn a).length = l.count a + 1 := by
  induction hn : l.length using Nat.strongRecOn generalizing l with
  | ind n ih =>
    by_cases hm : a ∈ l
    · obtain ⟨front, behind, rfl, hfront⟩ := List.eq_append_cons_of_mem hm
      have hbehind := ih behind.length (by simp at hn; omega) behind rfl
      rw [List.splitOn_append_cons_self_of_not_mem hfront, List.length_cons, hbehind,
        List.count_append, List.count_eq_zero.mpr hfront, List.count_cons_self]
      omega
    · rw [List.splitOn_eq_singleton hm, List.count_eq_zero.mpr hm]
      rfl

/-! ### Parts without a fault -/

namespace Arith

theorem semicolon_notMem_lexemes {t : Arith} (h : t.Legal) : .op .semicolon ∉ t.lexemes := by
  induction h with
  | @word w t hw ht =>
    rw [lexemes_word hw, List.mem_singleton]
    exact fun he => (Word.print_of_token? hw).2 .semicolon he.symm
  | @prefixed op x pos ho hx ih =>
    rw [lexemes_prefixed, List.mem_cons, not_or]
    refine ⟨?_, ih⟩
    rintro ⟨⟩
    cases ho
  | @postfixed op x pos ho hx ih =>
    rw [lexemes_postfixed, List.mem_append, not_or, List.mem_singleton]
    refine ⟨ih, ?_⟩
    rintro ⟨⟩
    revert ho
    decide
  | @binary op x y pos ho hx hy ihx ihy =>
    rw [lexemes_binary, List.mem_append, not_or, List.mem_cons, not_or]
    refine ⟨ihx, ?_, ihy⟩
    rintro ⟨⟩
    cases ho
  | paren hx ih =>
    rw [lexemes_paren]
    simp [ih]

/-- A part that is read without complaint. -/
structure Flawless (p : Option Arith) : Prop where
  sound : ∀ x ∈ p, x.Legal ∧ x.Grouped
  faultless : faults? p = []

/-- The lexemes of a part as symbols. -/
def symbols? (p : Option Arith) : List Scanned := (lexemes? p).map .ofLexeme

theorem semicolon_notMem_symbols? {p : Option Arith} (hp : Flawless p) :
    .semicolon ∉ symbols? p := by
  intro hm
  obtain ⟨l, hl, he⟩ := List.mem_map.mp hm
  cases he
  cases p with
  | none => cases hl
  | some x => exact semicolon_notMem_lexemes (hp.sound x rfl).1 hl

/-- Several parts have semicolons between them, and nowhere else. -/
theorem splitOn_separated {front : List (Option Arith)} {last : Option Arith}
    (h : ∀ p ∈ front ++ [last], Flawless p) :
    ((separated front ++ lexemes? last).map Scanned.ofLexeme).splitOn .semicolon
      = (front ++ [last]).map symbols? := by
  induction front with
  | nil => exact List.splitOn_eq_singleton (semicolon_notMem_symbols? (h last (by simp)))
  | cons p rest ih =>
    have hrest := ih fun q hq => h q (List.mem_cons_of_mem _ hq)
    have hp := semicolon_notMem_symbols? (h p (by simp))
    have hsplit : (separated (p :: rest) ++ lexemes? last).map Scanned.ofLexeme
        = symbols? p ++ .semicolon :: (separated rest ++ lexemes? last).map Scanned.ofLexeme := by
      simp [separated, symbols?, Scanned.semicolon]
    rw [hsplit, List.splitOn_append_cons_self_of_not_mem hp, hrest]
    rfl

end Arith

theorem symbols_of_scan {text : String} {l : List Placed} (h : scan text = Placed.scanned l) :
    symbols text.toList = (l.map Prod.fst).map .ofLexeme := by
  have hscan : scanFrom (.behind []) text.toList = Placed.scanned l := h
  rw [symbols, hscan, Placed.scanned, List.map_map, List.map_map]
  rfl

theorem scan_of_symbols {text : String} {ls : List Lexeme}
    (h : symbols text.toList = ls.map .ofLexeme) :
    ∃ l, scan text = Placed.scanned l ∧ l.map Prod.fst = ls := by
  have hscan : (scan text).map Scanned.unplaced = ls.map .ofLexeme := h
  clear h
  generalize scan text = elements at hscan ⊢
  induction elements generalizing ls with
  | nil =>
    cases List.map_eq_nil_iff.mp hscan.symm
    exact ⟨[], rfl, rfl⟩
  | cons e rest ih =>
    obtain ⟨first, more, rfl, hfirst, hmore⟩ := List.map_eq_cons_iff.mp hscan.symm
    obtain ⟨l, hl, hls⟩ := ih hmore.symm
    cases e with
    | illegal c pos => cases hfirst
    | lexeme lexeme pos =>
      cases hfirst
      exact ⟨(first, pos) :: l, by rw [hl]; rfl, by rw [List.map_cons, hls]⟩

theorem splitOn_inj {α : Type} [DecidableEq α] {a : α} {l m : List α}
    (h : l.splitOn a = m.splitOn a) : l = m :=
  calc l = [a].intercalate (l.splitOn a) := (List.intercalate_splitOn a).symm
    _ = [a].intercalate (m.splitOn a) := by rw [h]
    _ = m := List.intercalate_splitOn a

/-- What is read without complaint is one part without a fault between any two semicolons. -/
theorem parts_of_readParts {parts : Nat} {text : String} {read : List (Option Arith)}
    (h : readParts parts text = { built := some read, errors := [] }) :
    read.length = parts ∧ (∀ p ∈ read, Arith.Flawless p) ∧
      (text.toList.splitOn ';').map symbols = read.map Arith.symbols? := by
  obtain ⟨l, front, last, hscan, rfl, hlength, whole⟩ := whole_of_readParts h
  obtain ⟨before, rfl, hbefore⟩ := whole.tokens
  have hflawless : ∀ p ∈ front ++ [last], Arith.Flawless p := by
    intro p hp
    refine ⟨whole.sound p hp, ?_⟩
    exact List.flatMap_eq_nil_iff.mp whole.faults.symm p hp
  refine ⟨by simpa using hlength, hflawless, ?_⟩
  rw [← splitOn_symbols, symbols_of_scan hscan, List.map_append, hbefore]
  exact Arith.splitOn_separated hflawless

/-- Parts without a fault are read back from any text that has their lexemes between its
semicolons. -/
theorem readParts_of_parts {text : String} {front : List (Option Arith)} {last : Option Arith}
    (hp : ∀ p ∈ front ++ [last], Arith.Flawless p)
    (h : (text.toList.splitOn ';').map symbols = (front ++ [last]).map Arith.symbols?) :
    ∃ built, readParts (front.length + 1) text = { built := some built, errors := [] } ∧
      built.map Arith.unplaced? = (front ++ [last]).map Arith.unplaced? := by
  rw [← splitOn_symbols, ← Arith.splitOn_separated hp] at h
  obtain ⟨l, hscan, hlexemes⟩ := scan_of_symbols (splitOn_inj h)
  obtain ⟨built, hread, hbuilt⟩ :=
    readParts_of_sound (fun p h => (hp p h).sound) hscan hlexemes
  refine ⟨built, ?_, hbuilt⟩
  have hfaults := Arith.flatMap_faults?_eq_nil hbuilt
    (List.flatMap_eq_nil_iff.mpr fun p h => (hp p h).faultless)
  rw [hread, hfaults]

/-! ### A loop and its parts -/

theorem Reading.tree_of_errors_eq_nil {α : Type} {r : Reading α} (h : r.errors = []) :
    r.tree = r.built := by
  simp [Reading.tree, h]

namespace Arith

/-- Without a semicolon, a text without an error is one part. -/
theorem part_of_parse {text : String} (ht : ';' ∉ text.toList)
    (h : (Arith.parse text).errors = []) :
    Flawless (Arith.parse text).tree ∧ symbols text.toList = symbols? (Arith.parse text).tree := by
  obtain ⟨read, hread⟩ := @readParts_of_errors_eq_nil 1 text h
  obtain ⟨hlength, hflawless, hsymbols⟩ := parts_of_readParts hread
  obtain ⟨p, rfl⟩ := List.length_eq_one_iff.mp hlength
  have htree : (Arith.parse text).tree = p := by
    rw [Reading.tree_of_errors_eq_nil h]
    simp [Arith.parse, hread]
  rw [List.splitOn_eq_singleton ht] at hsymbols
  rw [htree]
  exact ⟨hflawless p (by simp), List.singleton_inj.mp hsymbols⟩

/-- A text with the lexemes of a part without a fault is read as this part. -/
theorem parse_of_part {text : String} (ht : ';' ∉ text.toList) {p : Option Arith}
    (hp : Flawless p) (h : symbols text.toList = symbols? p) :
    (Arith.parse text).errors = [] ∧ unplaced? (Arith.parse text).tree = unplaced? p := by
  have hsymbols : (text.toList.splitOn ';').map symbols = ([] ++ [p]).map symbols? := by
    rw [List.splitOn_eq_singleton ht, List.map_singleton, h]
    rfl
  obtain ⟨built, hread, hbuilt⟩ := @readParts_of_parts text [] p (by simpa using hp) hsymbols
  obtain ⟨q, rfl, hq⟩ := List.map_eq_singleton_iff.mp hbuilt
  have herrors : (Arith.parse text).errors = [] := congrArg Reading.errors hread
  refine ⟨herrors, ?_⟩
  rw [Reading.tree_of_errors_eq_nil herrors, Arith.parse, ← hq]
  rw [List.length_nil, Nat.zero_add] at hread
  rw [hread]
  rfl

/-- A text is read without an error exactly if it comes out as a tree, or as nothing. -/
theorem errors_eq_nil_iff {text : String} : (Arith.parse text).errors = [] ↔
    (∃ x, (Arith.parse text).tree = some x) ∨
      (Arith.parse text).tree = none ∧ (Arith.parse text).errors = [] := by
  constructor
  · intro h
    cases htree : (Arith.parse text).tree with
    | some x => exact Or.inl ⟨x, rfl⟩
    | none => exact Or.inr ⟨rfl, h⟩
  · rintro (⟨x, hx⟩ | ⟨-, h⟩)
    · exact congrArg Reading.errors (Reading.tree_eq_some_iff.mp hx)
    · exact h

end Arith

theorem CountLoop.tree_of_readParts {text : String} {init cond step : Option Arith}
    (h : readParts 3 text = { built := some [init, cond, step], errors := [] }) :
    (CountLoop.parse text).tree = some { init, cond, step } := by
  simp [CountLoop.parse, h, Reading.tree]

/-- Three texts with semicolons between them. -/
def joined (t₁ t₂ t₃ : String) : String := t₁ ++ ";" ++ t₂ ++ ";" ++ t₃

/-- The loop whose parts are what three texts are on their own. -/
def CountLoop.ofTexts (t₁ t₂ t₃ : String) : CountLoop where
  init := (Arith.parse t₁).tree
  cond := (Arith.parse t₂).tree
  step := (Arith.parse t₃).tree

section
variable {t₁ t₂ t₃ : String}

theorem splitOn_joined (h : ∀ t ∈ [t₁, t₂, t₃], ';' ∉ t.toList) :
    (joined t₁ t₂ t₃).toList.splitOn ';' = [t₁.toList, t₂.toList, t₃.toList] := by
  have htext : (joined t₁ t₂ t₃).toList
      = t₁.toList ++ ';' :: (t₂.toList ++ ';' :: t₃.toList) := by
    simp [joined]
  rw [htext, List.splitOn_append_cons_self_of_not_mem (h t₁ (by simp)),
    List.splitOn_append_cons_self_of_not_mem (h t₂ (by simp)),
    List.splitOn_eq_singleton (h t₃ (by simp))]

/-- Whatever loop is read, each of its parts is what its text is on its own. -/
theorem CountLoop.parts_of_tree (h : ∀ t ∈ [t₁, t₂, t₃], ';' ∉ t.toList) {l : CountLoop}
    (hl : (CountLoop.parse (joined t₁ t₂ t₃)).tree = some l) :
    (∀ t ∈ [t₁, t₂, t₃], (Arith.parse t).errors = []) ∧
      l.unplaced = (ofTexts t₁ t₂ t₃).unplaced := by
  obtain ⟨init, cond, step, lparen, rparen⟩ := l
  obtain ⟨-, hflawless, hsymbols⟩ :=
    parts_of_readParts (readParts_of_parse (Reading.tree_eq_some_iff.mp hl))
  rw [splitOn_joined h] at hsymbols
  simp only [List.map_cons, List.map_nil, List.cons.injEq, and_true] at hsymbols
  obtain ⟨hinit, hcond, hstep⟩ := hsymbols
  obtain ⟨herrors₁, htree₁⟩ :=
    Arith.parse_of_part (h t₁ (by simp)) (hflawless init (by simp)) hinit
  obtain ⟨herrors₂, htree₂⟩ :=
    Arith.parse_of_part (h t₂ (by simp)) (hflawless cond (by simp)) hcond
  obtain ⟨herrors₃, htree₃⟩ :=
    Arith.parse_of_part (h t₃ (by simp)) (hflawless step (by simp)) hstep
  refine ⟨by simp [herrors₁, herrors₂, herrors₃], ?_⟩
  simp [ofTexts, htree₁, htree₂, htree₃]

theorem CountLoop.exists_tree_of_parts (h : ∀ t ∈ [t₁, t₂, t₃], ';' ∉ t.toList)
    (herrors : ∀ t ∈ [t₁, t₂, t₃], (Arith.parse t).errors = []) :
    ∃ l, (CountLoop.parse (joined t₁ t₂ t₃)).tree = some l := by
  have hpart : ∀ t ∈ [t₁, t₂, t₃], Arith.Flawless (Arith.parse t).tree ∧
      symbols t.toList = Arith.symbols? (Arith.parse t).tree := fun t ht =>
    Arith.part_of_parse (h t ht) (herrors t ht)
  obtain ⟨hflawless₁, hsymbols₁⟩ := hpart t₁ (by simp)
  obtain ⟨hflawless₂, hsymbols₂⟩ := hpart t₂ (by simp)
  obtain ⟨hflawless₃, hsymbols₃⟩ := hpart t₃ (by simp)
  have hsymbols : ((joined t₁ t₂ t₃).toList.splitOn ';').map symbols
      = [(Arith.parse t₁).tree, (Arith.parse t₂).tree, (Arith.parse t₃).tree].map
          Arith.symbols? := by
    rw [splitOn_joined h]
    simp [hsymbols₁, hsymbols₂, hsymbols₃]
  obtain ⟨built, hread, hbuilt⟩ := @readParts_of_parts (joined t₁ t₂ t₃)
    [(Arith.parse t₁).tree, (Arith.parse t₂).tree] (Arith.parse t₃).tree
    (by simp [hflawless₁, hflawless₂, hflawless₃]) hsymbols
  obtain ⟨init, rest, rfl, -, hrest⟩ := List.map_eq_cons_iff.mp hbuilt
  obtain ⟨cond, last, rfl, -, hlast⟩ := List.map_eq_cons_iff.mp hrest
  obtain ⟨step, rfl, -⟩ := List.map_eq_singleton_iff.mp hlast
  exact ⟨_, tree_of_readParts hread⟩

end

/-- Three texts with semicolons between them are the head of a loop exactly if each of them is an
expression or blank, and then its parts are what the texts are on their own, up to positions. A text
with any other number of semicolons is never the head of a loop. -/
theorem parse_parts :
    (∀ t₁ t₂ t₃ : String, (∀ t ∈ [t₁, t₂, t₃], ';' ∉ t.toList) →
      ((∃ l, (CountLoop.parse (joined t₁ t₂ t₃)).tree = some l) ↔
        ∀ t ∈ [t₁, t₂, t₃], (∃ x, (Arith.parse t).tree = some x) ∨
          (Arith.parse t).tree = none ∧ (Arith.parse t).errors = []) ∧
      ∀ l, (CountLoop.parse (joined t₁ t₂ t₃)).tree = some l →
        l.unplaced = (CountLoop.ofTexts t₁ t₂ t₃).unplaced) ∧
    ∀ text : String, text.toList.count ';' ≠ 2 → (CountLoop.parse text).tree = none := by
  constructor
  · intro t₁ t₂ t₃ h
    refine ⟨⟨?_, ?_⟩, fun l hl => (CountLoop.parts_of_tree h hl).2⟩
    · rintro ⟨l, hl⟩ t ht
      exact Arith.errors_eq_nil_iff.mp ((CountLoop.parts_of_tree h hl).1 t ht)
    · intro hparts
      apply CountLoop.exists_tree_of_parts h
      intro t ht
      exact Arith.errors_eq_nil_iff.mpr (hparts t ht)
  · intro text hcount
    rw [Option.eq_none_iff_forall_ne_some]
    intro l hl
    obtain ⟨-, -, hsymbols⟩ :=
      parts_of_readParts (CountLoop.readParts_of_parse (Reading.tree_eq_some_iff.mp hl))
    have hlength := congrArg List.length hsymbols
    rw [List.length_map, length_splitOn] at hlength
    exact hcount (Nat.succ.inj hlength)

/-- The head of a loop without a condition, and a text with one semicolon only. -/
theorem parse_parts_init_step :
    (∃ l, (CountLoop.parse (joined "i = 0" " " "i++")).tree = some l ∧
      l.unplaced = (CountLoop.ofTexts "i = 0" " " "i++").unplaced) ∧
      (CountLoop.parse "i = 0; i++").tree = none := by
  have hinit : scan "i = 0" = Placed.scanned [(.name "i", ⟨1, 1, 0⟩), (.op .equal, ⟨1, 3, 2⟩),
      (.number "0", ⟨1, 5, 4⟩)] := by
    decide +kernel
  have hcond : scan " " = [] := by
    decide +kernel
  have hstep : scan "i++" = Placed.scanned [(.name "i", ⟨1, 1, 0⟩),
      (.op .plusPlus, ⟨1, 2, 1⟩)] := by
    decide +kernel
  let i : Arith := .word (.ofLit "i" ⟨1, 1, 0⟩)
  obtain ⟨haccepted, hparts⟩ := parse_parts.1 "i = 0" " " "i++" (by decide)
  have hloop : ∃ l, (CountLoop.parse (joined "i = 0" " " "i++")).tree = some l := by
    refine haccepted.mpr ?_
    simp only [List.forall_mem_cons, List.not_mem_nil, false_imp_iff, implies_true, and_true]
    refine ⟨Or.inl ⟨.binary .equal (some i) (some (.word (.ofLit "0" ⟨1, 5, 4⟩))) ⟨1, 3, 2⟩, ?_⟩,
      Or.inr ⟨?_, ?_⟩, Or.inl ⟨.unary .plusPlus (some i) true ⟨1, 2, 1⟩, ?_⟩⟩
    · rw [Arith.parse, readParts, hinit]
      rfl
    · rw [Arith.parse, readParts, hcond]
      rfl
    · rw [Arith.parse, readParts, hcond]
      rfl
    · rw [Arith.parse, readParts, hstep]
      rfl
  obtain ⟨l, hl⟩ := hloop
  exact ⟨⟨l, hl, hparts l hl⟩, parse_parts.2 "i = 0; i++" (by decide)⟩

end ShellSyntax
