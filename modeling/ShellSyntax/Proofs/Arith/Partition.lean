import ShellSyntax.Proofs.Arith.Position

/-!
# A text and its scan

* `Lexeme.Begins`: a text begins with a lexeme;
* `Lexeme.read?_eq_some_iff`, `Lexeme.read?_eq_none_iff`: reading takes the longest lexeme that
  begins the text, and nothing only where none does;
* `Fragment.Stands`: what may stand between two texts, a blank, a lexeme or an illegal character;
* `standsAt_of_scan`, `ofOffset_of_scan`: everything that a scan meets stands where the scan says,
  and counting back from its offset gives the same column;
* `scan_partition`: every text is such fragments in a row, and its scan is their elements.
-/

namespace ShellSyntax

namespace Lexeme

/-- The text begins with the lexeme. -/
def Begins (l : Lexeme) (text : List Char) : Prop := l.WellSpelled ∧ l.spelling.toList <+: text

/-- Of all lexemes that begin the text, this is the longest. -/
def Longest (l : Lexeme) (text : List Char) : Prop :=
  l.Begins text ∧ ∀ m : Lexeme, m.Begins text → m.spelling.length ≤ l.spelling.length

/-! ### Where a lexeme stands, one at least as long is read -/

theorem length_le_takeWhile {p : Char → Bool} {front : List Char} (h : front.all p = true)
    (rest : List Char) : front.length ≤ ((front ++ rest).takeWhile p).length := by
  rw [List.takeWhile_append_of_pos (List.all_eq_true.mp h), List.length_append]
  omega

/-- Something is read that has at least `n` characters. -/
def Reaches (read : Option (Lexeme × List Char)) (n : Nat) : Prop :=
  ∃ l rest, read = some (l, rest) ∧ n ≤ l.spelling.toList.length

theorem reaches_name {text : String} (hn : IsName text) (rest : List Char) :
    Reaches (read? (text.toList ++ rest)) text.toList.length := by
  unfold IsName at hn
  split at hn
  · exact absurd hn id
  · rename_i c more hc
    obtain ⟨hs, hm⟩ := hn
    have hd : c ≠ '$' := by
      rintro rfl
      exact absurd hs (by decide)
    have hlength := length_le_takeWhile hm rest
    have hread : read? (c :: (more ++ rest))
        = some (run isNameChar (fun t => .name (.ofList (c :: t))) (more ++ rest)) := by
      simp only [read?, hd, if_false, hs, if_true]
    rw [hc, List.cons_append]
    exact ⟨_, _, hread, by simpa [spelling, value] using hlength⟩

theorem reaches_param {text : String}
    (hp : IsName text ∨ ∃ c, c.isDigit = true ∧ text = String.ofList [c]) (rest : List Char) :
    Reaches (read? ('$' :: text.toList ++ rest)) (text.toList.length + 1) := by
  rcases hp with hn | ⟨c, hc, rfl⟩
  · unfold IsName at hn
    split at hn
    · exact absurd hn id
    · rename_i c more hc
      obtain ⟨hs, hm⟩ := hn
      have hlength := length_le_takeWhile hm rest
      have hread : read? ('$' :: c :: (more ++ rest))
          = some (run isNameChar (fun t => .param (.ofList (c :: t))) (more ++ rest)) := by
        simp only [read?, if_true, readParam?, hs]
      rw [hc, List.cons_append, List.cons_append]
      exact ⟨_, _, hread, by simpa [spelling] using hlength⟩
  · have hs := isNameStart_eq_false_of_isDigit hc
    exact ⟨.param (.ofList [c]), rest, by simp [read?, readParam?, hs, hc], by simp [spelling]⟩

theorem length_le_readNumber_of_digits {front : List Char} (hd : front.all Char.isDigit = true)
    (rest : List Char) :
    front.length ≤ (readNumber (front ++ rest)).1.spelling.toList.length := by
  have hlength := length_le_takeWhile hd rest
  unfold readNumber
  split
  · rename_i x d more heq
    split
    · -- The letter behind the zero is no digit, so the digits are the zero at most.
      rename_i hb
      have hfront : front.length ≤ 1 := by
        match front with
        | [] | [_] => simp
        | _ :: e :: _ =>
          have he : e = x := by
            simp only [List.cons_append, List.cons.injEq] at heq
            exact heq.2.1
          subst he
          simp only [List.all_cons, Bool.and_eq_true, Bool.or_eq_true, decide_eq_true_eq] at hd hb
          rcases hb.1 with rfl | rfl <;> exact absurd hd.2.1 (by decide)
      simp [run, spelling, value]
      omega
    · simpa [run, spelling, value, heq] using hlength
  · simpa [run, spelling, value] using hlength

theorem reaches_number {text : String} (hn : IsNumber text) (rest : List Char) :
    Reaches (read? (text.toList ++ rest)) text.toList.length := by
  have digitFirst : ∀ c more, text.toList = c :: more → c.isDigit = true →
      read? (text.toList ++ rest) = some (readNumber (text.toList ++ rest)) := by
    intro c more hc hd
    have hs := isNameStart_eq_false_of_isDigit hd
    have hne : c ≠ '$' := by
      rintro rfl
      exact absurd hd (by decide)
    simp only [hc, List.cons_append, read?, hne, if_false, hs, Bool.false_eq_true, hd, if_true]
  rcases hn with ⟨hne, hd⟩ | ⟨x, digits, hx, hne, hd, hl⟩
  · cases hc : text.toList with
    | nil => exact absurd (by simpa using hc) hne
    | cons c more =>
      have hdc : c.isDigit = true := by
        rw [hc, List.all_cons, Bool.and_eq_true] at hd
        exact hd.1
      rw [← hc]
      exact ⟨_, _, digitFirst c more hc hdc, length_le_readNumber_of_digits hd rest⟩
  · cases digits with
    | nil => exact absurd rfl hne
    | cons d more =>
      simp only [List.all_cons, Bool.and_eq_true] at hd
      have hb : ((x = 'x' || x = 'X') && isHexDigit d) = true := by
        rcases hx with rfl | rfl <;> simp [hd.1]
      have hlength := length_le_takeWhile hd.2 rest
      refine ⟨_, _, digitFirst '0' _ hl (by decide), ?_⟩
      rw [hl]
      simp only [List.cons_append, hb, if_true, run, spelling, value, String.toList_ofList,
        List.length_cons]
      omega

theorem reaches_op {t : Token} (ht : t ∈ operators) (rest : List Char) :
    Reaches (read? (t.spelling.toList ++ rest)) t.spelling.toList.length := by
  obtain ⟨c, more, hc, hne, hs, hd⟩ := operator_head t ht
  have hread : read? (t.spelling.toList ++ rest) = readOperator? (t.spelling.toList ++ rest) := by
    rw [hc, List.cons_append]
    simp only [read?, hne, hs, hd, if_false, Bool.false_eq_true]
  have hfits : (t.spelling.toList.isPrefixOf (t.spelling.toList ++ rest)) = true := by simp
  cases hf : operators.find? fun u => u.spelling.toList.isPrefixOf (t.spelling.toList ++ rest) with
  | none => exact absurd hfits (List.find?_eq_none.mp hf t ht)
  | some u =>
    refine ⟨.op u, _, by rw [hread, readOperator?, hf, Option.map_some], ?_⟩
    -- The operator found is the first that fits, and longer ones come first.
    obtain ⟨-, before, after, hsplit, hbefore⟩ := List.find?_eq_some_iff_append.mp hf
    have longer := operators_longest_first
    rw [hsplit, List.pairwise_append, List.pairwise_cons] at longer
    rw [hsplit, List.mem_append, List.mem_cons] at ht
    rcases ht with ht | rfl | ht
    · have := hbefore t ht
      rw [hfits] at this
      cases this
    · exact Nat.le_refl _
    · exact longer.2.1.1 t ht

theorem exists_read?_of_begins {m : Lexeme} {text : List Char} (h : m.Begins text) :
    ∃ l rest, read? text = some (l, rest) ∧ m.spelling.length ≤ l.spelling.length := by
  obtain ⟨hm, rest, rfl⟩ := h
  suffices Reaches (read? (m.spelling.toList ++ rest)) m.spelling.toList.length by
    simpa only [Reaches, String.length_toList] using this
  cases m with
  | name text => exact reaches_name hm rest
  | number text => exact reaches_number hm rest
  | param text =>
    have h := reaches_param hm rest
    simpa [spelling] using h
  | op t => exact reaches_op hm rest

/-! ### Reading takes the longest lexeme -/

/-- No two lexemes are spelled alike. -/
theorem spelling_inj {l m : Lexeme} (hl : l.WellSpelled) (hm : m.WellSpelled)
    (h : l.spelling = m.spelling) : l = m := by
  have hread := @read?_spelling_append l [] hl (by simp [EndsAt])
  rw [h, @read?_spelling_append m [] hm (by simp [EndsAt])] at hread
  cases hread
  rfl

theorem begins_of_read? {text rest : List Char} {l : Lexeme} (h : read? text = some (l, rest)) :
    l.Begins text :=
  ⟨wellSpelled_of_read? h, rest, (append_of_read? h).symm⟩

theorem longest_of_read? {text rest : List Char} {l : Lexeme} (h : read? text = some (l, rest)) :
    l.Longest text := by
  refine ⟨begins_of_read? h, fun m hm => ?_⟩
  obtain ⟨l', rest', hread, hlength⟩ := exists_read?_of_begins hm
  rw [h] at hread
  cases hread
  exact hlength

/-- Two lexemes of one length begin a text only if they are the same. -/
theorem eq_of_begins {l m : Lexeme} {text : List Char} (hl : l.Begins text) (hm : m.Begins text)
    (h : l.spelling.length = m.spelling.length) : l = m := by
  refine spelling_inj hl.1 hm.1 (String.toList_inj.mp ?_)
  have hprefix : l.spelling.toList <+: m.spelling.toList := by
    apply List.prefix_of_prefix_length_le hl.2 hm.2
    rw [String.length_toList, String.length_toList]
    exact Nat.le_of_eq h
  apply hprefix.eq_of_length
  rw [String.length_toList, String.length_toList, h]

/-- Reading takes the longest lexeme off the front of the text. -/
theorem read?_eq_some_iff {text rest : List Char} {l : Lexeme} :
    read? text = some (l, rest) ↔ l.Longest text ∧ text = l.spelling.toList ++ rest := by
  constructor
  · intro h
    exact ⟨longest_of_read? h, append_of_read? h⟩
  · rintro ⟨⟨hbegins, hlongest⟩, htext⟩
    obtain ⟨l', rest', hread, hlength⟩ := exists_read?_of_begins hbegins
    have hsame : l' = l := by
      have hl' := begins_of_read? hread
      exact eq_of_begins hl' hbegins (Nat.le_antisymm (hlongest l' hl') hlength)
    subst hsame
    have hrest : rest' = rest := by
      have := append_of_read? hread
      rw [htext] at this
      exact (List.append_cancel_left this).symm
    rw [hread, hrest]

/-- Nothing is read only where no lexeme begins. -/
theorem read?_eq_none_iff {text : List Char} :
    read? text = none ↔ ∀ m : Lexeme, ¬m.Begins text := by
  constructor
  · intro h m hm
    obtain ⟨l, rest, hread, -⟩ := exists_read?_of_begins hm
    rw [h] at hread
    cases hread
  · intro h
    cases hread : read? text with
    | none => rfl
    | some found => exact absurd (begins_of_read? hread) (h found.1)

end Lexeme

/-! ### What a text is made of -/

/-- A blank between two lexemes, or an element of the scan. -/
inductive Fragment where
  | blank (c : Char)
  | element (e : Scanned)

namespace Fragment

/-- The fragment as it stands in the text. -/
def chars : Fragment → List Char
  | .blank c => [c]
  | .element e => e.spelling.toList

def element? : Fragment → Option Scanned
  | .blank _ => none
  | .element e => some e

/-- What may stand between the text before it and the text behind it: a blank, tab or line break; at
its position, the longest lexeme that begins there, or a character where none begins. -/
inductive Stands (before behind : List Char) : Fragment → Prop where
  | blank {c : Char} (h : c ∈ [' ', '\t', '\n']) : Stands before behind (.blank c)
  | lexeme {l : Lexeme} (h : l.Longest (l.spelling.toList ++ behind)) :
      Stands before behind (.element (.lexeme l (.behind before)))
  | illegal {c : Char} (hc : c ∉ [' ', '\t', '\n']) (h : ∀ m : Lexeme, ¬m.Begins (c :: behind)) :
      Stands before behind (.element (.illegal c (.behind before)))

end Fragment

/-- The rest of a text is these fragments, each of which stands where it may. -/
structure Divides (before rest : List Char) (fragments : List Fragment) : Prop where
  whole : rest = fragments.flatMap Fragment.chars
  stands : ∀ front f back, fragments = front ++ f :: back →
    f.Stands (before ++ front.flatMap Fragment.chars) (back.flatMap Fragment.chars)

theorem divides_nil (before : List Char) : Divides before [] [] where
  whole := rfl
  stands front f back h := by simp at h

theorem Divides.cons {before behind : List Char} {f : Fragment} {fragments : List Fragment}
    (hf : f.Stands before behind) (h : Divides (before ++ f.chars) behind fragments) :
    Divides before (f.chars ++ behind) (f :: fragments) where
  whole := by rw [List.flatMap_cons, ← h.whole]
  stands front g back hsplit := by
    cases front with
    | nil =>
      cases hsplit
      rw [List.flatMap_nil, List.append_nil, ← h.whole]
      exact hf
    | cons first front =>
      cases hsplit
      rw [List.flatMap_cons, ← List.append_assoc]
      exact h.stands front g back rfl

/-- Behind some characters, a scan of the rest of the text meets its elements. -/
theorem exists_divides {before rest : List Char} : ∃ fragments, Divides before rest fragments ∧
    scanFrom (.behind before) rest = fragments.filterMap Fragment.element? := by
  generalize hpos : Pos.behind before = pos
  induction pos, rest using scanFrom.induct generalizing before with
  | case1 pos => exact ⟨[], divides_nil before, by simp [scanFrom]⟩
  | case2 pos rest ih =>
    have hnext : Pos.behind (before ++ ['\n']) = pos.nextLine := by
      rw [Pos.behind_lineBreak, hpos]
    obtain ⟨fragments, hdivides, hscan⟩ := ih hnext
    rw [scanFrom, if_pos rfl, hscan]
    exact ⟨.blank '\n' :: fragments, .cons (.blank (by simp)) hdivides, rfl⟩
  | case3 pos c rest hn hb ih =>
    have hnext : Pos.behind (before ++ [c]) = pos.right 1 := by
      rw [Pos.behind_char before hn, hpos]
    have hc : c ∈ [' ', '\t', '\n'] := by
      rcases hb with rfl | rfl <;> simp
    obtain ⟨fragments, hdivides, hscan⟩ := ih hnext
    rw [scanFrom, if_neg hn, if_pos hb, hscan]
    exact ⟨.blank c :: fragments, .cons (.blank hc) hdivides, rfl⟩
  | case4 pos c rest hn hb l more hr ih =>
    obtain ⟨hlongest, htext⟩ := Lexeme.read?_eq_some_iff.mp hr
    have hnext : Pos.behind (before ++ l.spelling.toList) = pos.right l.spelling.length := by
      rw [Pos.behind_spelling before hlongest.1.1, hpos]
    obtain ⟨fragments, hdivides, hscan⟩ := ih hnext
    rw [scanFrom_some hn hb hr, htext, hscan, ← hpos]
    rw [htext] at hlongest
    exact ⟨_ :: fragments, .cons (.lexeme hlongest) hdivides, rfl⟩
  | case5 pos c rest hn hb hr ih =>
    have hnext : Pos.behind (before ++ [c]) = pos.right 1 := by
      rw [Pos.behind_char before hn, hpos]
    have hc : c ∉ [' ', '\t', '\n'] := by
      simpa [not_or, hn] using hb
    have hstands : Fragment.Stands before rest (.element (.illegal c (.behind before))) :=
      .illegal hc (Lexeme.read?_eq_none_iff.mp hr)
    have hchars : (Fragment.element (.illegal c (.behind before))).chars = [c] := by
      simp [Fragment.chars, Scanned.spelling]
    obtain ⟨fragments, hdivides, hscan⟩ := ih hnext
    rw [← hchars] at hdivides
    rw [scanFrom_none hn hb hr, hscan, ← hpos]
    exact ⟨_ :: fragments, by simpa [hchars] using Divides.cons hstands hdivides, rfl⟩

/-! ### Everything stands where the scan says -/

theorem Fragment.Stands.pos_eq {before behind : List Char} {e : Scanned}
    (h : Stands before behind (.element e)) : e.pos = .behind before := by
  cases h <;> rfl

/-- Behind some characters, a scan of the rest of the text meets everything where it stands. -/
theorem standsAt_of_scanFrom {before rest : List Char} :
    ∀ e ∈ scanFrom (.behind before) rest, StandsAt (before ++ rest) e.spelling e.pos := by
  intro e he
  obtain ⟨fragments, ⟨hwhole, hstands⟩, hscan⟩ := @exists_divides before rest
  rw [hscan] at he
  obtain ⟨f, hf, hfe⟩ := List.mem_filterMap.mp he
  cases f with
  | blank c => cases hfe
  | element e' =>
    cases hfe
    obtain ⟨front, back, hsplit⟩ := List.append_of_mem hf
    refine ⟨before ++ front.flatMap Fragment.chars, back.flatMap Fragment.chars, ?_,
      (hstands front _ back hsplit).pos_eq⟩
    rw [hwhole, hsplit, List.flatMap_append, List.flatMap_cons, List.append_assoc]
    rfl

/-- Every lexeme and every illegal character of a text stands where its scan says. -/
theorem standsAt_of_scan {text : String} :
    ∀ e ∈ scan text, StandsAt text.toList e.spelling e.pos :=
  @standsAt_of_scanFrom [] text.toList

/-- Counted back from the line and offset of an element, its position is the same. -/
theorem ofOffset_of_scan {text : String} :
    ∀ e ∈ scan text, Pos.ofOffset text e.pos.line e.pos.offset = e.pos := by
  intro e he
  obtain ⟨before, rest, htext, hpos⟩ := standsAt_of_scan e he
  rw [hpos]
  exact Pos.ofOffset_eq_behind htext

/-- A text is exactly its blanks, lexemes and illegal characters, in the order of its scan. Each
lexeme is the longest that begins where it stands, at an illegal character none begins, and the
position of either counts the lines and columns of all that stands before it. -/
theorem scan_partition (text : String) : ∃ fragments : List Fragment,
    text.toList = fragments.flatMap Fragment.chars ∧
      scan text = fragments.filterMap Fragment.element? ∧
      ∀ front f back, fragments = front ++ f :: back →
        f.Stands (front.flatMap Fragment.chars) (back.flatMap Fragment.chars) := by
  obtain ⟨fragments, ⟨hwhole, hstands⟩, hscan⟩ := @exists_divides [] text.toList
  exact ⟨fragments, hwhole, hscan, hstands⟩

end ShellSyntax
