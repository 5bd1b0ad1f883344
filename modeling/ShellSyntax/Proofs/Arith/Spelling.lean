import ShellSyntax.Arith.Lexeme

/-!
# How lexemes are spelled

* `Lexeme.WellSpelled`: the words of each class of lexemes;
* `Lexeme.EndsAt`: what stands behind a lexeme does not continue it;
* `Lexeme.read?_spelling_append`: a well-spelled lexeme is read wherever it ends;
* `Lexeme.wellSpelled_of_read?`: nothing else is ever read.
-/

namespace ShellSyntax

/-- A run of digits, or a run of hexadecimal digits behind `0x`. -/
def IsNumber (text : String) : Prop :=
  text ≠ "" ∧ text.toList.all Char.isDigit = true ∨
    ∃ x digits, (x = 'x' ∨ x = 'X') ∧ digits ≠ [] ∧ digits.all isHexDigit = true ∧
      text.toList = '0' :: x :: digits

namespace Lexeme

def WellSpelled : Lexeme → Prop
  | .name text => IsName text
  | .number text => IsNumber text
  | .param text => IsName text ∨ ∃ c, c.isDigit = true ∧ text = String.ofList [c]
  | .op token => token ∈ operators

/-- The characters behind which an operator would go on as a longer one. -/
def followers (t : Token) : List Char := operators.filterMap fun u =>
  if t.spelling.toList.isPrefixOf u.spelling.toList then
    (u.spelling.toList.drop t.spelling.toList.length).head?
  else none

/-- Whether the character would make a longer lexeme. -/
def continuedBy : Lexeme → Char → Bool
  | .op token, c => c ∈ followers token
  | _, c => isNameChar c

/-- The lexeme ends where the text begins. -/
def EndsAt (l : Lexeme) (text : List Char) : Prop := ∀ c ∈ text.head?, l.continuedBy c = false

end Lexeme

/-! ### Characters -/

theorem isNameChar_of_isNameStart {c : Char} (h : isNameStart c = true) : isNameChar c = true := by
  simp [isNameChar, h]

theorem isNameChar_of_isDigit {c : Char} (h : c.isDigit = true) : isNameChar c = true := by
  simp [isNameChar, h]

theorem isNameStart_iff {c : Char} :
    isNameStart c = true ↔ 'A' ≤ c ∧ c ≤ 'Z' ∨ 'a' ≤ c ∧ c ≤ 'z' ∨ c = '_' := by
  have halpha : c.isAlpha
      = (decide ('A' ≤ c ∧ c ≤ 'Z') || (decide ('a' ≤ c) && decide (c ≤ 'z'))) := rfl
  simp only [isNameStart, halpha, Bool.or_eq_true, Bool.and_eq_true, decide_eq_true_eq, or_assoc]

theorem isNameStart_eq_false_of_isDigit {c : Char} (h : c.isDigit = true) :
    isNameStart c = false := by
  cases hs : isNameStart c with
  | false => rfl
  | true =>
    simp only [Char.isDigit, Bool.and_eq_true, decide_eq_true_eq] at h
    rcases isNameStart_iff.mp hs with hs | hs | rfl
    · exact absurd (UInt32.le_trans hs.1 h.2) (by decide)
    · exact absurd (UInt32.le_trans hs.1 h.2) (by decide)
    · exact absurd h.2 (by decide)

theorem isNameChar_of_isHexDigit {c : Char} (h : isHexDigit c = true) : isNameChar c = true := by
  simp only [isHexDigit, Bool.or_eq_true, Bool.and_eq_true, decide_eq_true_eq] at h
  rcases h with (h | h) | h
  · exact isNameChar_of_isDigit h
  · apply isNameChar_of_isNameStart
    exact isNameStart_iff.mpr (Or.inr (Or.inl ⟨h.1, UInt32.le_trans h.2 (by decide)⟩))
  · apply isNameChar_of_isNameStart
    exact isNameStart_iff.mpr (Or.inl ⟨h.1, UInt32.le_trans h.2 (by decide)⟩)

/-- A text that does not begin in one class of characters does not begin in a narrower one. -/
theorem head_narrower {p q : Char → Bool} (hpq : ∀ {c}, p c = true → q c = true)
    {text : List Char} (h : ∀ c ∈ text.head?, q c = false) : ∀ c ∈ text.head?, p c = false := by
  intro c hc
  cases hp : p c with
  | false => rfl
  | true => exact absurd (h c hc) (by simp [hpq hp])

/-- What ends before a character that fails the test is what the test runs over. -/
theorem takeWhile_append_of_head {p : Char → Bool} {front rest : List Char}
    (hf : front.all p = true) (hr : ∀ c ∈ rest.head?, p c = false) :
    (front ++ rest).takeWhile p = front ∧ (front ++ rest).dropWhile p = rest := by
  have hf' : ∀ c ∈ front, p c = true := List.all_eq_true.mp hf
  rw [List.takeWhile_append_of_pos hf', List.dropWhile_append_of_pos hf']
  cases rest with
  | nil => simp
  | cons c more =>
    have hc : p c = false := hr c rfl
    simp [hc]

namespace Lexeme

/-! ### Reading gives back what is well spelled -/

theorem read?_name {text : String} {rest : List Char} (hn : IsName text)
    (he : (name text).EndsAt rest) :
    read? (text.toList ++ rest) = some (.name text, rest) := by
  unfold IsName at hn
  split at hn
  · exact absurd hn id
  · rename_i c more hc
    obtain ⟨hs, hm⟩ := hn
    have hd : c ≠ '$' := by
      rintro rfl
      exact absurd hs (by decide)
    obtain ⟨ht, hr⟩ := takeWhile_append_of_head hm he
    have hl : String.ofList (c :: more) = text := by rw [← hc, String.ofList_toList]
    simp only [hc, List.cons_append, read?, hd, if_false, hs, if_true, run, ht, hr, hl]

theorem read?_param {text : String} {rest : List Char}
    (hp : IsName text ∨ ∃ c, c.isDigit = true ∧ text = String.ofList [c])
    (he : (param text).EndsAt rest) :
    read? ('$' :: text.toList ++ rest) = some (.param text, rest) := by
  rcases hp with hn | ⟨c, hc, rfl⟩
  · unfold IsName at hn
    split at hn
    · exact absurd hn id
    · rename_i c more hc
      obtain ⟨hs, hm⟩ := hn
      obtain ⟨ht, hr⟩ := takeWhile_append_of_head hm he
      have hl : String.ofList (c :: more) = text := by rw [← hc, String.ofList_toList]
      simp only [hc, List.cons_append, read?, if_true, readParam?, hs, run, ht, hr, hl]
  · have hs := isNameStart_eq_false_of_isDigit hc
    simp [read?, readParam?, hs, hc]

theorem readNumber_of_digits {front rest : List Char} (hf : front ≠ [])
    (hd : front.all Char.isDigit = true) (hr : ∀ c ∈ rest.head?, isNameChar c = false) :
    readNumber (front ++ rest) = (.number (.ofList front), rest) := by
  obtain ⟨ht, hw⟩ := takeWhile_append_of_head hd (head_narrower @isNameChar_of_isDigit hr)
  unfold readNumber
  split
  · rename_i x d more heq
    -- The `x` would stand among the digits, or behind them where no letter may.
    have hx : ¬ (x = 'x' ∨ x = 'X') := by
      intro hx
      cases front with
      | nil => exact hf rfl
      | cons c front =>
        rw [List.cons_append, List.cons.injEq] at heq
        cases front with
        | nil =>
          have := hr x (by rw [List.nil_append] at heq; rw [heq.2]; rfl)
          rcases hx with rfl | rfl <;> exact absurd this (by decide)
        | cons e front =>
          have he : e = x := by
            rw [List.cons_append, List.cons.injEq] at heq
            exact heq.2.1
          subst he
          simp only [List.all_cons, Bool.and_eq_true] at hd
          rcases hx with rfl | rfl <;> exact absurd hd.2.1 (by decide)
    have hb : ¬((x = 'x' || x = 'X') && isHexDigit d) = true := by
      simp only [Bool.and_eq_true, Bool.or_eq_true, decide_eq_true_eq]
      exact fun h => hx h.1
    rw [if_neg hb, ← heq, run, ht, hw]
  · rw [run, ht, hw]

theorem read?_number {text : String} {rest : List Char} (hn : IsNumber text)
    (he : (number text).EndsAt rest) :
    read? (text.toList ++ rest) = some (.number text, rest) := by
  have digitFirst : ∀ c more, text.toList = c :: more → c.isDigit = true →
      read? (text.toList ++ rest) = some (readNumber (text.toList ++ rest)) := by
    intro c more hc hd
    have hs := isNameStart_eq_false_of_isDigit hd
    have hne : c ≠ '$' := by
      rintro rfl
      exact absurd hd (by decide)
    simp only [hc, List.cons_append, read?, hne, if_false, hs, Bool.false_eq_true, hd, if_true]
  rcases hn with ⟨hne, hd⟩ | ⟨x, digits, hx, hne, hd, hl⟩
  · have hf : text.toList ≠ [] := by simpa using hne
    have hr := readNumber_of_digits hf hd he
    cases hc : text.toList with
    | nil => exact absurd hc hf
    | cons c more =>
      have hdc : c.isDigit = true := by
        rw [hc, List.all_cons, Bool.and_eq_true] at hd
        exact hd.1
      rw [← hc, digitFirst c more hc hdc, hr, String.ofList_toList]
  · have hr : ∀ c ∈ rest.head?, isHexDigit c = false := by
      intro c hc
      cases hh : isHexDigit c with
      | false => rfl
      | true => exact absurd (he c hc) (by simp [continuedBy, isNameChar_of_isHexDigit hh])
    rw [digitFirst '0' (x :: digits) hl (by decide), hl]
    cases digits with
    | nil => exact absurd rfl hne
    | cons d more =>
      simp only [List.all_cons, Bool.and_eq_true] at hd
      obtain ⟨ht, hw⟩ := takeWhile_append_of_head hd.2 (head_narrower @isNameChar_of_isHexDigit he)
      have hb : ((x = 'x' || x = 'X') && isHexDigit d) = true := by
        rcases hx with rfl | rfl <;> simp [hd.1]
      have ho : String.ofList ('0' :: x :: d :: more) = text := by rw [← hl, String.ofList_toList]
      simp only [List.cons_append, readNumber, hb, if_true, run, ht, hw, ho]

theorem operators_longest_first :
    operators.Pairwise fun t u => u.spelling.toList.length ≤ t.spelling.toList.length := by
  decide

theorem operators_nodup : operators.Nodup := by
  decide

/-- Of two operators at the front of one text, the one that ends there is the longer. -/
theorem eq_of_isPrefix {t u : Token} {rest : List Char} (hu : u ∈ operators)
    (he : (op t).EndsAt rest) (hp : u.spelling.toList <+: t.spelling.toList ++ rest)
    (hl : t.spelling.toList.length ≤ u.spelling.toList.length) : u = t := by
  have htu : t.spelling.toList <+: u.spelling.toList :=
    List.prefix_of_prefix_length_le (List.prefix_append _ _) hp hl
  obtain ⟨more, hm⟩ := htu
  cases more with
  | nil =>
    rw [List.append_nil] at hm
    exact Token.spelling_inj (String.toList_inj.mp hm.symm)
  | cons c more =>
    rw [← hm, List.prefix_append_right_inj] at hp
    obtain ⟨tail, ht⟩ := hp
    have hc : (op t).continuedBy c = false := he c (by rw [← ht]; rfl)
    have hcu : c ∈ followers t := by
      refine List.mem_filterMap.mpr ⟨u, hu, ?_⟩
      rw [← hm, if_pos (by simp), List.drop_left]
      rfl
    simp only [continuedBy, decide_eq_false_iff_not] at hc
    exact absurd hcu hc

theorem readOperator?_append {t : Token} {rest : List Char} (ht : t ∈ operators)
    (he : (op t).EndsAt rest) :
    readOperator? (t.spelling.toList ++ rest) = some (.op t, rest) := by
  have hf : (operators.find? fun u => u.spelling.toList.isPrefixOf (t.spelling.toList ++ rest))
      = some t := by
    rw [List.find?_eq_some_iff_append]
    obtain ⟨before, after, hs⟩ := List.append_of_mem ht
    refine ⟨by simp, before, after, hs, ?_⟩
    intro u hu
    have longer := operators_longest_first
    have nodup := operators_nodup
    rw [hs, List.pairwise_append] at longer
    rw [hs, List.nodup_append] at nodup
    have hl := longer.2.2 u hu t List.mem_cons_self
    have hne : u ≠ t := nodup.2.2 u hu t List.mem_cons_self
    have hm : u ∈ operators := by
      rw [hs]
      exact List.mem_append_left _ hu
    simp only [Bool.not_eq_true']
    cases hp : u.spelling.toList.isPrefixOf (t.spelling.toList ++ rest) with
    | false => rfl
    | true => exact absurd (eq_of_isPrefix hm he (List.isPrefixOf_iff_prefix.mp hp) hl) hne
  have hd : (t.spelling.toList ++ rest).drop t.spelling.length = rest := by
    rw [← String.length_toList]
    exact List.drop_left
  simp only [readOperator?, hf, Option.map_some, hd]

/-- The first character of an operator begins no name, number or parameter. -/
theorem operator_head : ∀ t ∈ operators, ∃ c more, t.spelling.toList = c :: more ∧ c ≠ '$' ∧
    isNameStart c = false ∧ c.isDigit = false := by
  have hall : ∀ t ∈ operators, t.spelling.toList.head?.any (fun c =>
      c ≠ '$' && !isNameStart c && !c.isDigit) = true := by
    decide
  intro t ht
  have h := hall t ht
  cases hc : t.spelling.toList with
  | nil => rw [hc] at h; cases h
  | cons c more =>
    rw [hc] at h
    simp only [List.head?_cons, Option.any_some, Bool.and_eq_true, decide_eq_true_eq,
      Bool.not_eq_true'] at h
    exact ⟨c, more, rfl, h.1.1, h.1.2, h.2⟩

theorem read?_op {t : Token} {rest : List Char} (ht : t ∈ operators) (he : (op t).EndsAt rest) :
    read? (t.spelling.toList ++ rest) = some (.op t, rest) := by
  have hr := readOperator?_append ht he
  obtain ⟨c, more, hc, hne, hs, hd⟩ := operator_head t ht
  rw [hc, List.cons_append] at hr ⊢
  simp only [read?, hne, hs, hd, if_false, Bool.false_eq_true, hr]

/-- The reading of a well-spelled lexeme, wherever it ends. -/
theorem read?_spelling_append {l : Lexeme} {rest : List Char} (hl : l.WellSpelled)
    (he : l.EndsAt rest) : read? (l.spelling.toList ++ rest) = some (l, rest) := by
  cases l with
  | name text => exact read?_name hl he
  | number text => exact read?_number hl he
  | param text =>
    have h := read?_param hl he
    simpa [spelling] using h
  | op t => exact read?_op hl he

/-! ### What is read is well spelled -/

theorem isName_of_read {c : Char} {text : List Char} (hs : isNameStart c = true) :
    IsName (.ofList (c :: text.takeWhile isNameChar)) := by
  have ha : (text.takeWhile isNameChar).all isNameChar = true := by
    exact List.all_takeWhile
  simp only [IsName, String.toList_ofList]
  exact ⟨hs, ha⟩

theorem wellSpelled_of_readParam? {text rest : List Char} {l : Lexeme}
    (h : readParam? text = some (l, rest)) : l.WellSpelled := by
  cases text with
  | nil => simp [readParam?] at h
  | cons c more =>
    simp only [readParam?] at h
    split at h
    · rename_i hs
      cases h
      exact Or.inl (isName_of_read hs)
    · split at h
      · rename_i hd
        cases h
        exact Or.inr ⟨c, hd, rfl⟩
      · simp at h

theorem wellSpelled_digits {c : Char} {text : List Char} (hc : c.isDigit = true) :
    IsNumber (.ofList ((c :: text).takeWhile Char.isDigit)) := by
  refine Or.inl ⟨by simp [hc], ?_⟩
  rw [String.toList_ofList]
  exact List.all_takeWhile

theorem wellSpelled_readNumber {c : Char} {text : List Char} (hc : c.isDigit = true) :
    (readNumber (c :: text)).1.WellSpelled := by
  unfold readNumber
  split
  · rename_i x d more heq
    split
    · rename_i hb
      simp only [Bool.and_eq_true, Bool.or_eq_true, decide_eq_true_eq] at hb
      refine Or.inr ⟨x, d :: more.takeWhile isHexDigit, hb.1, by simp, ?_, by simp⟩
      rw [List.all_cons, hb.2, Bool.true_and]
      exact List.all_takeWhile
    · exact wellSpelled_digits (by decide)
  · exact wellSpelled_digits hc

theorem wellSpelled_of_read? {text rest : List Char} {l : Lexeme}
    (h : read? text = some (l, rest)) : l.WellSpelled := by
  cases text with
  | nil => simp [read?] at h
  | cons c more =>
    simp only [read?] at h
    split at h
    · exact wellSpelled_of_readParam? h
    · split at h
      · rename_i hs
        cases h
        exact isName_of_read hs
      · split at h
        · rename_i hd
          have hw := @wellSpelled_readNumber c more hd
          rw [Option.some.inj h] at hw
          exact hw
        · obtain ⟨t, ht, he⟩ := Option.map_eq_some_iff.mp h
          cases he
          exact List.mem_of_find?_eq_some ht

/-! ### The characters of a lexeme -/

theorem isNameChar_of_mem_name {text : String} (h : IsName text) :
    ∀ c ∈ text.toList, isNameChar c = true := by
  unfold IsName at h
  split at h
  · exact absurd h id
  · rename_i first rest htext
    intro c hc
    rw [htext] at hc
    rcases List.mem_cons.mp hc with rfl | hc
    · exact isNameChar_of_isNameStart h.1
    · exact List.all_eq_true.mp h.2 c hc

theorem isNameChar_of_mem_number {text : String} (h : IsNumber text) :
    ∀ c ∈ text.toList, isNameChar c = true := by
  intro c hc
  rcases h with ⟨-, hd⟩ | ⟨x, digits, hx, -, hd, htext⟩
  · exact isNameChar_of_isDigit (List.all_eq_true.mp hd c hc)
  · rw [htext] at hc
    rcases List.mem_cons.mp hc with rfl | hc
    · decide
    · rcases List.mem_cons.mp hc with rfl | hc
      · rcases hx with rfl | rfl <;> decide
      · exact isNameChar_of_isHexDigit (List.all_eq_true.mp hd c hc)

/-- A name, number or parameter has letters, digits and underscores, and perhaps a dollar sign. -/
theorem isNameChar_of_mem_operand {l : Lexeme} (hl : l.WellSpelled) (hno : ∀ t, l ≠ .op t) :
    ∀ c ∈ l.spelling.toList, isNameChar c = true ∨ c = '$' := by
  intro c hc
  cases l with
  | op t => exact absurd rfl (hno t)
  | name text => exact Or.inl (isNameChar_of_mem_name hl c hc)
  | number text => exact Or.inl (isNameChar_of_mem_number hl c hc)
  | param text =>
    have hmem : c = '$' ∨ c ∈ text.toList := by simpa [spelling] using hc
    rcases hmem with rfl | hmem
    · exact Or.inr rfl
    · rcases hl with hname | ⟨d, hd, rfl⟩
      · exact Or.inl (isNameChar_of_mem_name hname c hmem)
      · rw [String.toList_ofList, List.mem_singleton] at hmem
        rw [hmem]
        exact Or.inl (isNameChar_of_isDigit hd)

end Lexeme

end ShellSyntax
