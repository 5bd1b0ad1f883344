import ShellSyntax.Proofs.Tree.Edges

/-!
# Reading a redirection back

The operator of a redirection is read as the longest one that begins the text behind the descriptor.

* `Apart.longest_iff`: this is the operator that was written, but for `<<` in front of a target that
  begins with a minus sign, which is read as `<<-`;
* `redirect_read_back`: so redirections with one text have one operator and one target, unless such
  a sign is in play, or a blank that the target has itself.
-/

namespace ShellSyntax

/-- Of the tokens in the family that begin the text, this is the longest. -/
def Token.Longest (family : List Token) (t : Token) (text : String) : Prop :=
  t ∈ family ∧ t.spelling.toList <+: text.toList ∧
    ∀ u ∈ family, u.spelling.toList <+: text.toList →
      u.spelling.toList.length ≤ t.spelling.toList.length

namespace Token

theorem Longest.unique {family : List Token} {t u : Token} {text : String}
    (ht : Longest family t text) (hu : Longest family u text) : t = u := by
  obtain ⟨htmem, htbegins, htlongest⟩ := ht
  obtain ⟨humem, hubegins, hulongest⟩ := hu
  have hle : t.spelling.toList.length ≤ u.spelling.toList.length := hulongest t htmem htbegins
  have hge : u.spelling.toList.length ≤ t.spelling.toList.length := htlongest u humem hubegins
  apply spelling_inj
  apply String.toList_inj.mp
  exact (List.prefix_of_prefix_length_le htbegins hubegins hle).eq_of_length (by omega)

/-- What a longer operator has behind a shorter one is a redirection sign, but for `<<-`. -/
theorem next_of_longer_redirect : ∀ t ∈ redirects, ∀ u ∈ redirects,
    t.spelling.toList <+: u.spelling.toList → t = u ∨ (t = .lessLess ∧ u = .lessLessDash) ∨
      (u.spelling.toList.drop t.spelling.toList.length).head?.any (· ∈ ['<', '>', '&', '|']) := by
  decide

end Token

namespace Redirect

/-- The file descriptor as written. -/
def descriptorText (r : Redirect) : String := (r.descriptor.map Lit.value).getD ""

/-- What keeps the target from the operator. -/
def gap (r : Redirect) : String := if beginsIn ['<'] r.word.print then " " else ""

/-- What is written behind the descriptor. -/
def action (r : Redirect) : String := r.op.spelling ++ (r.gap ++ r.word.print)

theorem print_eq (r : Redirect) : r.print = r.descriptorText ++ r.action := by
  obtain ⟨op, word, descriptor, pos⟩ := r
  simp only [print, descriptorText, action, gap, String.append_assoc]

/-- The operator redirects, and the target does not begin with a sign that could belong to it. -/
structure Apart (r : Redirect) : Prop where
  redirects : r.op ∈ Token.redirects
  shown : r.word.print ≠ ""
  apart : beginsIn ['>', '&', '|', '('] r.word.print = false

/-- The operator as it is read back. -/
def readOp (r : Redirect) : Token :=
  if r.op = .lessLess ∧ beginsIn ['-'] r.word.print = true then .lessLessDash else r.op

section Apart

variable {r q : Redirect} {u : Token}

/-- A character behind the operator: the blank in front of `<`, or the first of the target. -/
theorem Apart.head_target (h : r.Apart) {c : Char}
    (hc : (r.gap ++ r.word.print).toList.head? = some c) :
    c ∉ ['<', '>', '&', '|'] ∧ (c = '-' → beginsIn ['-'] r.word.print = true) := by
  by_cases hless : beginsIn ['<'] r.word.print = true
  · rw [gap, if_pos hless, String.toList_append] at hc
    obtain rfl : ' ' = c := by simpa using hc
    exact ⟨by decide, fun hdash => absurd hdash (by decide)⟩
  · rw [gap, if_neg hless, String.empty_append] at hc
    have hbegins : ∀ chars, beginsIn chars r.word.print = decide (c ∈ chars) := by
      intro chars
      rw [beginsIn, hc, Option.any_some]
    have hapart := h.apart
    rw [hbegins] at hless hapart ⊢
    refine ⟨?_, fun hdash => by simp [hdash]⟩
    simp only [decide_eq_true_eq, decide_eq_false_iff_not, List.mem_cons, List.not_mem_nil,
      or_false, not_or] at hless hapart ⊢
    exact ⟨hless, hapart.1, hapart.2.1, hapart.2.2.1⟩

theorem Apart.length_le (h : r.Apart) (hu : u ∈ Token.redirects)
    (hbegins : u.spelling.toList <+: r.action.toList) :
    u.spelling.toList.length ≤ r.op.spelling.toList.length ∨
      r.op = .lessLess ∧ u = .lessLessDash ∧ beginsIn ['-'] r.word.print = true := by
  by_cases hle : u.spelling.toList.length ≤ r.op.spelling.toList.length
  · exact .inl hle
  have hop : r.op.spelling.toList <+: r.action.toList := by
    rw [action, String.toList_append]
    exact List.prefix_append _ _
  have hlonger := List.prefix_of_prefix_length_le hop hbegins (by omega)
  obtain ⟨more, hmore⟩ := hlonger
  -- What the longer operator has more begins what is written behind the shorter one.
  have hbehind : more <+: (r.gap ++ r.word.print).toList := by
    rwa [← hmore, action, String.toList_append, List.prefix_append_right_inj] at hbegins
  have hhead : ∀ c, more.head? = some c → (r.gap ++ r.word.print).toList.head? = some c := by
    intro c hc
    obtain ⟨rest, hrest⟩ := hbehind
    rw [← hrest, List.head?_append, hc, Option.some_or]
  have hnext := Token.next_of_longer_redirect r.op h.redirects u hu ⟨more, hmore⟩
  rw [← hmore, List.drop_left] at hnext
  rcases hnext with rfl | ⟨hless, hdash⟩ | hsign
  · exact absurd (Nat.le_refl _) hle
  · have hdashed : more = ['-'] := by
      rw [hless, hdash] at hmore
      simpa [Token.spelling] using hmore
    have hminus := (h.head_target (hhead '-' (by rw [hdashed]; rfl))).2 rfl
    exact .inr ⟨hless, hdash, hminus⟩
  · cases hc : more.head? with
    | none => simp [hc] at hsign
    | some c =>
      rw [hc, Option.any_some, decide_eq_true_eq] at hsign
      exact absurd hsign (h.head_target (hhead c hc)).1

theorem gap_of_word {s t : String} (hword : r.word.print = s ++ t) (hs : s ≠ "")
    (hless : beginsIn ['<'] s = false) : r.gap = "" := by
  rw [gap, hword, beginsIn_fixed hs, hless]
  rfl

theorem lessLessDash_of_dash (h : r.op = .lessLess) (hdash : beginsIn ['-'] r.word.print = true) :
    ∃ rest, r.word.print = "-" ++ rest ∧ r.action = Token.lessLessDash.spelling ++ rest := by
  obtain ⟨rest, hword⟩ := exists_of_beginsIn hdash
  have hgap : r.gap = "" := gap_of_word hword (by decide) (by decide)
  refine ⟨String.ofList rest, hword, ?_⟩
  rw [action, h, hgap, hword, String.empty_append, ← String.append_assoc]
  rfl

/-- Behind the descriptor, one operator is the longest. -/
theorem Apart.longest_iff (h : r.Apart) :
    Token.Longest Token.redirects u r.action ↔ u = r.readOp := by
  have hread : Token.Longest Token.redirects r.readOp r.action := by
    by_cases hdash : r.op = .lessLess ∧ beginsIn ['-'] r.word.print = true
    · rw [readOp, if_pos hdash]
      obtain ⟨rest, -, haction⟩ := lessLessDash_of_dash hdash.1 hdash.2
      refine ⟨by decide, by rw [haction, String.toList_append]; exact List.prefix_append _ _, ?_⟩
      intro t ht hbegins
      rcases h.length_le ht hbegins with hle | ⟨-, rfl, -⟩
      · rw [hdash.1] at hle
        exact Nat.le_trans hle (by decide)
      · exact Nat.le_refl _
    · rw [readOp, if_neg hdash]
      refine ⟨h.redirects, by rw [action, String.toList_append]; exact List.prefix_append _ _, ?_⟩
      intro t ht hbegins
      rcases h.length_le ht hbegins with hle | ⟨hless, -, hminus⟩
      · exact hle
      · exact absurd ⟨hless, hminus⟩ hdash
  constructor
  · intro hu
    exact hu.unique hread
  · rintro rfl
    exact hread

/-- What is written as `r` is read as `q`: a minus sign is taken for part of the operator, or a
blank of the target for the one that keeps it from the operator. -/
inductive Mistaken (r q : Redirect) : Prop
  | dash (hop : r.op = .lessLess) (hread : q.op = .lessLessDash)
      (hword : r.word.print = "-" ++ (q.gap ++ q.word.print)) : Mistaken r q
  | blank (hop : r.op = q.op) (hless : beginsIn ['<'] q.word.print = true)
      (hword : r.word.print = " " ++ q.word.print) : Mistaken r q

theorem Mistaken.action_eq (h : r.Mistaken q) : r.action = q.action := by
  cases h with
  | dash hop hread hword =>
    have hgap : r.gap = "" := gap_of_word hword (by decide) (by decide)
    rw [action, action, hop, hread, hgap, hword, String.empty_append, ← String.append_assoc]
    rfl
  | blank hop hless hword =>
    have hgap : r.gap = "" := gap_of_word hword (by decide) (by decide)
    rw [action, action, hop, hgap, hword, gap, if_pos hless, String.empty_append]

theorem mistaken_of_dash (hop : r.op = .lessLess) (hdash : beginsIn ['-'] r.word.print = true)
    (hread : q.op = .lessLessDash) (h : r.action = q.action) : r.Mistaken q := by
  obtain ⟨rest, hword, haction⟩ := lessLessDash_of_dash hop hdash
  rw [haction, action, hread, String.append_right_inj] at h
  exact .dash hop hread (h ▸ hword)

/-- Behind one operator, only a blank can be mistaken. -/
theorem word_eq_of_gap (h : r.gap ++ r.word.print = q.gap ++ q.word.print) (hop : r.op = q.op) :
    r.word.print = q.word.print ∨ r.Mistaken q ∨ q.Mistaken r := by
  by_cases hr : beginsIn ['<'] r.word.print = true <;>
    by_cases hq : beginsIn ['<'] q.word.print = true
  · rw [gap, gap, if_pos hr, if_pos hq] at h
    exact .inl (String.append_right_inj _ |>.mp h)
  · rw [gap, gap, if_pos hr, if_neg hq, String.empty_append] at h
    exact .inr (.inr (.blank hop.symm hr h.symm))
  · rw [gap, gap, if_neg hr, if_pos hq, String.empty_append] at h
    exact .inr (.inl (.blank hop hq h))
  · rw [gap, gap, if_neg hr, if_neg hq, String.empty_append, String.empty_append] at h
    exact .inl h

/-- Redirections that are written alike behind their descriptors. -/
theorem Apart.action_eq_iff (hr : r.Apart) (hq : q.Apart) : r.action = q.action ↔
    (r.op = q.op ∧ r.word.print = q.word.print) ∨ r.Mistaken q ∨ q.Mistaken r := by
  constructor
  · intro h
    have hread : r.readOp = q.readOp := by
      apply hq.longest_iff.mp
      rw [← h]
      exact hr.longest_iff.mpr rfl
    by_cases hrdash : r.op = .lessLess ∧ beginsIn ['-'] r.word.print = true <;>
      by_cases hqdash : q.op = .lessLess ∧ beginsIn ['-'] q.word.print = true
    · have hop : r.op = q.op := hrdash.1.trans hqdash.1.symm
      rw [action, action, hop, String.append_right_inj] at h
      exact (word_eq_of_gap h hop).imp_left (⟨hop, ·⟩)
    · rw [readOp, if_pos hrdash, readOp, if_neg hqdash] at hread
      exact .inr (.inl (mistaken_of_dash hrdash.1 hrdash.2 hread.symm h))
    · rw [readOp, if_neg hrdash, readOp, if_pos hqdash] at hread
      exact .inr (.inr (mistaken_of_dash hqdash.1 hqdash.2 hread h.symm))
    · rw [readOp, if_neg hrdash, readOp, if_neg hqdash] at hread
      rw [action, action, hread, String.append_right_inj] at h
      exact (word_eq_of_gap h hread).imp_left (⟨hread, ·⟩)
  · rintro (⟨hop, hword⟩ | hmistaken | hmistaken)
    · rw [action, action, gap, gap, hop, hword]
    · exact hmistaken.action_eq
    · exact hmistaken.action_eq.symm

end Apart

end Redirect

/-- Behind the descriptor, the longest operator is the one written, unless that is `<<` and the
target begins with a minus sign. The target follows, behind a blank if it begins with `<`. So two
redirections of one descriptor with the same text have the same operator and the same target text,
unless such a sign was taken for part of the operator or a blank of a target for the one between. -/
theorem redirect_read_back (r : Redirect) (hr : r.Apart) :
    r.print = r.descriptorText ++ (r.op.spelling ++ (r.gap ++ r.word.print)) ∧
    (∀ t, Token.Longest Token.redirects t (r.op.spelling ++ (r.gap ++ r.word.print)) ↔
      t = if r.op = .lessLess ∧ beginsIn ['-'] r.word.print = true then .lessLessDash else r.op) ∧
    ∀ q : Redirect, q.Apart → r.descriptorText = q.descriptorText →
      (r.print = q.print ↔
        (r.op = q.op ∧ r.word.print = q.word.print) ∨ r.Mistaken q ∨ q.Mistaken r) := by
  refine ⟨r.print_eq, fun t => hr.longest_iff, ?_⟩
  intro q hq hdescriptor
  rw [r.print_eq, q.print_eq, hdescriptor, String.append_right_inj]
  exact hr.action_eq_iff hq

/-- A list read as a file keeps its blank behind `<`, and is not read as `<<` with a subshell. -/
theorem redirect_read_back_input : ∃ r q : Redirect,
    r.Apart ∧ q.Apart ∧ r.descriptorText = q.descriptorText ∧ r.print = "0< <(a)" ∧
      q.print = "0<<-a" ∧ Token.Longest Token.redirects .less "< <(a)" ∧
      Token.Longest Token.redirects .lessLessDash "<<-a" ∧
      (r.print = q.print ↔
        (r.op = q.op ∧ r.word.print = q.word.print) ∨ r.Mistaken q ∨ q.Mistaken r) := by
  let s : Stmt := { command := some (.simple [.ofLit "a"]) }
  let r : Redirect := ⟨.less, ⟨[.cmdInput [s] {} {}]⟩, some ⟨"0", {}⟩, {}⟩
  let q : Redirect := ⟨.lessLess, .ofLit "-a", some ⟨"0", {}⟩, {}⟩
  have hr : r.Apart := ⟨by decide, by decide, by decide⟩
  have hq : q.Apart := ⟨by decide, by decide, by decide⟩
  have hrtext : r.op.spelling ++ (r.gap ++ r.word.print) = "< <(a)" := by decide
  have hqtext : q.op.spelling ++ (q.gap ++ q.word.print) = "<<-a" := by decide
  obtain ⟨-, readsFirst, alike⟩ := redirect_read_back r hr
  obtain ⟨-, readsSecond, -⟩ := redirect_read_back q hq
  have hrop := (readsFirst .less).mpr (by decide)
  have hqop := (readsSecond .lessLessDash).mpr (by decide)
  rw [hrtext] at hrop
  rw [hqtext] at hqop
  exact ⟨r, q, hr, hq, rfl, by decide, by decide, hrop, hqop, alike q hq rfl⟩

/-- A target that begins with a minus sign runs together with the operator. -/
theorem dash_read_as_operator : ∃ r q : Redirect,
    r.Apart ∧ q.Apart ∧ r.descriptor = q.descriptor ∧ r.print = "<<-EOF" ∧ q.print = "<<-EOF" ∧
      r.op = .lessLess ∧ q.op = .lessLessDash ∧ r.word.print = "-EOF" ∧ q.word.print = "EOF" ∧
      ¬Token.Longest Token.redirects r.op r.print := by
  refine ⟨{ op := .lessLess, word := .ofLit "-EOF" }, { op := .lessLessDash, word := .ofLit "EOF" },
    ⟨by decide, by decide, by decide⟩, ⟨by decide, by decide, by decide⟩, rfl, by decide,
    by decide, rfl, rfl, by decide, by decide, ?_⟩
  rintro ⟨-, -, hlongest⟩
  exact absurd (hlongest .lessLessDash (by decide) (by decide)) (by decide)

end ShellSyntax
