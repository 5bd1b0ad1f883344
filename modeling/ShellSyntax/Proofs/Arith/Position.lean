import ShellSyntax.Proofs.Arith.Scanning

/-!
# Positions in a text

* `Pos.behind`: the position behind the first characters of a text, counted from its line breaks;
* `Pos.ofOffset_eq_behind`: an offset and the number of its line give this position again;
* `StandsAt`: a text has these characters at the position;
* `Pos.behind_lineBreak`, `Pos.behind_char`, `Pos.behind_spelling`: how positions go on behind what
  a scan goes over.
-/

namespace ShellSyntax

namespace Pos

/-- The position of the next character behind those that begin a text. Lines count from one, columns
from the last line break. -/
def behind (before : List Char) : Pos where
  line := (1 + before.count '\n' : Nat)
  column := (1 + (before.reverse.takeWhile (· ≠ '\n')).length : Nat)
  offset := before.length

theorem behind_lineBreak (before : List Char) :
    behind (before ++ ['\n']) = (behind before).nextLine := by
  simp [behind, nextLine]
  omega

theorem behind_append (before : List Char) {more : List Char} (h : '\n' ∉ more) :
    behind (before ++ more) = (behind before).right more.length := by
  have hall : ∀ c ∈ more.reverse, decide (c ≠ '\n') = true := by
    intro c hc
    have hne : c ≠ '\n' := by
      rintro rfl
      exact h (List.mem_reverse.mp hc)
    simpa using hne
  have hcolumn : ((before ++ more).reverse.takeWhile (· ≠ '\n')).length
      = (before.reverse.takeWhile (· ≠ '\n')).length + more.length := by
    rw [List.reverse_append, List.takeWhile_append_of_pos hall, List.length_append,
      List.length_reverse, Nat.add_comm]
  simp only [behind, right, hcolumn, List.count_append, List.count_eq_zero.mpr h,
    List.length_append, Nat.add_zero, mk.injEq, true_and]
  omega

theorem behind_char (before : List Char) {c : Char} (h : c ≠ '\n') :
    behind (before ++ [c]) = (behind before).right 1 :=
  behind_append before (by simpa using Ne.symm h)

/-- Counted back from an offset and its line, the column is the same. -/
theorem ofOffset_eq_behind {text : String} {before rest : List Char}
    (h : text.toList = before ++ rest) :
    ofOffset text (1 + before.count '\n' : Nat) before.length = behind before := by
  have htake : text.toList.take before.length = before := by
    rw [h, List.take_left]
  have hstop : ¬(before.length : Int) < 0 := by omega
  simp only [ofOffset, if_neg hstop, Int.toNat_natCast, htake, behind, mk.injEq, true_and, and_true]
  omega

end Pos

/-- The text has this spelling, and the position is that of its first character. -/
def StandsAt (text : List Char) (spelling : String) (pos : Pos) : Prop :=
  ∃ before rest, text = before ++ (spelling.toList ++ rest) ∧ pos = .behind before

namespace Scanned

/-- An element of a scan as it stands in the text. -/
def spelling : Scanned → String
  | .lexeme l _ => l.spelling
  | .illegal c _ => c.toString

def pos : Scanned → Pos
  | .lexeme _ pos | .illegal _ pos => pos

end Scanned

/-- No lexeme goes on behind a line break. -/
theorem Lexeme.lineBreak_notMem {l : Lexeme} (hl : l.WellSpelled) : '\n' ∉ l.spelling.toList := by
  cases l with
  | op t =>
    have hall : ∀ t ∈ operators, '\n' ∉ t.spelling.toList := by
      decide
    exact hall t hl
  | name text | number text | param text =>
    intro hm
    rcases isNameChar_of_mem_operand hl (by simp) _ hm with h | h <;> revert h <;> decide

/-- A lexeme stays on its line. -/
theorem Pos.behind_spelling (before : List Char) {l : Lexeme} (hl : l.WellSpelled) :
    behind (before ++ l.spelling.toList) = (behind before).right l.spelling.length := by
  rw [behind_append before (Lexeme.lineBreak_notMem hl), String.length_toList]

end ShellSyntax
