import Mathlib.Data.String.Basic
import ShellSyntax.CommandLine.Storage

/-!
# Writing a file

* `Storage.Replaced`: the file of a name has a text, and nothing else has changed;
* `Storage.Writable`: the names under which a file can be written;
* `locate_eq_file_iff`: what a name without directories stands for;
* `write_cases`: a write either fails, or replaces the file of the name.
-/

namespace ShellSyntax

/-! ### Plain names -/

section Splitting

open String

/-- The positions behind `front` hold no separator, so that the whole text is the last part. -/
theorem splitOnAux_of_notMem (front : List Char) {rest : List Char} (h : '/' ∉ rest) :
    splitOnAux (ofList (front ++ rest)) "/" 0 ⟨utf8Len front⟩ 0 [] = [ofList (front ++ rest)] := by
  induction rest generalizing front with
  | nil =>
    have hwhole := extract_of_valid [] front []
    rw [splitOnAux, if_pos (by simp)]
    simpa using hwhole
  | cons c rest ih =>
    obtain ⟨hc, hrest⟩ := List.ne_and_not_mem_of_not_mem_cons h
    have hmore : ¬Pos.Raw.atEnd (ofList (front ++ c :: rest)) ⟨utf8Len front⟩ = true := by
      rw [atEnd_of_valid]
      exact List.cons_ne_nil c rest
    have hget : Pos.Raw.get (ofList (front ++ c :: rest)) ⟨utf8Len front⟩ = c :=
      get_of_valid front (c :: rest)
    have hslash : Pos.Raw.get "/" 0 = '/' := get_of_valid [] ['/']
    have hnext : Pos.Raw.next (ofList (front ++ c :: rest)) (Pos.Raw.unoffsetBy ⟨utf8Len front⟩ 0)
        = ⟨utf8Len (front ++ [c])⟩ := by
      simpa [-ofList_append] using next_of_valid front c rest
    rw [splitOnAux, if_neg hmore, hget, hslash, if_neg (by simpa using hc.symm), hnext]
    simpa only [List.append_assoc, List.singleton_append] using ih (front ++ [c]) hrest

theorem splitOn_of_notMem {s : String} (h : '/' ∉ s.toList) : s.splitOn "/" = [s] := by
  simpa [String.splitOn] using splitOnAux_of_notMem [] h

end Splitting

/-! ### Places -/

namespace Storage

/-- The path of the file that a name stands for, or could stand for. -/
def FilePath (s : Storage) (name path : String) : Prop :=
  s.locate name = .ok (.vacant path) ∨ ∃ text, s.locate name = .ok (.file path text)

/-- A file can be written under the name. -/
def Writable (s : Storage) (name : String) : Prop := ∃ path, s.FilePath name path

/-- In `s'` the name stands for a file with the text, and all else is as in `s`. -/
def Replaced (s : Storage) (name text : String) (s' : Storage) : Prop :=
  ∃ path, s.FilePath name path ∧ s'.locate name = .ok (.file path text) ∧
    s'.get? path = some (.file text) ∧ ∀ other, other ≠ path → s'.get? other = s.get? other

variable {s s' : Storage} {directory parts : List String} {name path text : String}

theorem get?_of_locateFrom_vacant (h : s.locateFrom directory parts = .ok (.vacant path)) :
    s.get? path = none := by
  fun_induction locateFrom s directory parts with grind

theorem get?_of_locateFrom_file (h : s.locateFrom directory parts = .ok (.file path text)) :
    s.get? path = some (.file text) := by
  fun_induction locateFrom s directory parts with grind

/-- A file that is set at the path of a name is found under that name: no directory on the way is
touched. -/
theorem locateFrom_set (hp : s.get? path ≠ some .directory)
    (h : s.locateFrom directory parts = .ok (.vacant path) ∨
      ∃ old, s.locateFrom directory parts = .ok (.file path old)) :
    (s.set path (.file text)).locateFrom directory parts = .ok (.file path text) := by
  fun_induction locateFrom s directory parts with
  | case1 | case3 | case7 | case9 | case10 => simp at h
  | case2 directory part rest hskip ih =>
    rw [locateFrom.eq_def]
    simp only [hskip, if_true, ih h]
  | case4 rest _ outer _ ih => simp [locateFrom, ih h]
  | case5 directory part rest hskip hup here hd ih =>
    have hset : (s.set path (.file text)).get? here = some .directory := by
      rw [get?_set, if_neg (by rintro rfl; exact hp hd), hd]
    rw [locateFrom.eq_def]
    simp only [if_neg hskip, if_neg hup]
    rw [hset]
    exact ih h
  | case6 directory part hskip hup here old hf =>
    obtain rfl : here = path := by simpa using h
    have hset : (s.set here (.file text)).get? here = some (.file text) := by
      rw [get?_set, if_pos rfl]
    rw [locateFrom.eq_def]
    simp only [if_neg hskip, if_neg hup]
    rw [hset]
    rfl
  | case8 directory part hskip hup here hn =>
    obtain rfl : here = path := by simpa using h
    have hset : (s.set here (.file text)).get? here = some (.file text) := by
      rw [get?_set, if_pos rfl]
    rw [locateFrom.eq_def]
    simp only [if_neg hskip, if_neg hup]
    rw [hset]
    rfl

/-- A name of a file leads from the working directory, whatever is stored there. -/
theorem FilePath.locate_eq (h : s.FilePath name path) (t : Storage) :
    t.locate name = t.locateFrom [] (name.splitOn "/") := by
  have hinside : ¬(name = "" ∨ name.toList.head? = some '/') := by
    intro houtside
    rcases h with h | ⟨old, h⟩ <;> rw [locate, if_pos houtside] at h <;> cases h
  rw [locate, if_neg hinside]

theorem get?_of_locate_file (h : s.locate name = .ok (.file path text)) :
    s.get? path = some (.file text) := by
  have hlocate := FilePath.locate_eq (.inr ⟨text, h⟩) s
  exact get?_of_locateFrom_file (hlocate.symm.trans h)

/-- A plain name stands for the file that the working directory has under it. -/
theorem locate_eq_file_iff (hslash : '/' ∉ name.toList) (hdots : name ∉ ["", ".", ".."]) :
    s.locate name = .ok (.file name text) ↔ s.get? name = some (.file text) := by
  refine ⟨get?_of_locate_file, fun hfile => ?_⟩
  simp only [List.mem_cons, List.not_mem_nil, or_false, not_or] at hdots
  obtain ⟨hempty, hhere, hup⟩ := hdots
  have hinside : ¬(name = "" ∨ name.toList.head? = some '/') := by
    rintro (h | h)
    · exact hempty h
    · exact hslash (List.mem_of_head? h)
  rw [locate, if_neg hinside, splitOn_of_notMem hslash]
  simp [locateFrom, hempty, hhere, hup, hfile]

theorem FilePath.get?_ne_directory (h : s.FilePath name path) : s.get? path ≠ some .directory := by
  have hlocate := h.locate_eq s
  rcases h with h | ⟨old, h⟩
  · rw [get?_of_locateFrom_vacant (hlocate.symm.trans h)]
    simp
  · rw [get?_of_locate_file h]
    simp

theorem FilePath.replaced (h : s.FilePath name path) (text : String) :
    s.Replaced name text (s.set path (.file text)) := by
  refine ⟨path, h, ?_, by rw [get?_set, if_pos rfl], fun other hother => ?_⟩
  · rw [h.locate_eq]
    apply locateFrom_set h.get?_ne_directory
    rw [← h.locate_eq]
    exact h
  · rw [get?_set, if_neg hother]

/-- A write under a name that stands for a file, or could, replaces that file; any other fails. -/
theorem write_cases (s : Storage) (name text : String) :
    (∃ s', s.write name text = .ok s' ∧ s.Writable name ∧ s.Replaced name text s') ∨
      ∃ e, s.write name text = .error e ∧ ¬s.Writable name := by
  unfold write
  split
  · rename_i path old hfile
    have h : s.FilePath name path := .inr ⟨old, hfile⟩
    exact .inl ⟨_, rfl, ⟨path, h⟩, h.replaced text⟩
  · rename_i path hvacant
    have h : s.FilePath name path := .inl hvacant
    exact .inl ⟨_, rfl, ⟨path, h⟩, h.replaced text⟩
  · rename_i hdirectory
    refine .inr ⟨_, rfl, ?_⟩
    rintro ⟨path, h | ⟨old, h⟩⟩ <;> rw [hdirectory] at h <;> cases h
  · rename_i hdirectory
    refine .inr ⟨_, rfl, ?_⟩
    rintro ⟨path, h | ⟨old, h⟩⟩ <;> rw [hdirectory] at h <;> cases h
  · rename_i e he
    refine .inr ⟨_, rfl, ?_⟩
    rintro ⟨path, h | ⟨old, h⟩⟩ <;> rw [he] at h <;> cases h

end Storage

end ShellSyntax
