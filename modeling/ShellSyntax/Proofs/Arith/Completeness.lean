import ShellSyntax.Proofs.Arith.Grouping
import ShellSyntax.Proofs.Tree.Unplaced

/-!
# Every grouped expression is read

The lexemes of a legal and grouped expression are read as that expression, at whatever positions
they stand (`reads_of_grouped`), and so are several parts with semicolons between them
(`readParts_of_sound`). What is wrong with them is exactly the faults of the expressions that are
built.
-/

namespace ShellSyntax

/-! ### Operators that settle together -/

namespace Waiting

/-- The operand after all the operators, innermost first, have taken it. -/
def applyAll (ws : List Waiting) (x : Arith) : Arith := ws.foldl (fun x w => w.apply x) x

@[simp] theorem applyAll_nil (x : Arith) : applyAll [] x = x := rfl

theorem applyAll_append (ws : List Waiting) (w : Waiting) (x : Arith) :
    applyAll (ws ++ [w]) x = w.apply (applyAll ws x) := by
  simp [applyAll, List.foldl_append]

end Waiting

/-- Where nothing more is ready, settling ends. -/
theorem settle_of_stops {ready : Waiting → Bool} {frames : List Frame} (h : Stops ready frames)
    (x : Arith) : settle ready frames x = ⟨frames, x, []⟩ := by
  cases frames with
  | nil => rfl
  | cons f rest =>
    cases f with
    | paren lparen => rfl
    | waiting w => simp [settle, h w rest rfl]

/-- Operators that are all ready form one operand, and nothing below them moves. -/
theorem settle_append {ready : Waiting → Bool} {ws : List Waiting} {frames : List Frame}
    (hw : ∀ w ∈ ws, ready w = true) (h : Stops ready frames) (x : Arith) :
    settle ready (ws.map .waiting ++ frames) x
      = ⟨frames, Waiting.applyAll ws x, ws.flatMap Waiting.errors⟩ := by
  induction ws generalizing x with
  | nil => exact settle_of_stops h x
  | cons w rest ih =>
    have hrest := ih (fun v hv => hw v (List.mem_cons_of_mem _ hv)) (w.apply x)
    simp only [List.map_cons, List.cons_append, settle, hw w List.mem_cons_self, if_true, hrest]
    rfl

/-! ### One expression -/

/-- An operand with the operators that still wait for it makes up the expression, except for its
positions. -/
structure Forms (t : Arith) (ws : List Waiting) (x : Arith) (errors : List ArithError) : Prop where
  levels : ws.map Waiting.level? = t.rightLevels.map some
  tree : (Waiting.applyAll ws x).unplaced = t.unplaced
  faults : errors ++ ws.flatMap Waiting.errors = (Waiting.applyAll ws x).faults

/-- Operators that all bind tighter than the next one are ready for it. -/
theorem Forms.ready {t : Arith} {ws : List Waiting} {x : Arith} {errors : List ArithError}
    {next : Level} (h : Forms t ws x errors) (hb : ∀ l ∈ t.rightLevels, l.Before next) :
    ∀ w ∈ ws, decide (w.Before next) = true := by
  intro w hw
  have hm : w.level? ∈ t.rightLevels.map some := h.levels ▸ List.mem_map_of_mem hw
  obtain ⟨level, hl, he⟩ := List.mem_map.mp hm
  simp only [Waiting.Before, ← he, decide_eq_true_eq]
  exact hb level hl

/-- The operand of a leaf's lexeme is that leaf again. -/
theorem operand?_of_token? {w : Word} {t : Placed} (hw : w.token? = some t) (pos : Pos) :
    ∃ v : Word, t.1.operand? pos = some (.word v) ∧ v.unplaced = w.unplaced := by
  unfold Word.token? at hw
  split at hw
  · rename_i l
    cases hw
    refine ⟨.ofLit l.value pos, ?_, by simp [Word.ofLit, Lit.unplaced]⟩
    unfold Lexeme.ofValue
    split <;> rfl
  · cases hw
    exact ⟨_, rfl, by simp [Lit.unplaced]⟩
  · cases hw

variable {parts : Nat} {read : List (Option Arith)}

theorem reads_of_grouped {t : Arith} (hl : t.Legal) (hg : t.Grouped) {frames : List Frame}
    {l : List Placed} (ht : l.map Prod.fst = t.lexemes) (hf : ∀ v ∈ t.leftLevels, Leaves frames v) :
    ∃ ws x errors, Forms t ws x errors ∧
      Reads parts ⟨read, frames, none⟩ l errors ⟨read, ws.map .waiting ++ frames, some x⟩ := by
  induction hl generalizing frames l with
  | @word w token hw hs =>
    rw [Arith.lexemes_word hw] at ht
    obtain ⟨⟨lexeme, pos⟩, rfl, rfl⟩ := List.map_eq_singleton_iff.mp ht
    obtain ⟨v, hv, hu⟩ := operand?_of_token? hw pos
    refine ⟨[], .word v, [], ⟨rfl, by simp [hu], rfl⟩, .single (.operand hv)⟩
  | @prefixed op x opPos ho hx ih =>
    cases hg with
    | @prefixed _ level _ _ hlevel hg hleft =>
      rw [Arith.lexemes_prefixed] at ht
      obtain ⟨⟨lexeme, pos⟩, rest, rfl, rfl, hrest⟩ := List.map_eq_cons_iff.mp ht
      have hframe : ∀ v ∈ x.leftLevels, Leaves (.waiting (.prefixOp op pos) :: frames) v :=
        fun v hv => (leaves_waiting (w := .prefixOp op pos) hlevel).mpr (hleft v hv)
      obtain ⟨ws, y, errors, hforms, hreads⟩ := ih hg hrest hframe
      refine ⟨ws ++ [.prefixOp op pos], y, errors, ⟨?_, ?_, ?_⟩, ?_⟩
      · simp [hforms.levels, Waiting.level?, hlevel]
      · simp [Waiting.applyAll_append, Waiting.apply, hforms.tree]
      · rw [Waiting.applyAll_append, Waiting.faults_apply, ← hforms.faults]
        simp
      · have := Reads.cons (.prefixed ho) hreads
        simpa using this
  | @postfixed op x opPos ho hx ih =>
    cases hg with
    | postfixed hg hright =>
      rw [Arith.lexemes_postfixed] at ht
      obtain ⟨front, back, rfl, hfront, hback⟩ := List.map_eq_append_iff.mp ht
      obtain ⟨⟨lexeme, pos⟩, rfl, rfl⟩ := List.map_eq_singleton_iff.mp hback
      have hleft : ∀ v ∈ x.leftLevels, Leaves frames v := by
        intro v hv
        exact hf v (by simp [hv])
      have hstop : Leaves frames .ofPostfix := hf _ (by simp)
      obtain ⟨ws, y, errors, hforms, hreads⟩ := ih hg hfront hleft
      have hsettle := settle_append (hforms.ready hright) hstop y
      refine ⟨[], _, _, ⟨rfl, ?_, ?_⟩, hreads.append (.single (.postfixed ho hsettle))⟩
      · simp [hforms.tree]
      · simp [hforms.faults]
  | @binary op x y opPos ho hx hy ihx ihy =>
    cases hg with
    | @binary _ level _ _ _ hlevel hgx hgy hright hleft =>
      rw [Arith.lexemes_binary] at ht
      obtain ⟨front, back, rfl, hfront, hback⟩ := List.map_eq_append_iff.mp ht
      obtain ⟨⟨lexeme, pos⟩, rest, rfl, rfl, hrest⟩ := List.map_eq_cons_iff.mp hback
      have hleftx : ∀ v ∈ x.leftLevels, Leaves frames v := by
        intro v hv
        exact hf v (by simp [hv])
      have hstop : Leaves frames level := hf level (by simp [hlevel])
      obtain ⟨ws, x', errors, hforms, hreads⟩ := ihx hgx hfront hleftx
      have hsettle := settle_append (hforms.ready hright) hstop x'
      have hframe : ∀ v ∈ y.leftLevels,
          Leaves (.waiting (.infixOp (Waiting.applyAll ws x') op pos) :: frames) v :=
        fun v hv => (leaves_waiting (w := .infixOp _ op pos) hlevel).mpr (hleft v hv)
      obtain ⟨ws', y', errors', hforms', hreads'⟩ := ihy hgy hrest hframe
      refine ⟨ws' ++ [.infixOp (Waiting.applyAll ws x') op pos], y', _, ⟨?_, ?_, ?_⟩,
        hreads.append (l := front) (.cons (.infixed hlevel hsettle) (by simpa using hreads'))⟩
      · simp [hforms'.levels, Waiting.level?, hlevel]
      · simp [Waiting.applyAll_append, Waiting.apply, hforms.tree, hforms'.tree]
      · rw [Waiting.applyAll_append, Waiting.faults_apply, ← hforms'.faults]
        simp [← hforms.faults]
  | @paren x lpos rpos hx ih =>
    cases hg with
    | paren hg =>
      rw [Arith.lexemes_paren] at ht
      obtain ⟨⟨lexeme, lparen⟩, rest, rfl, rfl, hrest⟩ := List.map_eq_cons_iff.mp ht
      obtain ⟨middle, back, rfl, hmiddle, hback⟩ := List.map_eq_append_iff.mp hrest
      obtain ⟨⟨lexeme, rparen⟩, rfl, rfl⟩ := List.map_eq_singleton_iff.mp hback
      have hframe : ∀ v ∈ x.leftLevels, Leaves (.paren lparen :: frames) v :=
        fun v _ => stops_paren _ lparen frames
      obtain ⟨ws, y, errors, hforms, hreads⟩ := ih hg hmiddle hframe
      have hsettle := @settle_append (fun _ => true) ws (.paren lparen :: frames) (fun _ _ => rfl)
        (stops_paren _ lparen frames) y
      refine ⟨[], _, _, ⟨rfl, ?_, ?_⟩,
        .cons .leftParen (hreads.append (.single (.rightParen hsettle)))⟩
      · simp [hforms.tree]
      · simp [hforms.faults]

/-! ### Several parts -/

/-- A stack that has read one more part, which a semicolon or the end of the text closes. -/
structure Stack.Closes (parts : Nat) (s : Stack) (errors : List ArithError)
    (read : List (Option Arith)) (part : Option Arith) : Prop where
  shifts : ∀ pos, read.length + 1 < parts →
    Shifts parts s (.op .semicolon, pos) errors ⟨read ++ [part], [], none⟩
  finish : read.length + 1 = parts → s.finish parts = (errors, some (read ++ [part]))

theorem closes_empty : Stack.Closes parts ⟨read, [], none⟩ [] read none where
  shifts pos h := .emptyPart h
  finish h := by simp [Stack.finish, h]

theorem closes_of_waiting (ws : List Waiting) (x : Arith) :
    Stack.Closes parts ⟨read, ws.map .waiting, some x⟩ (ws.flatMap Waiting.errors) read
      (some (Waiting.applyAll ws x)) := by
  have hs := @settle_append (fun _ => true) ws [] (fun _ _ => rfl) (stops_nil _) x
  rw [List.append_nil] at hs
  constructor
  · intro pos h
    exact .part h hs
  · intro h
    simp [Stack.finish, hs, h]

theorem reads_of_part {p : Option Arith} (hp : ∀ x ∈ p, x.Legal ∧ x.Grouped) {l : List Placed}
    (hl : l.map Prod.fst = Arith.lexemes? p) :
    ∃ q s errors more, Reads parts ⟨read, [], none⟩ l errors s ∧ s.Closes parts more read q ∧
      Arith.unplaced? q = Arith.unplaced? p ∧ errors ++ more = Arith.faults? q := by
  cases p with
  | none =>
    cases List.map_eq_nil_iff.mp hl
    exact ⟨none, _, [], [], .nil _, closes_empty, rfl, rfl⟩
  | some t =>
    obtain ⟨legal, grouped⟩ := hp t rfl
    obtain ⟨ws, x, errors, hforms, hreads⟩ :=
      reads_of_grouped legal grouped hl fun v _ => (stops_nil _ : Leaves [] v)
    rw [List.append_nil] at hreads
    refine ⟨_, _, errors, _, hreads, closes_of_waiting ws x, ?_, hforms.faults⟩
    simp [hforms.tree]

theorem reads_of_separated {front : List (Option Arith)} (hs : Arith.SoundParts front)
    {l : List Placed} (hl : l.map Prod.fst = Arith.separated front)
    (hn : read.length + front.length < parts) :
    ∃ built errors, Reads parts ⟨read, [], none⟩ l errors ⟨read ++ built, [], none⟩ ∧
      built.map Arith.unplaced? = front.map Arith.unplaced? ∧
      errors = built.flatMap Arith.faults? := by
  induction front generalizing read l with
  | nil =>
    cases List.map_eq_nil_iff.mp hl
    exact ⟨[], [], by rw [List.append_nil]; exact .nil _, rfl, rfl⟩
  | cons p rest ih =>
    have hsplit : Arith.separated (p :: rest)
        = Arith.lexemes? p ++ .op .semicolon :: Arith.separated rest := by
      simp [Arith.separated]
    rw [hsplit] at hl
    obtain ⟨first, back, rfl, hfirst, hback⟩ := List.map_eq_append_iff.mp hl
    obtain ⟨⟨lexeme, pos⟩, later, rfl, rfl, hlater⟩ := List.map_eq_cons_iff.mp hback
    rw [List.length_cons] at hn
    obtain ⟨q, s, errors, more, hreads, hcloses, hq, hfaults⟩ :=
      @reads_of_part parts read p (hs p List.mem_cons_self) first hfirst
    have hlength : (read ++ [q]).length + rest.length < parts := by
      rw [List.length_append, List.length_singleton]
      omega
    obtain ⟨built, found, hrest, hbuilt, hfound⟩ :=
      ih (fun r hr => hs r (List.mem_cons_of_mem _ hr)) hlater hlength
    refine ⟨q :: built, errors ++ (more ++ found), ?_, ?_, ?_⟩
    · rw [List.append_cons read]
      exact hreads.append (.cons (hcloses.shifts pos (by omega)) hrest)
    · rw [List.map_cons, List.map_cons, hq, hbuilt]
    · rw [List.flatMap_cons, ← hfaults, hfound, List.append_assoc]

/-- A text with the lexemes of legal and grouped expressions is read as these, whatever blanks and
line breaks are between them. -/
theorem readParts_of_sound {front : List (Option Arith)} {last : Option Arith}
    (hs : Arith.SoundParts (front ++ [last])) {text : String} {l : List Placed}
    (ht : scan text = Placed.scanned l)
    (hl : l.map Prod.fst = Arith.separated front ++ Arith.lexemes? last) :
    ∃ built, readParts (front.length + 1) text
        = { built := some built, errors := built.flatMap Arith.faults? } ∧
      built.map Arith.unplaced? = (front ++ [last]).map Arith.unplaced? := by
  obtain ⟨before, behind, rfl, hbefore, hbehind⟩ := List.map_eq_append_iff.mp hl
  obtain ⟨built, errors, hfront, hbuilt, herrors⟩ :=
    @reads_of_separated (front.length + 1) [] front
      (fun p hp => hs p (List.mem_append_left _ hp)) before hbefore (by simp)
  obtain ⟨q, s, found, more, hreads, hcloses, hq, hfaults⟩ :=
    @reads_of_part (front.length + 1) built last
      (hs last (List.mem_append_right _ List.mem_cons_self)) behind hbehind
  have hlength : built.length = front.length := by
    have := congrArg List.length hbuilt
    simpa using this
  have hfinish := hcloses.finish (by rw [hlength])
  refine ⟨built ++ [q], ?_, ?_⟩
  · rw [readParts_of_reads ht (hfront.append hreads) hfinish, List.append_assoc, hfaults, herrors]
    simp
  · rw [List.map_append, List.map_append, hbuilt, List.map_singleton, List.map_singleton, hq]

/-! ### Faults do not depend on positions -/

theorem Arith.assignable_unplaced (a : Arith) : a.unplaced.assignable = a.assignable := by
  cases a with
  | word w =>
    obtain ⟨parts⟩ := w
    cases parts with
    | nil => rfl
    | cons p rest =>
      cases rest with
      | nil => cases p <;> simp [assignable]
      | cons q rest => simp [assignable]
  | _ => simp [assignable]

namespace Waiting

theorem errors_infixOp_unplaced (left : Arith) (op : Token) (pos : Pos) :
    (infixOp left.unplaced op {}).errors = [] ↔ (infixOp left op pos).errors = [] := by
  simp [errors, Arith.assignable_unplaced]

end Waiting

namespace Arith

mutual

theorem faults_unplaced : (a : Arith) → (a.unplaced.faults = [] ↔ a.faults = [])
  | .word w => by simp
  | .unary op operand postfixed pos => by
    simpa using faults?_unplaced operand
  | .binary op left right pos => by
    have hl := faults?_unplaced left
    have hr := faults?_unplaced right
    cases left with
    | none => simp [hr]
    | some x =>
      have he := Waiting.errors_infixOp_unplaced x op pos
      simp only [unplaced?, faults?] at hl
      simp [hl, hr, he]
  | .paren inner lparen rparen => by
    simpa using faults?_unplaced inner

theorem faults?_unplaced : (a : Option Arith) → (faults? (unplaced? a) = [] ↔ faults? a = [])
  | none => by simp
  | some a => by simpa using faults_unplaced a

end

theorem flatMap_faults?_eq_nil {parts built : List (Option Arith)}
    (h : built.map unplaced? = parts.map unplaced?) (hp : parts.flatMap faults? = []) :
    built.flatMap faults? = [] := by
  rw [List.flatMap_eq_nil_iff] at hp ⊢
  intro q hq
  have hm : unplaced? q ∈ parts.map unplaced? := h ▸ List.mem_map_of_mem hq
  obtain ⟨p, hp', he⟩ := List.mem_map.mp hm
  have := (faults?_unplaced p).mpr (hp p hp')
  rw [he] at this
  exact (faults?_unplaced q).mp this

end Arith

/-! ### Whole texts -/

theorem Arith.parse_of_scan {t : Arith} (hl : t.Legal) (hg : t.Grouped) (hf : t.faults = [])
    {text : String} {l : List Placed} (hs : scan text = Placed.scanned l)
    (ht : l.map Prod.fst = t.lexemes) :
    ∃ u, Arith.parse text = { built := some u, errors := [] } ∧ u.unplaced = t.unplaced := by
  have hsound : SoundParts ([] ++ [some t]) := by
    simpa [SoundParts] using And.intro hl hg
  obtain ⟨built, hread, hbuilt⟩ := readParts_of_sound hsound hs ht
  have hfaults : built.flatMap faults? = [] :=
    flatMap_faults?_eq_nil hbuilt (by simpa using hf)
  obtain ⟨q, rfl, hq⟩ := List.map_eq_singleton_iff.mp hbuilt
  rw [hfaults] at hread
  cases q with
  | none => cases hq
  | some u =>
    refine ⟨u, ?_, Option.some.inj hq⟩
    simp only [Arith.parse, List.length_nil, Nat.zero_add] at hread ⊢
    rw [hread]
    rfl

theorem CountLoop.parse_of_scan {loop : CountLoop}
    (hs : Arith.SoundParts [loop.init, loop.cond, loop.step])
    (hf : [loop.init, loop.cond, loop.step].flatMap Arith.faults? = []) {text : String}
    {l : List Placed} (ht : scan text = Placed.scanned l)
    (hl : l.map Prod.fst = Arith.separated [loop.init, loop.cond] ++ Arith.lexemes? loop.step) :
    ∃ u, CountLoop.parse text = { built := some u, errors := [] } ∧ u.unplaced = loop.unplaced := by
  obtain ⟨built, hread, hbuilt⟩ :=
    @readParts_of_sound [loop.init, loop.cond] loop.step hs text l ht hl
  have hfaults : built.flatMap Arith.faults? = [] := Arith.flatMap_faults?_eq_nil hbuilt hf
  obtain ⟨init, rest, rfl, hinit, hrest⟩ := List.map_eq_cons_iff.mp hbuilt
  obtain ⟨cond, last, rfl, hcond, hlast⟩ := List.map_eq_cons_iff.mp hrest
  obtain ⟨step, rfl, hstep⟩ := List.map_eq_singleton_iff.mp hlast
  rw [hfaults] at hread
  refine ⟨{ init, cond, step }, ?_, ?_⟩
  · simp only [CountLoop.parse]
    rw [show 3 = [loop.init, loop.cond].length + 1 from rfl, hread]
    rfl
  · cases loop
    simp [hinit, hcond, hstep]

end ShellSyntax
