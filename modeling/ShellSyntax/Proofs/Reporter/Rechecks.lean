import ShellSyntax.Proofs.Tree.Rules

/-!
# A checker that is used again

* `Checker.checkAll`: the outcomes of checking several trees one after the other;
* `found_checkAll`: a checker keeps what it found in every tree so far;
* `backlog_checkAll`: and each check logs all of it again;
* `checkAll_accumulates`: so a checker accepts a tree only if it never found anything.
-/

namespace ShellSyntax

namespace Checker

/-- The outcomes of checking the trees in order, with the same checker and reporter. -/
def checkAll (c : Checker) (r : Reporter) : List Node → List Checked
  | [] => []
  | n :: rest =>
    let outcome := c.check r n
    outcome :: checkAll outcome.checker outcome.reporter rest

@[simp] theorem length_checkAll (c : Checker) (r : Reporter) (trees : List Node) :
    (c.checkAll r trees).length = trees.length := by
  induction trees generalizing c r with
  | nil => rfl
  | cons n rest ih => simp [checkAll, ih]

variable {c : Checker} {r : Reporter} {trees : List Node} {i : Nat} {outcome : Checked}

/-- After each check the checker has what it found in this tree and in those before it. -/
theorem found_checkAll (h : (c.checkAll r trees)[i]? = some outcome) :
    outcome.checker.found = c.found ++ (trees.take (i + 1)).flatMap Node.findings ∧
      outcome.ok = outcome.checker.found.isEmpty := by
  induction trees generalizing c r i with
  | nil => simp [checkAll] at h
  | cons n rest ih =>
    cases i with
    | zero =>
      simp only [checkAll, List.getElem?_cons_zero, Option.some.injEq] at h
      subst h
      simp [check]
    | succ i =>
      simp only [checkAll, List.getElem?_cons_succ] at h
      obtain ⟨hfound, hok⟩ := ih h
      exact ⟨by simp [hfound, check], hok⟩

/-- A check logs what the checker has by then, and leaves the reporter otherwise alone. -/
theorem reporter_checkAll {prior : Reporter} (h : (c.checkAll r trees)[i]? = some outcome)
    (hp : (r :: (c.checkAll r trees).map Checked.reporter)[i]? = some prior) :
    outcome.reporter = prior.logAll outcome.checker.found := by
  induction trees generalizing c r i with
  | nil => simp [checkAll] at h
  | cons n rest ih =>
    cases i with
    | zero =>
      simp only [checkAll, List.getElem?_cons_zero, Option.some.injEq] at h hp
      subst h hp
      rfl
    | succ i =>
      simp only [checkAll, List.map_cons, List.getElem?_cons_succ] at h hp
      exact ih h hp

/-- All that was logged since the first check: what was found in the first tree, then what was found
in the first two, and so on. -/
theorem backlog_checkAll (h : (c.checkAll r trees)[i]? = some outcome) :
    outcome.reporter.backlog = r.backlog ++ (List.range (i + 1)).flatMap fun j =>
      (c.found ++ (trees.take (j + 1)).flatMap Node.findings).map fun d => r.tagged d.render := by
  induction trees generalizing c r i with
  | nil => simp [checkAll] at h
  | cons n rest ih =>
    cases i with
    | zero =>
      simp only [checkAll, List.getElem?_cons_zero, Option.some.injEq] at h
      subst h
      simp [check, Reporter.logAll]
    | succ i =>
      simp only [checkAll, List.getElem?_cons_succ] at h
      rw [ih h, List.range_succ_eq_map (n := i + 1)]
      simp [check, Reporter.logAll, Reporter.tagged, List.flatMap_map]

end Checker

namespace Node

/-- What a checker that is used once finds. -/
theorem found_check (n : Node) (r : Reporter) : (n.check r).checker.found = n.findings := by
  simp [check, Checker.check]

end Node

/-- A checker that is given one tree after the other accepts a tree exactly if nothing is wrong in
it and in those before. It keeps what checkers of their own would find in these trees, and each time
logs all of it, so that the backlog grows by every prefix; once it refused, it accepts no more. -/
theorem checkAll_accumulates (r : Reporter) (trees : List Node) :
    let outcomes := Checker.checkAll {} r trees
    let found (t : Node) := (t.check {}).checker.found
    outcomes.length = trees.length ∧
    ∀ (i : Nat) (outcome : Checked), outcomes[i]? = some outcome →
      (outcome.ok = true ↔
        ∀ t ∈ trees.take (i + 1), ∀ m ∈ t.stored, ∀ rule : Rule, ¬rule.BrokenBy m) ∧
      outcome.checker.found = (trees.take (i + 1)).flatMap found ∧
      (∀ prior, (r :: outcomes.map Checked.reporter)[i]? = some prior →
        outcome.reporter = { prior with
          backlog := prior.backlog ++ outcome.checker.found.map fun d => prior.tagged d.render }) ∧
      (outcome.reporter.backlog = r.backlog ++ (List.range (i + 1)).flatMap fun j =>
        ((trees.take (j + 1)).flatMap found).map fun d => r.tagged d.render) ∧
      ∀ (j : Nat) (later : Checked), i ≤ j → outcomes[j]? = some later →
        outcome.ok = false → later.ok = false := by
  intro outcomes found
  have hfresh : found = Node.findings := funext fun t => t.found_check {}
  have haccepts : ∀ i outcome, outcomes[i]? = some outcome → (outcome.ok = true ↔
      ∀ t ∈ trees.take (i + 1), ∀ m ∈ t.stored, ∀ rule : Rule, ¬rule.BrokenBy m) := by
    intro i outcome h
    obtain ⟨hfound, hok⟩ := Checker.found_checkAll h
    rw [hok, hfound, List.nil_append, List.isEmpty_iff, List.flatMap_eq_nil_iff]
    simp only [Node.findings_eq_nil_iff_unbroken]
  refine ⟨Checker.length_checkAll _ _ _, fun i outcome h => ⟨haccepts i outcome h, ?_, ?_, ?_, ?_⟩⟩
  · rw [hfresh]
    exact (Checker.found_checkAll h).1
  · intro prior hp
    exact Checker.reporter_checkAll h hp
  · rw [hfresh]
    exact Checker.backlog_checkAll h
  · intro j later hij hlater hok
    rw [Bool.eq_false_iff, Ne, haccepts i outcome h] at hok
    rw [Bool.eq_false_iff, Ne, haccepts j later hlater]
    intro hall
    exact hok fun t ht => hall t (List.take_subset_take_left trees (by omega) ht)

/-- A good tree is refused after a bad one, and what was wrong with that one is logged again. -/
theorem checkAll_accumulates_good_after_bad :
    let good : Node := .stmt { command := some (.simple [.ofLit "a"]) }
    let bad : Node := .stmt { negated := true }
    let outcomes := Checker.checkAll {} {} [good, bad, good]
    ∃ second third : Checked, outcomes[1]? = some second ∧ outcomes[2]? = some third ∧
      (good.check {}).ok = true ∧ second.ok = false ∧ third.ok = false ∧
      third.checker.found = (bad.check {}).checker.found ∧
      third.reporter.backlog = second.reporter.backlog
        ++ ["\x7bNone\x7d \t| negated statement without a command in \x7bStmt\x7d"] := by
  intro good bad outcomes
  obtain ⟨-, h⟩ := checkAll_accumulates {} [good, bad, good]
  have second : outcomes[1]? = some outcomes[1] := rfl
  have third : outcomes[2]? = some outcomes[2] := rfl
  have refused : outcomes[1].ok = false := by decide +kernel
  obtain ⟨-, -, -, -, stays⟩ := h 1 _ second
  obtain ⟨-, found, logs, -, -⟩ := h 2 _ third
  refine ⟨_, _, second, third, by decide +kernel, refused, stays 2 _ (by decide) third refused,
    found.trans (by decide +kernel), ?_⟩
  rw [logs outcomes[1].reporter rfl, found]
  decide +kernel

end ShellSyntax
