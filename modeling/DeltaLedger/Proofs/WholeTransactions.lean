import DeltaLedger.Proofs.Transactions

/-!
# Transactions as folds of their steps

A transaction takes its steps one after another, each on the tree that the steps before it left.
It commits exactly when every step commits as a transaction of its own, and then leads to the same
tree, so that a transaction can be cut in two anywhere.  A transaction that does not commit leaves
the tree as it was.  Its answer is decided by the first step that fails, on the tree left by the
steps before it: that step has a malformed path, or it meets a conflict.
-/

namespace DeltaLedger
namespace Tree

variable {t t' : Tree} {s : Step} {steps : List Step}

theorem transact_eq_committed_iff : t.transact steps = (.ok .committed, t') ↔ t.Commits steps t' := by
  constructor
  · intro hcommitted
    unfold transact at hcommitted
    split at hcommitted
    next hsteps =>
      cases hcommitted
      exact stepsFrom_eq_ok_iff.mp hsteps
    next => cases hcommitted
    next => cases hcommitted
  · exact transact_of_commits

/-! ## Transactions of one step -/

/-- Each step in a transaction of its own, as long as they commit. -/
def oneByOne (t : Tree) : List Step → Option Tree
  | [] => some t
  | s :: steps =>
    match t.transact [s] with
    | (.ok .committed, next) => next.oneByOne steps
    | _ => none

theorem commits_singleton : t.Commits [s] t' ↔ ∃ v, t.step s = .ok (v, t') := by
  simp [Commits, eq_comm]

theorem oneByOne_eq_some_iff : t.oneByOne steps = some t' ↔ t.Commits steps t' := by
  induction steps generalizing t with
  | nil => simp [oneByOne, Commits, eq_comm]
  | cons s steps ih =>
      cases hstep : t.step s with
      | error refusal =>
          have hrefused := transact_of_refuses (refuses_nil.mpr ⟨rfl, hstep⟩) []
          rw [List.nil_append] at hrefused
          cases refusal <;> simp [oneByOne, Commits, hstep, hrefused]
      | ok reached =>
          have hone := transact_of_commits (commits_singleton.mpr ⟨reached.1, hstep⟩)
          simp only [oneByOne, Commits, hone, ih, hstep, Except.ok.injEq]
          constructor
          · exact fun hrest => ⟨reached.1, reached.2, rfl, hrest⟩
          · rintro ⟨v, next, rfl, hrest⟩
            exact hrest

/-! ## All or nothing -/

/-- A transaction commits exactly when its steps succeed one after another, be it as a transaction
each or as two transactions, and leads to the same tree.  Otherwise the first step that fails on
the tree left by those before it gives the answer, and nothing is changed. -/
theorem transact_all_or_nothing (t : Tree) (steps : List Step) :
    (∀ t', t.transact steps = (.ok .committed, t') ↔ t.Commits steps t') ∧
    (∀ t', t.transact steps = (.ok .committed, t') ↔ t.oneByOne steps = some t') ∧
    (∀ more t', t.transact (steps ++ more) = (.ok .committed, t') ↔
      ∃ middle, t.transact steps = (.ok .committed, middle) ∧
        middle.transact more = (.ok .committed, t')) ∧
    ((∃ t', t.transact steps = (.ok .committed, t')) ∨
      ∃ done s rest middle, steps = done ++ s :: rest ∧
        t.transact done = (.ok .committed, middle) ∧
        ((∃ fault, Path.parse s.path = .error fault ∧
            t.transact steps = (.error (.badPath fault), t)) ∨
          ∃ p conflict, Path.parse s.path = .ok p ∧ middle.change p s.change = .error conflict ∧
            t.transact steps = (.ok (.aborted done.length s.path conflict), t))) := by
  refine ⟨fun t' => transact_eq_committed_iff, fun t' => ?_, ?_, ?_⟩
  · rw [transact_eq_committed_iff, oneByOne_eq_some_iff]
  · intro more t'
    simp only [transact_eq_committed_iff]
    exact commits_append
  · rcases commits_or_refuses t steps with
      ⟨t', hcommits⟩ | ⟨done, s, rest, middle, refusal, rfl, hrefuses⟩
    · exact .inl ⟨t', transact_of_commits hcommits⟩
    · refine .inr ⟨done, s, rest, middle, rfl, transact_of_commits hrefuses.reached, ?_⟩
      have hanswer := transact_of_refuses hrefuses rest
      cases refusal with
      | badPath fault =>
          exact .inl ⟨fault, step_eq_badPath_iff.mp hrefuses.refused, hanswer⟩
      | conflict conflict =>
          obtain ⟨p, hparse, hchange⟩ := step_eq_conflict_iff.mp hrefuses.refused
          exact .inr ⟨p, conflict, hparse, hchange, hanswer⟩

end Tree
end DeltaLedger
