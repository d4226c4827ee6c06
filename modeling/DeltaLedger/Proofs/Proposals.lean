import DeltaLedger.Proofs.ConfinedRequests

/-!
# What attempts propose

All attempts are alike, whatever the store may hold: an attempt looks at records, and then it gives up
or submits one transaction and goes by the outcome.  Only an attempt to finish a write has another way
out, as the write may be finished as asked already.
-/

namespace DeltaLedger

theorem beaten_of_blameless {α : Type} {result : Except Failure α}
    (hblameless : Blameless .inquiry result) : beaten result = false := by
  cases result with
  | ok a => rfl
  | error e =>
      have hfinal := (hblameless e rfl).2 rfl
      cases e with
      | conflict message => cases hfinal
      | _ => rfl

namespace Program

variable {α γ : Type} {rests : Bool}

/-- An attempt looks, and then it gives up, is content if it may rest, or submits a transaction. -/
inductive Proposes (rests : Bool) : Program Failure (Option γ) → Prop where
  | failed {e : Failure} (hbeaten : beaten (.error e : Except Failure (Option γ)) = false) :
      Proposes rests (.done (.error e))
  | content (a : γ) (hrests : rests = true) : Proposes rests (.done (.ok (some a)))
  | commit (scope : Scope) (steps : List Step) (a : γ) : Proposes rests (scope.commit steps a)
  | look {α : Type} {p : Program Failure α} {f : α → Program Failure (Option γ)}
      (hlooks : p.Looks) (hnext : ∀ a, Proposes rests (f a)) : Proposes rests (p >>= f)

theorem proposes_ofExcept {result : Except Failure α} {f : α → Program Failure (Option γ)}
    (hblameless : Blameless .inquiry result) (hnext : ∀ a, (f a).Proposes rests) :
    (Program.ofExcept result >>= f).Proposes rests :=
  .look (p := Program.ofExcept result) (beaten_of_blameless hblameless) hnext

end Program

open Program

section Attempts

variable (scope : Scope)

theorem proposes_open : scope.tryOpen.Proposes false := by
  refine .look (Scope.looks_read _ _) fun found => ?_
  cases found with
  | some current => exact .failed rfl
  | none =>
      refine .look (Scope.looks_read _ _) fun counters => ?_
      refine .look Scope.looks_localTime fun now => ?_
      exact proposes_ofExcept (blameless_openingSteps _ _ _ _) fun steps => .commit _ _ _

theorem proposes_promote (date : DateTime) : (scope.tryCommit date).Proposes false := by
  refine .look Scope.looks_hot fun hot => ?_
  split
  next => exact .failed rfl
  next =>
    refine .look Scope.looks_counters fun counters => ?_
    refine .look Scope.looks_ledger fun entries => ?_
    split
    next => exact .failed rfl
    next =>
      refine .look (Scope.looks_checkDate _ _) fun _ => ?_
      exact proposes_ofExcept (blameless_commitSteps _ _ _ _ _) fun steps => .commit _ _ _

theorem proposes_mark (n : Int) : (scope.tryFail n).Proposes false := by
  refine .look Scope.looks_hot fun hot => ?_
  refine .look Scope.looks_counters fun counters => ?_
  exact proposes_ofExcept (blameless_encode _) fun payload => .commit _ _ _

theorem proposes_discard : scope.tryDiscard.Proposes false := by
  refine .look Scope.looks_hot fun hot => ?_
  refine .look Scope.looks_counters fun counters => ?_
  exact .look Scope.looks_ledger fun entries => .commit _ _ _

theorem proposes_register (registration : Registration) :
    (scope.tryRegister registration).Proposes false := by
  refine .look (Scope.looks_require _ _ rfl) fun hot => ?_
  split
  next => exact .failed rfl
  next =>
    refine .look Scope.looks_counters fun counters => ?_
    refine .look Scope.looks_ledger fun entries => ?_
    split
    next => exact .failed rfl
    next =>
      apply proposes_ofExcept (blameless_encode _)
      intro next
      exact proposes_ofExcept (blameless_encode _) fun payload => .commit _ _ _

theorem proposes_finish (n : Int) (status : WriteStatus) : (scope.tryFinish n status).Proposes true := by
  refine .look Scope.looks_hot fun hot => ?_
  refine .look (Scope.looks_write n) fun entry => ?_
  split
  next => exact .content _ rfl
  next =>
    split
    next => exact .failed rfl
    next => exact proposes_ofExcept (blameless_encode _) fun payload => .commit _ _ _

theorem proposes_withdraw (n : Int) : (scope.tryWithdraw n).Proposes false := by
  refine .look Scope.looks_hot fun hot => ?_
  exact .look (Scope.looks_write n) fun entry => .commit _ _ _

end Attempts
end DeltaLedger
