import DeltaLedger.Proofs.AccountedRequests

/-!
# Requests under interference

A request as a whole: entering its datamart, carrying out its command, and accounting
for it.  Whatever other clients do, all its calls are proper, and if its command is one
of the six that are linearizable, its end can be explained.
-/

namespace DeltaLedger

open Program

/-- The commands whose changes are linearizable.  Marking and committing are not among
them. -/
def Command.Linearizable : Command → Prop
  | .openDelta | .discardDelta | .registerWrite _ | .succeedWrite _ | .failWrite _
  | .withdrawWrite _ => True
  | _ => False

/-- What is known at the end of a request. -/
def Ends (c : Coordinator) (r : Request) (trail : Trail) (result : Except Failure Response) :
    Prop :=
  r.command.Linearizable → Explained c r trail result

section Performing

variable {c : Coordinator} {r : Request} {s : Site} {sites : Site → Prop} {trail : Trail}

theorem safe_of_settles {γ : Type} {attempt : Program Failure (Option γ)} {answer : γ → Response}
    (hdecides : Decides (scopeAt c r s) r.command attempt answer)
    (hattempt : ∀ trail, trail.Begun s → attempt.Safe sites (Settles c r s answer) trail)
    (hbegun : trail.Begun s) :
    ((scopeAt c r s).perform r.command).Safe sites (Explained c r) trail :=
  hdecides.safe hattempt (fun _ hbegun => .lost hbegun.1) hbegun

theorem safe_perform_linearizable (hserves : c.Serves r.datamart s)
    (hfault : r.command.fault? = none) (hsite : sites s) (hbegun : trail.Begun s)
    (hlinearizable : r.command.Linearizable) :
    ((scopeAt c r s).perform r.command).Safe sites (Explained c r) trail := by
  cases hcommand : r.command with
  | openDelta =>
      have hdecides := decides_open (scopeAt c r s)
      rw [← hcommand] at hdecides ⊢
      exact safe_of_settles hdecides
        (fun _ => safe_open hserves hfault hcommand hsite) hbegun
  | discardDelta =>
      have hdecides := decides_discard (scopeAt c r s)
      rw [← hcommand] at hdecides ⊢
      exact safe_of_settles hdecides (fun _ => safe_discard hserves hfault hdecides hsite) hbegun
  | registerWrite registration =>
      have hdecides := decides_register (scopeAt c r s) registration
      rw [← hcommand] at hdecides ⊢
      exact safe_of_settles hdecides
        (fun _ => safe_register hserves hfault hcommand hsite) hbegun
  | succeedWrite n =>
      have hdecides := decides_succeed (scopeAt c r s) n
      rw [← hcommand] at hdecides ⊢
      exact safe_of_settles hdecides
        (fun _ => safe_finish hserves hfault hdecides (by decide) hsite) hbegun
  | failWrite n =>
      have hdecides := decides_failWrite (scopeAt c r s) n
      rw [← hcommand] at hdecides ⊢
      exact safe_of_settles hdecides
        (fun _ => safe_finish hserves hfault hdecides (by decide) hsite) hbegun
  | withdrawWrite n =>
      have hdecides := decides_withdraw (scopeAt c r s) n
      rw [← hcommand] at hdecides ⊢
      exact safe_of_settles hdecides (fun _ => safe_withdraw hserves hfault hdecides hsite) hbegun
  | _ =>
      rw [hcommand] at hlinearizable
      exact hlinearizable.elim

theorem safe_perform (hserves : c.Serves r.datamart s) (hfault : r.command.fault? = none)
    (hbegun : trail.Begun s) (huncommitted : trail.Uncommitted) :
    ((scopeAt c r s).perform r.command).Safe (c.Serves r.datamart) (Ends c r) trail := by
  by_cases hlinearizable : r.command.Linearizable
  · have hsafe := safe_perform_linearizable hserves hfault hserves hbegun hlinearizable
    exact hsafe.mono fun _ _ hexplained _ => hexplained
  · have hsafe := accounted_perform hserves huncommitted
    exact hsafe.mono fun _ _ _ hstated => absurd hstated hlinearizable

end Performing

/-- Whatever other clients do, a request only makes turns of its own site, and at its end
the six linearizable commands are explained. -/
theorem safe_serve (c : Coordinator) (r : Request) :
    (c.serve r).Safe (c.Serves r.datamart) (Ends c r) [] := by
  apply safe_serve_of_perform
  · intro trail e huncommitted hanswered _
    exact hanswered.explained fun call h hmem => (huncommitted call h hmem).2
  · intro s h hserves hfault hroot
    exact safe_perform hserves hfault (Trail.begun_stat hroot) (Trail.uncommitted_stat s h)

end DeltaLedger
