import DeltaLedger.Proofs.Cluster

/-!
# Finished requests are linearized

However the calls of requests are interleaved, a finished request to open or discard an
epoch or to change the ledger can be explained.  In short: unless it lost its races, it
answered and acted as if it had run alone at some moment between its first and its last
call, and if it failed it has changed nothing.
-/

namespace DeltaLedger

open Cluster

variable {ι : Type}

theorem Cluster.Sound.explained {k : Cluster ι} {i : ι} {task : Task}
    {result : Except Failure Response} (hsound : k.Sound) (hi : k.task? i = some task)
    (hresult : task.result? = some result) (hlinearizable : task.request.command.Linearizable) :
    Explained task.coordinator task.request task.trail result := by
  have hsafe := (hsound.tasks i task hi).safe
  rw [Task.rest_of_result? hresult] at hsafe
  exact hsafe hlinearizable

/-- Every finished request of a linearizable command is explained, and has changed
nothing if it failed, as when it lost its races. -/
theorem explained_of_result [DecidableEq ι] {time : DateTime} {roots : List (Name × String)}
    {actions : List (Action ι)} {i : ι} {result : Except Failure Response}
    (hresult : (run time roots actions).result? i = some result) :
    ∃ task, (run time roots actions).task? i = some task ∧
      (task.request.command.Linearizable →
        Explained task.coordinator task.request task.trail result ∧
          ∀ e, result = .error e → task.trail.Quiet) := by
  obtain ⟨task, hi, htask⟩ := Option.bind_eq_some_iff.mp hresult
  refine ⟨task, hi, ?_⟩
  intro hlinearizable
  have hexplained :=
    (sound_run time roots actions).explained hi htask hlinearizable
  refine ⟨hexplained, ?_⟩
  rintro e rfl
  exact hexplained.quiet_of_error

/-- Two registrations for a table meet in an epoch, and the first to read is late. -/
def meetingRegistrations : List (Action Nat) :=
  Sample.alone 0 .openDelta ++
    [Sample.begins 1 (.registerWrite ⟨"a", "a_ext", "q"⟩),
      Sample.begins 2 (.registerWrite ⟨"a", "a_ext", "q"⟩)] ++
    Sample.proceeds 1 5 ++ Sample.proceeds 2 20 ++ Sample.proceeds 1 20

theorem explained_late_registration :
    (run Sample.time Sample.roots meetingRegistrations).result? 1 =
        some (.error (.tableBlocked "dtm" "a" 0)) ∧
      ∃ task, (run Sample.time Sample.roots meetingRegistrations).task? 1 = some task ∧
        task.request.command.Linearizable ∧
          Explained task.coordinator task.request task.trail
              (.error (.tableBlocked "dtm" "a" 0)) ∧
            task.trail.Quiet := by
  have hresult : (run Sample.time Sample.roots meetingRegistrations).result? 1 =
      some (.error (.tableBlocked "dtm" "a" 0)) := by decide +kernel
  have hcommand : ((run Sample.time Sample.roots meetingRegistrations).task? 1).map
      (fun task => task.request.command) = some (.registerWrite ⟨"a", "a_ext", "q"⟩) := by
    decide +kernel
  obtain ⟨task, htask, hexplains⟩ := explained_of_result hresult
  rw [htask, Option.map_some, Option.some.injEq] at hcommand
  have hlinearizable : task.request.command.Linearizable := by
    rw [hcommand]
    trivial
  obtain ⟨hexplained, hquiet⟩ := hexplains hlinearizable
  exact ⟨hresult, task, htask, hlinearizable, hexplained, hquiet _ rfl⟩

end DeltaLedger
