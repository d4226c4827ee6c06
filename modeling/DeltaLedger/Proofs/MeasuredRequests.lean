import DeltaLedger.Proofs.PerformedPrograms
import DeltaLedger.Proofs.Proposals

/-!
# What is measured of a request

Whatever stores a request meets, it submits no more transactions than the coordinator allows attempts,
and it gives up because of lost races exactly when it has used all of them and every transaction was
aborted.  The journal counts one retry for every aborted transaction, and one end of one operation.

A part that looks at records submits nothing and measures nothing.  An attempt submits at most one
transaction, and asks for another attempt exactly when that was aborted.  Both pass on to the loop of
attempts, by induction on the attempts left, and from there to every command.
-/

namespace DeltaLedger

open Program

/-! ## Looks -/

namespace Program

variable {α γ : Type} {first later : List Deed}

theorem Looks.yields {p : Program Failure α} (hlooks : p.Looks) :
    p.Yields fun deeds result => Tally deeds 0 0 [] ∧ beaten result = false := by
  induction p with
  | done result => exact ⟨.nil, hlooks⟩
  | call c next ih =>
      intro store
      apply (ih _ (hlooks.2 _)).mono
      exact fun later result hboth => ⟨(tally_of_reads hlooks.1 store).prepend hboth.1, hboth.2⟩
  | clock next ih => exact fun now => ih now (hlooks now)
  | note n next => cases hlooks

/-! ## Attempts -/

/-- How an attempt can end: it has lost its race, or it has settled the request, with at most one
transaction. -/
inductive Tried (deeds : List Deed) : Except Failure (Option γ) → Prop where
  | lost (htally : Tally deeds 1 1 []) : Tried deeds (.ok none)
  | settled {result : Except Failure (Option γ)} {n : Nat} (hresult : result ≠ .ok none)
      (hbeaten : beaten result = false) (hn : n ≤ 1) (htally : Tally deeds n 0 []) :
      Tried deeds result

theorem Tried.prepend {result : Except Failure (Option γ)} (hfirst : Tally first 0 0 [])
    (htried : Tried later result) : Tried (first ++ later) result := by
  cases htried with
  | lost htally => exact .lost (hfirst.prepend htally)
  | settled hresult hbeaten hn htally =>
      exact .settled hresult hbeaten hn (hfirst.prepend htally)

/-- The reply to the transaction at its end settles whether an attempt has lost its race. -/
theorem tried_commit (scope : Scope) (steps : List Step) (a : γ) :
    (scope.commit steps a).Yields Tried := by
  intro store
  have haborts := Encounter.aborts_transact steps store
  have htally := tally_transact steps store
  revert haborts
  cases (store.answer (.transact steps)).1 with
  | error e =>
      intro haborts
      rw [haborts] at htally
      exact .settled nofun rfl (Nat.le_refl 1) htally
  | ok outcome =>
      cases outcome with
      | committed =>
          intro haborts
          rw [haborts] at htally
          exact .settled nofun rfl (Nat.le_refl 1) htally
      | aborted index path conflict =>
          intro haborts
          rw [haborts] at htally
          exact .lost (htally.append (tally_noted rfl))

theorem Proposes.tried {rests : Bool} {attempt : Program Failure (Option γ)}
    (hproposes : attempt.Proposes rests) : attempt.Yields Tried := by
  induction hproposes with
  | failed hbeaten => exact .settled nofun hbeaten (Nat.zero_le 1) .nil
  | content a _ => exact .settled nofun rfl (Nat.zero_le 1) .nil
  | commit scope steps a => exact tried_commit scope steps a
  | look hlooks _ ih =>
      apply hlooks.yields.bind
      · exact fun first a hfirst => (ih a).mono fun later result => .prepend hfirst.1
      · intro deeds e hlooked
        refine .settled nofun ?_ (Nat.zero_le 1) hlooked.1
        cases e <;> exact hlooked.2

end Program

/-! ## The loop of attempts -/

/-- What a loop with some attempts left has come to: as many retries were measured as transactions
aborted, and it is beaten exactly when every attempt left has submitted one and lost it. -/
def Persisted {α : Type} (operation : Operation) (left : Nat) (deeds : List Deed)
    (result : Except Failure α) : Prop :=
  ∃ n k, Tally deeds n k (List.replicate k (.retried operation)) ∧ n ≤ left ∧
    (beaten result = true ↔ n = left ∧ k = left)

section Loop

variable {α β γ : Type} {operation : Operation} {left : Nat} {first later : List Deed}
variable {scope : Scope} {attempt : Program Failure (Option γ)}

/-- An attempt that has settled the request ends the loop. -/
theorem persisted_settled {n : Nat} {result : Except Failure α} (htally : Tally first n 0 [])
    (hbeaten : beaten result = false) (hn : n ≤ left + 1) :
    Persisted operation (left + 1) first result :=
  ⟨n, 0, htally, hn, by simp [hbeaten]⟩

/-- An attempt that has lost its race is one more, with its retry. -/
theorem Persisted.cons {result : Except Failure α} {event : Event} (htally : Tally first 1 1 [])
    (hlater : Persisted operation left later result) :
    Persisted operation (left + 1)
      (first ++ .noted (.measured (.retried operation)) :: .noted (.event event) :: later) result := by
  obtain ⟨n, k, hrest, hn, hbeaten⟩ := hlater
  have hretried : Tally [.noted (.measured (.retried operation)), .noted (.event event)] 0 0
      [.retried operation] := ⟨rfl, rfl, rfl⟩
  refine ⟨n + 1, k + 1, ?_, by omega, by rw [hbeaten]; omega⟩
  have hall := (htally.append hretried).append hrest
  rw [Nat.add_comm n, Nat.add_comm k, Nat.add_comm 1 k, List.replicate_succ]
  simpa [Nat.add_comm] using hall

theorem Persisted.prepend {result : Except Failure α} (hfirst : Tally first 0 0 [])
    (hlater : Persisted operation left later result) :
    Persisted operation left (first ++ later) result := by
  obtain ⟨n, k, htally, hrest⟩ := hlater
  exact ⟨n, k, hfirst.prepend htally, hrest⟩

theorem Persisted.append {result : Except Failure α}
    (hfirst : Persisted operation left first result) (hlater : Tally later 0 0 []) :
    Persisted operation left (first ++ later) result := by
  obtain ⟨n, k, htally, hrest⟩ := hfirst
  exact ⟨n, k, by simpa using htally.append hlater, hrest⟩

theorem Persisted.of_beaten {result : Except Failure α} {result' : Except Failure β}
    (hpersisted : Persisted operation left first result) (hsame : beaten result' = beaten result) :
    Persisted operation left first result' := by
  obtain ⟨n, k, htally, hn, hbeaten⟩ := hpersisted
  exact ⟨n, k, htally, hn, by rw [hsame, hbeaten]⟩

theorem persisted_attempts {rests : Bool} (hproposes : attempt.Proposes rests) (left : Nat) :
    (scope.attempts attempt left).Yields (Persisted scope.operation left) := by
  induction left with
  | zero => exact ⟨0, 0, .nil, Nat.le_refl 0, by simp [beaten, Failure.lostRaces]⟩
  | succ left ih =>
      apply hproposes.tried.bind
      · intro first found htried
        cases htried with
        | lost htally =>
            apply ih.mono
            exact fun later result hlater => hlater.cons htally
        | settled hresult hbeaten hn htally =>
            cases found with
            | none => exact absurd rfl hresult
            | some a =>
                change Persisted _ _ (first ++ []) _
                rw [List.append_nil]
                exact persisted_settled htally rfl (by omega)
      · intro deeds e htried
        cases htried with
        | settled hresult hbeaten hn htally =>
            exact persisted_settled htally (by cases e <;> exact hbeaten) (by omega)

theorem Program.Looks.persisted {p : Program Failure α} (hlooks : p.Looks) (hleft : 0 < left) :
    p.Yields (Persisted operation left) := by
  apply hlooks.yields.mono
  intro deeds result hlooked
  exact ⟨0, 0, hlooked.1, Nat.zero_le left, by simp [hlooked.2, hleft.ne]⟩

theorem persisted_command {command : Command} {event : γ → Event} {answer : γ → Response}
    {rests : Bool} (hproposes : attempt.Proposes rests)
    (hperform : scope.perform command = scope.persist attempt >>= fun a =>
      .note (.event (event a)) (.done (.ok (answer a)))) :
    (scope.perform command).Yields (Persisted scope.operation scope.coordinator.attempts) := by
  rw [hperform]
  apply (persisted_attempts hproposes _).bind
  · exact fun first a hfirst => (hfirst.append (tally_noted rfl)).of_beaten rfl
  · exact fun deeds e hfirst => hfirst.of_beaten (by cases e <;> rfl)

end Loop

/-! ## Requests -/

section Requests

variable (scope : Scope)

theorem persisted_perform (command : Command) :
    (scope.perform command).Yields (Persisted scope.operation scope.coordinator.attempts) := by
  have hasks : command.Asks →
      (scope.perform command).Yields (Persisted scope.operation scope.coordinator.attempts) :=
    fun hasks => (looks_perform hasks).persisted scope.coordinator.attempts_pos
  cases command with
  | openDelta => exact persisted_command (proposes_open scope) (bind_bind _ _ _)
  | commitDelta asked =>
      have hgiven : ∀ date, (scope.perform (.commitDelta (some date))).Yields
          (Persisted scope.operation scope.coordinator.attempts) := by
        intro date
        have hbind := bind_bind (scope.persist (scope.tryCommit date.wholeSecond))
          (fun ok => Program.log (.committed ok)) fun _ => (pure .done : Program Failure Response)
        exact persisted_command (proposes_promote scope date.wholeSecond) hbind
      cases asked with
      | some date => exact hgiven date
      | none =>
          rw [perform_commitDelta_none]
          exact fun now => hgiven _
  | failDelta n => exact persisted_command (proposes_mark scope n) (bind_bind _ _ _)
  | discardDelta => exact persisted_command (proposes_discard scope) (bind_bind _ _ _)
  | registerWrite registration =>
      exact persisted_command (proposes_register scope registration) (bind_bind _ _ _)
  | succeedWrite n => exact persisted_command (proposes_finish scope n _) (bind_bind _ _ _)
  | failWrite n => exact persisted_command (proposes_finish scope n _) (bind_bind _ _ _)
  | withdrawWrite n => exact persisted_command (proposes_withdraw scope n) (bind_bind _ _ _)
  | _ => exact hasks trivial

end Requests

theorem persisted_execute (c : Coordinator) (r : Request) :
    (c.execute r).Yields (Persisted r.operation c.attempts) := by
  have hrefused : ∀ e : Failure, beaten (.error e : Except Failure Response) = false →
      (fail e : Program Failure Response).Yields (Persisted r.operation c.attempts) :=
    fun e he => Looks.persisted he c.attempts_pos
  unfold Coordinator.execute
  cases hfault : r.command.fault? with
  | some failure =>
      rw [eq_noTableName_of_fault? hfault]
      exact hrefused _ rfl
  | none =>
      unfold Scope.enter
      cases hroot : Datamart.parseRoot c.env r.datamart with
      | error e => exact hrefused _ rfl
      | ok root =>
          intro store
          have hstat := tally_of_reads (c := .stat root) rfl store
          have hentered : ∀ p : Program Failure Response,
              p.Yields (Persisted r.operation c.attempts) →
              p.Yields fun later => Persisted r.operation c.attempts (.met ⟨.stat root, store⟩ :: later) :=
            fun p hp => hp.mono fun later result hlater => hlater.prepend hstat
          cases (store.answer (.stat root)).1 with
          | error e => exact hentered _ (hrefused _ rfl)
          | ok found =>
              cases found with
              | none => exact hentered _ (hrefused _ rfl)
              | some stat =>
                  exact hentered _
                    (persisted_perform ⟨c, r.operation, r.datamart, .below root⟩ r.command)

/-- The label that the end of a request is counted under. -/
def outcomeOf : Except Failure Response → String
  | .ok _ => "ok"
  | .error failure => failure.kind

/-- What a request has come to: besides the retries, the end of one operation was measured. -/
def Concluded (r : Request) (left : Nat) (deeds : List Deed) (result : Except Failure Response) : Prop :=
  ∃ n k, Tally deeds n k (List.replicate k (.retried r.operation) ++
      [.finished r.operation (outcomeOf result)]) ∧ n ≤ left ∧
    (beaten result = true ↔ n = left ∧ k = left)

theorem concluded_serve (c : Coordinator) (r : Request) :
    (c.serve r).Yields (Concluded r c.attempts) := by
  apply (persisted_execute c r).andThen
  rintro first result ⟨n, k, htally, hn, hbeaten⟩
  have hspan : Tally [.noted (.entered (c.span r))] 0 0 [] := tally_noted rfl
  have hentered : Tally (.noted (.entered (c.span r)) :: first) n k
      (List.replicate k (.retried r.operation)) := hspan.prepend htally
  cases result with
  | ok response =>
      have hend : Tally [.noted .left, .noted (.measured (.finished r.operation "ok"))] 0 0
        [.finished r.operation "ok"] := ⟨rfl, rfl, rfl⟩
      exact ⟨n, k, hentered.append hend, hn, hbeaten⟩
  | error failure =>
      have hend : Tally [.noted (.event (.rejected failure)), .noted .left,
          .noted (.measured (.finished r.operation failure.kind))] 0 0
        [.finished r.operation failure.kind] := ⟨rfl, rfl, rfl⟩
      exact ⟨n, k, hentered.append hend, hn, hbeaten⟩

/-- How far an operation raises a series by its retries and one end. -/
def raised (operation : Operation) (retries : Nat) (outcome : String) : Series → Nat
  | .retries operation' => if operation = operation' then retries else 0
  | .durations operation' => if operation = operation' then 1 else 0
  | .operations operation' outcome' => if operation = operation' ∧ outcome = outcome' then 1 else 0

theorem count_series (operation : Operation) (retries : Nat) (outcome : String) (s : Series) :
    ((List.replicate retries (Measurement.retried operation) ++
      [Measurement.finished operation outcome]).flatMap Measurement.series).count s =
        raised operation retries outcome s := by
  have hretries : (List.replicate retries (Measurement.retried operation)).flatMap
      Measurement.series = List.replicate retries (.retries operation) := by
    induction retries with
    | zero => rfl
    | succ retries ih =>
        rw [List.replicate_succ, List.flatMap_cons, ih]
        rfl
  rw [List.flatMap_append, hretries, List.count_append, List.count_replicate]
  cases s <;> simp [Measurement.series, List.count_cons, raised]

/-- What a request has submitted and told, given its deeds and its result. -/
structure Coordinator.Accounts (c : Coordinator) (r : Request) (deeds : List Deed)
    (result : Except Failure Response) : Prop where
  submitted : (submissions deeds).length ≤ c.attempts
  conflict : (∃ message, result = .error (.conflict message)) ↔
    (submissions deeds).length = c.attempts ∧ ∀ e ∈ submissions deeds, e.aborts = true
  measured : ∀ (j : Journal) (s : Series), (j.after deeds).total s = j.total s +
    raised r.operation (aborted deeds) (outcomeOf result) s

/-- Whatever stores serve the calls of a request, each the next of them, it accounts for what it has
submitted, and its measurements tell how its transactions and the request itself have ended. -/
theorem Coordinator.accounts_performance (c : Coordinator) (r : Request)
    (stores : Nat → ObservedTree) (times : Nat → DateTime) :
    c.Accounts r ((c.serve r).performance stores times).1 ((c.serve r).performance stores times).2 := by
  obtain ⟨n, k, htally, hn, hbeaten⟩ := (concluded_serve c r).performance stores times
  generalize ((c.serve r).performance stores times).1 = deeds at *
  generalize ((c.serve r).performance stores times).2 = result at *
  refine ⟨htally.submitted.trans_le hn, ?_, ?_⟩
  · rw [← beaten_iff, hbeaten, ← aborted_eq_length_iff, htally.submitted, htally.lost]
    omega
  · intro j s
    rw [total_after, htally.measured, count_series, htally.lost]

/-- A datamart in which others open an epoch just before every transaction, and end it again. -/
def contended (n : Nat) : ObservedTree :=
  let actions := if n ∈ [3, 6, 9] then Sample.alone 0 .openDelta else []
  ⟨(Cluster.run Sample.time Sample.roots actions).history.now, [], [], 0⟩

example :
    let performed := (Sample.coordinator.serve ⟨"dtm", .openDelta⟩).performance contended
      fun _ => Sample.time
    beaten performed.2 = true ∧ (Journal.empty.after performed.1).total (.retries .openDelta) = 3 := by
  decide +kernel

end DeltaLedger
