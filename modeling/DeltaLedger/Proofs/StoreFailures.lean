import DeltaLedger.Proofs.AtomicRequests
import DeltaLedger.Proofs.ConfinedRequests

/-!
# Failures of the store are passed on

A store that was told to fail a call answers with an error and does nothing.  Of itself a
tree has no error for what a request asks but that a directory is missing, which is an
answer.  So a request says that the store is unavailable exactly when a call of it was
failed, whatever the store holds and whatever others do to it between two calls, and then
this was its last call, the error is the one of that call, and the request has changed
nothing.
-/

namespace DeltaLedger

open Program

namespace Encounter

/-- The error with which the store was told to fail the call. -/
def failure? (e : Encounter) : Option StoreError :=
  e.store.failure? e.call

end Encounter

namespace ObservedTree

variable {store : ObservedTree} {c : Call} {s : Site} {cause : StoreError}

theorem answer_eq_of_failure (hfailure : store.failure? c = some cause) :
    store.answer c = (.error cause, store.afterFailure c) := by
  simp only [answer, hfailure]

theorem answer_eq_of_no_failure (hfailure : store.failure? c = none) :
    store.answer c = ((store.tree.answer c).1, { store with
      tree := (store.tree.answer c).2
      recent := c.served (store.tree.answer c).1 ++ store.recent }) := by
  simp only [answer, hfailure]

theorem answer_of_failure (hfailure : store.failure? c = some cause) :
    (store.answer c).1 = .error cause := by
  rw [answer_eq_of_failure hfailure]

theorem answer_of_no_failure (hfailure : store.failure? c = none) :
    (store.answer c).1 = (store.tree.answer c).1 := by
  rw [answer_eq_of_no_failure hfailure]

theorem isUnavailable_of_failure (hfailure : store.failure? c = some cause) :
    cause.isUnavailable = true := by
  unfold failure? at hfailure
  split at hfailure
  next =>
    cases hfailure
    rfl
  next =>
    obtain ⟨path, _, rfl⟩ := Option.map_eq_some_iff.mp hfailure
    rfl

/-- No failure of the store can be taken for an answer. -/
theorem not_excuses_of_failure (hfailure : store.failure? c = some cause) :
    ¬c.Excuses cause := by
  have hunavailable := isUnavailable_of_failure hfailure
  intro hexcuses
  unfold Call.Excuses at hexcuses
  split at hexcuses
  next => cases hunavailable
  next => exact hexcuses

end ObservedTree

/-! ## Programs -/

/-- How a result speaks about the calls that led to it: none of them was failed, and it does
not blame the store; or the last one was, and no other, and it is the error of that call. -/
inductive Reported {γ : Type} (seen : List Encounter) : Except Failure γ → Prop where
  | served {result : Except Failure γ} (hseen : ∀ e ∈ seen, e.failure? = none)
      (hblameless : Blameless .whole result) : Reported seen result
  | failed {e : Encounter} {before : List Encounter} {cause : StoreError}
      (hlast : seen = e :: before) (hfailure : e.failure? = some cause)
      (hbefore : ∀ e ∈ before, e.failure? = none) : Reported seen (.error (.unavailable cause))

namespace Program

variable {α : Type} {s : Site} {seen : List Encounter}

theorem Concludes.ensures {ε : Type} {p : Program ε α} {result : Except ε α}
    {post : List Encounter → Except ε α → Prop} (hconcludes : p.Concludes result)
    (hpost : post seen result) : p.Ensures post seen := by
  induction p with
  | done found =>
      cases hconcludes
      exact hpost
  | call c next => exact hconcludes.elim
  | clock next => exact hconcludes.elim
  | note notice next ih => exact ih hconcludes

theorem Confined.ensures {p : Program Failure α} (hconfined : p.Confined s .whole)
    (hseen : ∀ e ∈ seen, e.failure? = none) : p.Ensures Reported seen := by
  induction p generalizing seen with
  | done result => exact .served hseen hconfined
  | call c next ih =>
      obtain ⟨hwithin, _, hok, hexcused, herror⟩ := hconfined
      intro store
      cases hfailure : store.failure? c with
      | none =>
          have hseen' : ∀ e ∈ ⟨c, store⟩ :: seen, Encounter.failure? e = none :=
            List.forall_mem_cons.mpr ⟨hfailure, hseen⟩
          rw [ObservedTree.answer_of_no_failure hfailure]
          rcases store.tree.answer_within hwithin with ⟨result, hanswer⟩ | ⟨e, hanswer, hexcuses⟩
          · rw [hanswer]
            exact ih _ (hok result) hseen'
          · rw [hanswer]
            exact ih _ (hexcused e hexcuses) hseen'
      | some cause =>
          rw [ObservedTree.answer_of_failure hfailure]
          have hconcludes := herror cause (ObservedTree.not_excuses_of_failure hfailure)
          exact hconcludes.ensures (.failed rfl hfailure hseen)
  | clock next ih => exact fun now => ih now (hconfined.2 now) hseen
  | note notice next ih => exact ih hconfined hseen

/-- A tree that is told nothing is never blamed. -/
theorem Confined.blameless_runAlone {p : Program Failure α} (hconfined : p.Confined s .whole)
    (time : DateTime) (t : Tree) : Blameless .whole (p.runAlone time t).1 := by
  induction p generalizing t with
  | done result => exact hconfined
  | call c next ih =>
      obtain ⟨hwithin, _, hok, hexcused, _⟩ := hconfined
      unfold runAlone
      rcases t.answer_within hwithin with ⟨result, hanswer⟩ | ⟨e, hanswer, hexcuses⟩
      · rw [hanswer]
        exact ih _ (hok result) _
      · rw [hanswer]
        exact ih _ (hexcused e hexcuses) _
  | clock next ih => exact ih time (hconfined.2 time) t
  | note notice next ih => exact ih hconfined t

end Program

/-! ## Requests -/

/-- What the result of a request says about the calls that it has made, the newest first. -/
structure FailuresTold (seen : List Encounter) (result : Except Failure Response) : Prop where
  unavailable_iff : (∃ cause, result = .error (.unavailable cause)) ↔
    ∃ e ∈ seen, ∃ cause, e.failure? = some cause
  last : ∀ later e before cause, seen = later ++ e :: before → e.failure? = some cause →
    later = []
  cause : ∀ e ∈ seen, ∀ cause, e.failure? = some cause → result = .error (.unavailable cause)
  unchanged : ∀ cause, result = .error (.unavailable cause) →
    ∀ e ∈ seen, e.after.tree = e.store.tree

theorem Reported.eq_of_mem {γ : Type} {seen : List Encounter} {result : Except Failure γ}
    {e : Encounter} {cause : StoreError} (hreported : Reported seen result) (he : e ∈ seen)
    (hfailure : e.failure? = some cause) :
    result = .error (.unavailable cause) ∧ ∃ before, seen = e :: before ∧
      ∀ e ∈ before, e.failure? = none := by
  cases hreported with
  | served hseen =>
      rw [hseen e he] at hfailure
      cases hfailure
  | @failed last before found hlast hfound hbefore =>
      rw [hlast] at he
      rcases List.mem_cons.mp he with rfl | he
      · rw [hfound] at hfailure
        cases hfailure
        exact ⟨rfl, before, hlast, hbefore⟩
      · rw [hbefore e he] at hfailure
        cases hfailure

theorem failuresTold_of_reported {c : Coordinator} {r : Request} {seen : List Encounter}
    {result : Except Failure Response} (hreported : Reported seen result)
    (hdecided : Decided (c.Spared r) seen result) : FailuresTold seen result := by
  constructor
  case unavailable_iff =>
    constructor
    · rintro ⟨cause, rfl⟩
      cases hreported with
      | served _ hblameless => cases (hblameless _ rfl).1
      | failed hlast hfailure => exact ⟨_, by simp [hlast], cause, hfailure⟩
    · rintro ⟨e, he, cause, hfailure⟩
      exact ⟨cause, (hreported.eq_of_mem he hfailure).1⟩
  case last =>
    intro later e before cause hseen hfailure
    have he : e ∈ seen := by simp [hseen]
    obtain ⟨_, before', hlast, hbefore⟩ := hreported.eq_of_mem he hfailure
    cases later with
    | nil => rfl
    | cons first later =>
        rw [hseen, List.cons_append] at hlast
        injection hlast with _ hlast
        rw [hbefore e (by simp [← hlast])] at hfailure
        cases hfailure
  case cause => exact fun e he cause hfailure => (hreported.eq_of_mem he hfailure).1
  case unchanged =>
    rintro cause rfl
    cases hdecided with
    | failed hharmless => exact fun e he => (hharmless e he).tree_after

/-- A request that has come to its end says that the store is unavailable if and only if a
call of it was failed.  No failure is taken for an empty ledger or a missing record, and a
plain tree, which fails nothing, is never blamed. -/
theorem unavailable_iff_call_failed (c : Coordinator) (r : Request) :
    (∀ seen result, (c.serve r).Meets seen (.done result) → FailuresTold seen result) ∧
      ∀ time t cause, ((c.serve r).runAlone time t).1 ≠ .error (.unavailable cause) := by
  obtain ⟨s, hconfined⟩ := exists_confined_serve c r
  constructor
  · intro seen result hmeets
    have hreported : Reported seen result := (hconfined.ensures (by simp)).meets hmeets
    exact failuresTold_of_reported hreported ((ensures_serve c r).meets hmeets)
  · intro time t cause hresult
    cases (hconfined.blameless_runAlone time t _ hresult).1

section Samples

/-- An epoch is open, and its ledger cannot be listed. -/
def unlistedStore : ObservedTree :=
  ⟨(Cluster.run Sample.time Sample.roots (Sample.alone 0 .openDelta)).history.now, [],
    ["/test/dtm/delta/write_op"], 0⟩

theorem unavailable_iff_call_failed_listing :
    ∃ seen result, (Sample.coordinator.serve ⟨"dtm", .readLedger⟩).Meets seen (.done result) ∧
      (∃ e ∈ seen, e.call = .children "/test/dtm/delta/write_op" ∧
        ∃ cause, e.failure? = some cause) ∧ FailuresTold seen result := by
  have hfails : ((Sample.coordinator.serve ⟨"dtm", .readLedger⟩).alone Sample.time unlistedStore
      []).1.any (fun e => decide (e.call = .children "/test/dtm/delta/write_op") &&
        e.failure?.isSome) = true := by
    decide +kernel
  obtain ⟨e, he, hlisting⟩ := List.any_eq_true.mp hfails
  obtain ⟨hcall, hfailure⟩ := Bool.and_eq_true_iff.mp hlisting
  have hmeets := meets_alone Sample.time unlistedStore
    (.start (p := Sample.coordinator.serve ⟨"dtm", .readLedger⟩))
  exact ⟨_, _, hmeets, ⟨e, he, of_decide_eq_true hcall, Option.isSome_iff_exists.mp hfailure⟩,
    (unavailable_iff_call_failed _ _).1 _ _ hmeets⟩

end Samples

end DeltaLedger
