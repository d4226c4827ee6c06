import DeltaLedger.Program.Journal
import DeltaLedger.Proofs.Encounters

/-!
# Programs as they are performed

A program is performed before a row of stores, one for each of its calls.  So the next call may find
anything, as other clients have been at work or the store was told to fail.  What the program does
consists of the encounters with these stores and of the notices that it gives.  What is to be shown of
all of its performances is carried along its constructors, from the end to the start.

From the deeds one can read off which transactions were submitted, what the stores have added to their
logs, and how far the journal has raised its series.
-/

namespace DeltaLedger

def Served.isAborted : Served → Bool
  | .transact _ committed => !committed
  | _ => false

namespace Encounter

/-- What the store has added to its log by the call. -/
def added (e : Encounter) : List Served :=
  if (e.store.failure? e.call).isSome then [] else e.call.served (e.store.answer e.call).1

theorem recent_after (e : Encounter) : e.after.recent = e.added ++ e.store.recent := by
  unfold after added ObservedTree.answer
  cases e.store.failure? e.call with
  | none => rfl
  | some error =>
      simp only [ObservedTree.afterFailure, Option.isSome_some, if_true, List.nil_append]
      split <;> rfl

/-- The log tells of an aborted transaction. -/
def aborts (e : Encounter) : Bool :=
  e.added.any Served.isAborted

theorem added_cases (e : Encounter) : e.added = [] ∨ ∃ entry, e.added = [entry] := by
  obtain ⟨c, store⟩ := e
  unfold added
  split
  · exact .inl rfl
  · cases c with
    | transact steps =>
        cases hreply : (store.answer (.transact steps)).1 with
        | error failure => exact .inl (by simp [Call.served])
        | ok outcome => exact .inr ⟨_, by simp only [Call.served]; rfl⟩
    | _ => exact .inr ⟨_, rfl⟩

theorem countP_added (e : Encounter) :
    e.added.countP Served.isAborted = if e.aborts then 1 else 0 := by
  unfold aborts
  rcases e.added_cases with hnone | ⟨entry, hentry⟩
  · simp [hnone]
  · simp [hentry, List.countP_cons]

theorem isTransaction_of_aborts {e : Encounter} (haborts : e.aborts = true) :
    e.call.isTransaction = true := by
  obtain ⟨c, store⟩ := e
  unfold aborts added at haborts
  split at haborts
  · cases haborts
  · cases c with
    | transact steps => rfl
    | _ => cases haborts

theorem aborts_transact (steps : List Step) (store : ObservedTree) :
    (⟨.transact steps, store⟩ : Encounter).aborts =
      match (store.answer (.transact steps)).1 with
      | .ok (.aborted _ _ _) => true
      | _ => false := by
  unfold aborts added
  cases hfailure : store.failure? (.transact steps) with
  | some e => simp [ObservedTree.answer, hfailure]
  | none =>
      rcases (store.answer (.transact steps)).1 with e | outcome
      · rfl
      · cases outcome <;> rfl

end Encounter

inductive Deed where
  | met (e : Encounter)
  | noted (n : Notice)

namespace Deed

def submission? : Deed → Option Encounter
  | met e => if e.call.isTransaction then some e else none
  | noted _ => none

def added : Deed → List Served
  | met e => e.added
  | noted _ => []

def notice? : Deed → Option Notice
  | met _ => none
  | noted n => some n

def measurement? : Deed → Option Measurement
  | noted (.measured m) => some m
  | _ => none

end Deed

/-- The calls that have submitted a transaction. -/
def submissions (deeds : List Deed) : List Encounter :=
  deeds.filterMap Deed.submission?

/-- The transactions that stores have logged as aborted. -/
def aborted (deeds : List Deed) : Nat :=
  (deeds.flatMap Deed.added).countP Served.isAborted

/-- How often the journal has raised a series. -/
def Journal.total (j : Journal) (s : Series) : Nat :=
  (j.measurements.flatMap Measurement.series).count s

/-- The journal after the notices among some deeds. -/
def Journal.after (j : Journal) (deeds : List Deed) : Journal :=
  (deeds.filterMap Deed.notice?).foldl Journal.note j

theorem aborted_eq_countP (deeds : List Deed) :
    aborted deeds = (submissions deeds).countP Encounter.aborts := by
  induction deeds with
  | nil => rfl
  | cons deed deeds ih =>
      cases deed with
      | noted n => exact ih
      | met e =>
          have hcons : aborted (.met e :: deeds) = (if e.aborts then 1 else 0) + aborted deeds := by
            simp only [aborted, List.flatMap_cons, List.countP_append, Deed.added, e.countP_added]
          by_cases hkind : e.call.isTransaction = true
          · simp [hcons, ih, submissions, Deed.submission?, hkind, List.countP_cons, Nat.add_comm]
          · have haborts : e.aborts = false :=
              Bool.eq_false_iff.mpr fun haborts => hkind (Encounter.isTransaction_of_aborts haborts)
            simp [hcons, ih, submissions, Deed.submission?, hkind, haborts]

/-- All transactions were aborted exactly when as many were aborted as submitted. -/
theorem aborted_eq_length_iff {deeds : List Deed} :
    aborted deeds = (submissions deeds).length ↔ ∀ e ∈ submissions deeds, e.aborts = true := by
  rw [aborted_eq_countP, List.countP_eq_length]

/-! ## Series -/

theorem mem_counts_iff {j : Journal} {s : Series} {n : Nat} :
    (s, n) ∈ counts j.measurements ↔ n = j.total s ∧ 0 < n := by
  simp only [counts, Journal.total, List.mem_map, List.mem_eraseDups, Prod.mk.injEq]
  constructor
  · rintro ⟨s, hmem, rfl, rfl⟩
    exact ⟨rfl, List.count_pos_iff.mpr hmem⟩
  · rintro ⟨rfl, hpos⟩
    exact ⟨s, List.count_pos_iff.mp hpos, rfl, rfl⟩

theorem Operation.ofName?_name (operation : Operation) : ofName? operation.name = some operation := by
  cases operation <;> decide

theorem Operation.name_injective {operation operation' : Operation}
    (hname : operation.name = operation'.name) : operation = operation' := by
  have hfound := ofName?_name operation
  rw [hname, ofName?_name] at hfound
  exact (Option.some.inj hfound).symm

/-- Series of one metric that share their labels are the same. -/
theorem Series.eq_of_labels {s s' : Series} (hmetric : s.metric = s'.metric)
    (hlabels : s.labels = s'.labels) : s = s' := by
  cases s with
  | operations operation outcome =>
      cases s' with
      | operations operation' outcome' =>
          simp only [labels, List.cons.injEq, Prod.mk.injEq, true_and, and_true] at hlabels
          rw [Operation.name_injective hlabels.1, hlabels.2]
      | _ => cases hmetric
  | durations operation =>
      cases s' with
      | durations operation' =>
          simp only [labels, List.cons.injEq, Prod.mk.injEq, true_and, and_true] at hlabels
          rw [Operation.name_injective hlabels]
      | _ => cases hmetric
  | retries operation =>
      cases s' with
      | retries operation' =>
          simp only [labels, List.cons.injEq, Prod.mk.injEq, true_and, and_true] at hlabels
          rw [Operation.name_injective hlabels]
      | _ => cases hmetric

theorem measurements_after {j : Journal} {deeds : List Deed} :
    (j.after deeds).measurements = (deeds.filterMap Deed.measurement?).reverse ++ j.measurements := by
  induction deeds generalizing j with
  | nil => rfl
  | cons deed deeds ih =>
      cases deed with
      | met e => exact ih
      | noted n =>
          have hrest : (j.after (.noted n :: deeds)).measurements =
              (deeds.filterMap Deed.measurement?).reverse ++ (j.note n).measurements := ih
          cases n with
          | measured m => simp [hrest, Journal.note, Deed.measurement?]
          | _ => exact hrest

theorem total_after {j : Journal} {deeds : List Deed} {s : Series} :
    (j.after deeds).total s =
      j.total s + ((deeds.filterMap Deed.measurement?).flatMap Measurement.series).count s := by
  have hperm := ((deeds.filterMap Deed.measurement?).reverse_perm.flatMap_right Measurement.series)
  rw [Journal.total, measurements_after, List.flatMap_append, List.count_append, hperm.count_eq,
    Nat.add_comm, Journal.total]

/-! ## Performances -/

/-- What is left of the stores that serve the calls and of the times that the clock shows, and what was
done before them, the newest first. -/
structure Stage where
  stores : Nat → ObservedTree
  times : Nat → DateTime
  deeds : List Deed

namespace Stage

def serve (c : Call) : StateM Stage c.Reply := fun s =>
  (((s.stores 0).answer c).1,
    { s with stores := fun n => s.stores (n + 1), deeds := .met ⟨c, s.stores 0⟩ :: s.deeds })

def time : StateM Stage DateTime := fun s =>
  (s.times 0, { s with times := fun n => s.times (n + 1) })

def take (n : Notice) : StateM Stage Unit := fun s =>
  ((), { s with deeds := .noted n :: s.deeds })

end Stage

namespace Program

variable {ε ε' α β : Type} {post : List Deed → Except ε α → Prop}

def onStage (p : Program ε α) : StateM Stage (Except ε α) :=
  p.run Stage.serve Stage.time Stage.take

/-- The deeds and the result of a program whose calls are served by the stores of a row, one after
another. -/
def performance (p : Program ε α) (stores : Nat → ObservedTree) (times : Nat → DateTime) :
    List Deed × Except ε α :=
  let (result, s) := p.onStage ⟨stores, times, []⟩
  (s.deeds.reverse, result)

/-- Every performance of the program is as stated. -/
def Yields : Program ε α → (List Deed → Except ε α → Prop) → Prop
  | .done result, post => post [] result
  | .call c next, post => ∀ store,
      (next (store.answer c).1).Yields fun later => post (.met ⟨c, store⟩ :: later)
  | .clock next, post => ∀ now, (next now).Yields post
  | .note n next, post => next.Yields fun later => post (.noted n :: later)

theorem Yields.onStage {p : Program ε α} (hyields : p.Yields post) (s : Stage) :
    ∃ later, (p.onStage s).2.deeds = later.reverse ++ s.deeds ∧ post later (p.onStage s).1 := by
  induction p generalizing post s with
  | done result => exact ⟨[], rfl, hyields⟩
  | call c next ih =>
      obtain ⟨later, hdeeds, hpost⟩ := ih _ (hyields (s.stores 0)) (Stage.serve c s).2
      exact ⟨.met ⟨c, s.stores 0⟩ :: later, hdeeds.trans (by simp [Stage.serve]), hpost⟩
  | clock next ih => exact ih _ (hyields (s.times 0)) (Stage.time s).2
  | note n next ih =>
      obtain ⟨later, hdeeds, hpost⟩ := ih hyields (Stage.take n s).2
      exact ⟨.noted n :: later, hdeeds.trans (by simp [Stage.take]), hpost⟩

theorem Yields.performance {p : Program ε α} (hyields : p.Yields post)
    (stores : Nat → ObservedTree) (times : Nat → DateTime) :
    post (p.performance stores times).1 (p.performance stores times).2 := by
  obtain ⟨later, hdeeds, hpost⟩ := hyields.onStage ⟨stores, times, []⟩
  have hreverse : (p.performance stores times).1 = later := by
    change ((p.onStage ⟨stores, times, []⟩).2.deeds).reverse = later
    rw [hdeeds, List.append_nil, List.reverse_reverse]
  rw [hreverse]
  exact hpost

theorem Yields.mono {p : Program ε α} {post' : List Deed → Except ε α → Prop}
    (hyields : p.Yields post) (himp : ∀ deeds result, post deeds result → post' deeds result) :
    p.Yields post' := by
  induction p generalizing post post' with
  | done result => exact himp [] result hyields
  | call c next ih => exact fun store => ih _ (hyields store) fun deeds result => himp _ result
  | clock next ih => exact fun now => ih now (hyields now) himp
  | note n next ih => exact ih hyields fun deeds result => himp _ result

theorem Yields.andThen {p : Program ε α} {f : Except ε α → Program ε' β}
    {final : List Deed → Except ε' β → Prop} (hyields : p.Yields post)
    (hnext : ∀ first result, post first result →
      (f result).Yields fun later => final (first ++ later)) : (p.andThen f).Yields final := by
  induction p generalizing post final with
  | done result => exact hnext [] result hyields
  | call c next ih => exact fun store => ih _ (hyields store) fun first result => hnext _ result
  | clock next ih => exact fun now => ih now (hyields now) hnext
  | note n next ih => exact ih hyields fun first result => hnext _ result

theorem Yields.bind {p : Program ε α} {f : α → Program ε β} {final : List Deed → Except ε β → Prop}
    (hyields : p.Yields post)
    (hok : ∀ first a, post first (.ok a) → (f a).Yields fun later => final (first ++ later))
    (herror : ∀ deeds e, post deeds (.error e) → final deeds (.error e)) :
    (p >>= f).Yields final := by
  induction p generalizing post final with
  | done result =>
      cases result with
      | ok a => exact hok [] a hyields
      | error e => exact herror [] e hyields
  | call c next ih =>
      exact fun store => ih _ (hyields store) (fun first => hok _) fun deeds => herror _
  | clock next ih => exact fun now => ih now (hyields now) hok herror
  | note n next ih => exact ih hyields (fun first => hok _) fun deeds => herror _

end Program

/-! ## Tallies -/

/-- What some deeds come to: the transactions submitted, those aborted, and the measurements. -/
structure Tally (deeds : List Deed) (submitted lost : Nat) (measured : List Measurement) : Prop where
  submitted : (submissions deeds).length = submitted
  lost : aborted deeds = lost
  measured : deeds.filterMap Deed.measurement? = measured

section Tallies

variable {first later : List Deed} {m n k l : Nat} {before after : List Measurement}

theorem Tally.nil : Tally [] 0 0 [] :=
  ⟨rfl, rfl, rfl⟩

theorem Tally.append (hfirst : Tally first m k before) (hlater : Tally later n l after) :
    Tally (first ++ later) (m + n) (k + l) (before ++ after) where
  submitted := by
    rw [submissions, List.filterMap_append, List.length_append]
    exact congrArg₂ (· + ·) hfirst.submitted hlater.submitted
  lost := by
    rw [aborted, List.flatMap_append, List.countP_append]
    exact congrArg₂ (· + ·) hfirst.lost hlater.lost
  measured := by
    rw [List.filterMap_append, hfirst.measured, hlater.measured]

/-- Deeds that come to nothing add nothing to the deeds after them. -/
theorem Tally.prepend (hfirst : Tally first 0 0 []) (hlater : Tally later n k after) :
    Tally (first ++ later) n k after := by
  simpa using hfirst.append hlater

theorem tally_of_reads {c : Call} (hreads : c.reads = true) (store : ObservedTree) :
    Tally [.met ⟨c, store⟩] 0 0 [] := by
  have hsubmissions : submissions [.met ⟨c, store⟩] = [] := by
    cases c with
    | transact steps => cases hreads
    | _ => rfl
  exact ⟨congrArg List.length hsubmissions, by rw [aborted_eq_countP, hsubmissions]; rfl, rfl⟩

theorem tally_transact (steps : List Step) (store : ObservedTree) :
    Tally [.met ⟨.transact steps, store⟩] 1
      (if (⟨.transact steps, store⟩ : Encounter).aborts then 1 else 0) [] where
  submitted := rfl
  lost := by
    rw [aborted_eq_countP]
    exact List.countP_singleton
  measured := rfl

theorem tally_noted {notice : Notice} (hnotice : (Deed.noted notice).measurement? = none) :
    Tally [.noted notice] 0 0 [] :=
  ⟨rfl, rfl, by rw [List.filterMap_cons_none hnotice]; rfl⟩

end Tallies

end DeltaLedger
