import DeltaLedger.Proofs.CommittedHistory
import DeltaLedger.Proofs.GroundedTrees
import DeltaLedger.Proofs.ReadsAlone

/-!
# The ok delta of a date

A question for the state as of a date walks backwards through the ok deltas and takes the first
whose date is not later.  The dates never decrease with the numbers, so this is the latest of all
that are not later, and the one with the greatest number where several have its date.  There is
an answer as soon as there is such an ok delta.
-/

namespace DeltaLedger

theorem DateTime.lt_or_eq_of_le {t t' : DateTime} (hle : t ≤ t') : t < t' ∨ t = t' := by
  rcases Int.lt_or_eq_of_le hle with hlt | heq
  · exact .inl hlt
  · exact .inr (rank_injective heq)

namespace Book

/-- The ok delta of a date.  It is the latest of those that are not after the date, and of several
with its date it has the greatest number. -/
structure LatestBy (b : Book) (asOf : DateTime) (found : OkDelta) : Prop where
  stored : ∃ ok, b.ok found.deltaNum = some ok ∧ ok.record = found
  timely : found.deltaDate ≤ asOf
  latest : ∀ n ok, b.ok n = some ok → ok.record.deltaDate ≤ asOf →
    ok.record.deltaDate < found.deltaDate ∨
      ok.record.deltaDate = found.deltaDate ∧ ok.record.deltaNum ≤ found.deltaNum

/-- All ok deltas are after a date. -/
def NoneBy (b : Book) (asOf : DateTime) : Prop :=
  ∀ n ok, b.ok n = some ok → ¬ok.record.deltaDate ≤ asOf

section Walking

variable {b : Book} {asOf : DateTime} {n : Int} {ok : Versioned OkDelta}

theorem LatestBy.not_noneBy {found : OkDelta} (hlatest : b.LatestBy asOf found) :
    ¬b.NoneBy asOf := by
  intro hnone
  obtain ⟨ok, hok, rfl⟩ := hlatest.stored
  exact hnone _ ok hok hlatest.timely

/-- An ok delta that is not after the date has no greater number than the one of the date. -/
theorem LatestBy.number_le {found : OkDelta} (hlatest : b.LatestBy asOf found)
    (hconsecutive : b.Consecutive) (hok : b.ok n = some ok)
    (hdate : ok.record.deltaDate ≤ asOf) : n ≤ found.deltaNum := by
  obtain ⟨found, hfound, rfl⟩ := hlatest.stored
  rcases Int.le_total n found.record.deltaNum with hle | hge
  · exact hle
  · rcases hlatest.latest n ok hok hdate with hbefore | ⟨-, hle⟩
    · have hdated := hconsecutive.dated _ n found ok hge hfound hok
      exact absurd hbefore (Int.not_lt.mpr hdated)
    · rw [hconsecutive.own n ok hok] at hle
      exact hle

theorem LatestBy.unique {found found' : OkDelta} (hconsecutive : b.Consecutive)
    (hlatest : b.LatestBy asOf found) (hlatest' : b.LatestBy asOf found') : found = found' := by
  obtain ⟨ok, hok, rfl⟩ := hlatest.stored
  obtain ⟨ok', hok', rfl⟩ := hlatest'.stored
  have hle := hlatest'.number_le hconsecutive hok hlatest.timely
  have hle' := hlatest.number_le hconsecutive hok' hlatest'.timely
  rw [Int.le_antisymm hle hle', hok'] at hok
  cases hok
  rfl

theorem mem_oks (hvalid : b.Valid) (hok : b.ok n = some ok) : ok ∈ b.oks := by
  obtain ⟨hlow, hhigh⟩ := (hvalid.numbered n).mp ⟨ok, hok⟩
  refine List.mem_filterMap.mpr ⟨n.toNat, List.mem_range.mpr (by omega), ?_⟩
  rw [Int.toNat_of_nonneg hlow]
  exact hok

theorem ok_of_mem_oks (hconsecutive : b.Consecutive) (hmem : ok ∈ b.oks) :
    b.ok ok.record.deltaNum = some ok := by
  obtain ⟨k, -, hok⟩ := List.mem_filterMap.mp hmem
  rw [hconsecutive.own k ok hok]
  exact hok

theorem pairwise_oks (hconsecutive : b.Consecutive) :
    b.oks.Pairwise fun a a' => a.record.deltaNum < a'.record.deltaNum := by
  refine List.Pairwise.filterMap _ ?_ List.pairwise_lt_range
  intro k k' hlt a ha a' ha'
  rw [hconsecutive.own k a ha, hconsecutive.own k' a' ha']
  exact Int.ofNat_lt.mpr hlt

/-- The walk stops at the ok delta of the date, because none that was passed is timely, and none
that is left has a later date or a greater number. -/
theorem latestBy_of_find? {found : Versioned OkDelta} (hvalid : b.Valid)
    (hconsecutive : b.Consecutive)
    (hfound : b.oks.reverse.find? (fun ok => ok.record.deltaDate ≤ asOf) = some found) :
    b.LatestBy asOf found.record := by
  obtain ⟨htimely, newer, older, hsplit, hnewer⟩ := List.find?_eq_some_iff_append.mp hfound
  have hmem : found ∈ b.oks := List.mem_reverse.mp (List.mem_of_find?_eq_some hfound)
  have hstored := ok_of_mem_oks hconsecutive hmem
  refine ⟨⟨found, hstored, rfl⟩, of_decide_eq_true htimely, ?_⟩
  intro n ok hok hdate
  have hother : ok ∈ newer ++ found :: older := by
    rw [← hsplit]
    exact List.mem_reverse.mpr (mem_oks hvalid hok)
  have hnum : ok.record.deltaNum ≤ found.record.deltaNum := by
    rcases List.mem_append.mp hother with hpassed | hrest
    · have hlate := hnewer ok hpassed
      simp [hdate] at hlate
    · rcases List.mem_cons.mp hrest with rfl | holder
      · exact Int.le_refl _
      · have hsorted := List.pairwise_reverse.mpr (pairwise_oks hconsecutive)
        rw [hsplit] at hsorted
        have hafter := (List.pairwise_append.mp hsorted).2.1
        exact Int.le_of_lt ((List.pairwise_cons.mp hafter).1 ok holder)
  have hown := ok_of_mem_oks hconsecutive (mem_oks hvalid hok)
  rcases DateTime.lt_or_eq_of_le (hconsecutive.dated _ _ ok found hnum hown hstored) with hlt | heq
  · exact .inl hlt
  · exact .inr ⟨heq, hnum⟩

theorem readAsOf_cases (datamart : String) (asOf : DateTime) (hvalid : b.Valid)
    (hconsecutive : b.Consecutive) :
    (∃ found, b.LatestBy asOf found ∧ b.readAsOf datamart asOf = .ok found) ∨
      b.NoneBy asOf ∧ b.readAsOf datamart asOf = .error (.nothingCommittedBy datamart asOf) := by
  unfold readAsOf firstBy
  cases hfind : b.oks.reverse.find? (fun ok => ok.record.deltaDate ≤ asOf) with
  | some found => exact .inl ⟨found.record, latestBy_of_find? hvalid hconsecutive hfind, rfl⟩
  | none =>
      refine .inr ⟨?_, rfl⟩
      intro n ok hok hdate
      have hlate := List.find?_eq_none.mp hfind ok (List.mem_reverse.mpr (mem_oks hvalid hok))
      exact hlate (decide_eq_true hdate)

theorem latestBy_or_noneBy (asOf : DateTime) (hvalid : b.Valid) (hconsecutive : b.Consecutive) :
    (∃ found, b.LatestBy asOf found) ∨ b.NoneBy asOf := by
  rcases readAsOf_cases "" asOf hvalid hconsecutive with ⟨found, hlatest, -⟩ | ⟨hnone, -⟩
  · exact .inl ⟨found, hlatest⟩
  · exact .inr hnone

end Walking

end Book

namespace Cluster

variable {ι : Type} [DecidableEq ι] {time : DateTime} {roots : List (Name × String)}
variable {actions : List (Action ι)} {s : Site} {n : Int} {ok : Versioned OkDelta}

/-- A moment of a run at which an ok delta is there, and so the root of its datamart. -/
theorem has_root_of_ok {u : History} (hle : u ≤ (run time roots actions).history)
    (hok : (s.book u.now).ok n = some ok) : u.now.has s.root = true := by
  have hvalid := ((sound_run time roots actions).orderly.of_le hle).valid s
  cases hcounters : (s.book u.now).counters with
  | none =>
      have hnone := (hvalid.bare hcounters).2 n
      rw [hok] at hnone
      cases hnone
  | some counters =>
      obtain ⟨node, hnode, _⟩ := Tree.node_of_record? hcounters
      exact (grounded_run time roots actions u hle).has_root hnode

end Cluster

open Cluster Program

theorem runAlone_serve_readAsOf {c : Coordinator} {datamart : String} {s : Site} {t : Tree}
    (hserves : c.Serves datamart s) (hroot : t.has s.root = true) (hkept : s.Kept t)
    (hvalid : (s.book t).Valid) (asOf now : DateTime) :
    (c.serve ⟨datamart, .readAsOf asOf⟩).runAlone now t =
      (((s.book t).readAsOf datamart asOf).map .okDelta, t) := by
  have hasked : Asked c ⟨datamart, .readAsOf asOf⟩ s
      ((scopeAt c ⟨datamart, .readAsOf asOf⟩ s).readAsOf asOf) .okDelta :=
    .of_command hserves rfl rfl rfl
  exact hasked.runAlone hroot (runAlone_readAsOf rfl hkept hvalid asOf)

/-- In every state that requests lead to, a question for the ok delta of a date that runs alone
is answered with it, and changes nothing.  It fails exactly if all ok deltas are after the date,
or if the datamart has no root. -/
theorem readAsOf_answers {ι : Type} [DecidableEq ι] (time : DateTime)
    (roots : List (Name × String)) (actions : List (Action ι)) {c : Coordinator}
    {datamart : String} {s : Site} (hserves : c.Serves datamart s) (asOf now : DateTime) :
    ∃ answer, (c.serve ⟨datamart, .readAsOf asOf⟩).runAlone now
        (run time roots actions).history.now = (answer, (run time roots actions).history.now) ∧
      (∀ found, answer = .ok (.okDelta found) ↔
        (s.book (run time roots actions).history.now).LatestBy asOf found) ∧
      (answer = .error (.nothingCommittedBy datamart asOf) ↔
        (run time roots actions).history.now.has s.root = true ∧
          (s.book (run time roots actions).history.now).NoneBy asOf) ∧
      (answer = .error (.noDatamart datamart) ↔
        (run time roots actions).history.now.has s.root = false) ∧
      ((∃ found, (s.book (run time roots actions).history.now).LatestBy asOf found) ∨
        (s.book (run time roots actions).history.now).NoneBy asOf) := by
  have horderly := (sound_run time roots actions).orderly
  have hvalid := horderly.valid s
  have hconsecutive := consecutive_run time roots actions s _ (History.le_refl _)
  have htotal := Book.latestBy_or_noneBy asOf hvalid hconsecutive
  cases hroot : (run time roots actions).history.now.has s.root with
  | false =>
      refine ⟨_, runAlone_serve_of_missing hserves rfl hroot, ?_, ?_, by simp, htotal⟩
      · intro found
        constructor
        · nofun
        · intro hlatest
          obtain ⟨ok, hok, -⟩ := hlatest.stored
          rw [has_root_of_ok (History.le_refl _) hok] at hroot
          cases hroot
      · constructor
        · nofun
        · rintro ⟨hpresent, -⟩
          cases hpresent
  | true =>
      have hrun := runAlone_serve_readAsOf hserves hroot (horderly.kept s) hvalid asOf now
      rcases Book.readAsOf_cases datamart asOf hvalid hconsecutive with
        ⟨found, hlatest, htold⟩ | ⟨hnone, htold⟩
      · rw [htold] at hrun
        refine ⟨_, hrun, ?_, ?_, ⟨nofun, nofun⟩, htotal⟩
        · intro found'
          constructor
          · rintro ⟨⟩
            exact hlatest
          · intro hlatest'
            rw [hlatest.unique hconsecutive hlatest']
            rfl
        · exact ⟨nofun, fun h => absurd h.2 hlatest.not_noneBy⟩
      · rw [htold] at hrun
        refine ⟨_, hrun, ?_, ?_, ⟨nofun, nofun⟩, htotal⟩
        · exact fun found => ⟨nofun, fun hlatest => absurd hnone hlatest.not_noneBy⟩
        · exact ⟨fun _ => ⟨rfl, hnone⟩, fun _ => rfl⟩

section Samples

/-- Two epochs are committed with one date, and a third with a later one. -/
def sharedDate : List (Action Nat) :=
  Sample.alone 0 .openDelta ++ Sample.alone 1 (.commitDelta (some Sample.time)) ++
    Sample.alone 2 .openDelta ++ Sample.alone 3 (.commitDelta (some Sample.time)) ++
      Sample.alone 4 .openDelta ++
        Sample.alone 5 (.commitDelta (some ⟨⟨2021, 1, 2, by decide⟩, Sample.time.time⟩))

/-- A fraction of a leap second after the first date. -/
def withinLeapSecond : DateTime :=
  ⟨Sample.time.date, ⟨0, 0, 60, 500_000_000, by decide⟩⟩

theorem readAsOf_answers_sharedDate :
    (Sample.site.book (run Sample.time Sample.roots sharedDate).history.now).LatestBy
      withinLeapSecond ⟨1, Sample.time, 0, -1⟩ := by
  have htold : ((Sample.coordinator.serve ⟨"dtm", .readAsOf withinLeapSecond⟩).runAlone
      Sample.time (run Sample.time Sample.roots sharedDate).history.now).1 =
        .ok (.okDelta ⟨1, Sample.time, 0, -1⟩) := by
    decide +kernel
  obtain ⟨answer, halone, hfound, -⟩ :=
    readAsOf_answers Sample.time Sample.roots sharedDate Sample.serves_site withinLeapSecond
      Sample.time
  rw [halone] at htold
  exact (hfound _).mp htold

end Samples

end DeltaLedger
