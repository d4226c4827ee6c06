import DeltaLedger.Proofs.ClusterSteps
import DeltaLedger.Proofs.KeyOrder

/-!
# The committed history

The ok deltas of a datamart are numbered from zero without gaps, their ranges follow one
another, and their dates do not decrease.  A commit writes the start of its range from a
hot delta that may be outdated, and still it starts after all ranges before it.  The
epoch that was read had the number that is next at the commit, so no ok delta has come
in between, and the epoch started after the ranges that were there when it was read.

This is why the ok deltas are followed through all moments of a history and not only
from one step to the next.
-/

namespace DeltaLedger

namespace Book

/-- What holds of the ok deltas of a book, and of the epoch or the number that comes next. -/
structure Consecutive (b : Book) : Prop where
  own : ∀ n ok, b.ok n = some ok → ok.record.deltaNum = n
  spans : ∀ n ok, b.ok n = some ok → ok.record.cnFrom - 1 ≤ ok.record.cnTo
  below : ∀ n ok, b.ok n = some ok → ok.record.cnTo < b.start
  apart : ∀ m n ok ok', m < n → b.ok m = some ok → b.ok n = some ok' →
    ok.record.cnTo < ok'.record.cnFrom
  dated : ∀ m n ok ok', m ≤ n → b.ok m = some ok → b.ok n = some ok' →
    ok.record.deltaDate ≤ ok'.record.deltaDate

theorem consecutive_blank : blank.Consecutive where
  own _ _ hok := by cases hok
  spans _ _ hok := by cases hok
  below _ _ hok := by cases hok
  apart _ _ _ _ _ hok := by cases hok
  dated _ _ _ _ _ hok := by cases hok

section Moving

variable {b b' : Book} {m : Move}

theorem Consecutive.of_ok_eq (hconsecutive : b.Consecutive) (hok : b'.ok = b.ok)
    (hstart : b.start ≤ b'.start) : b'.Consecutive where
  own n ok hfound := hconsecutive.own n ok (by rw [← hok, hfound])
  spans n ok hfound := hconsecutive.spans n ok (by rw [← hok, hfound])
  below n ok hfound := by
    have hbelow := hconsecutive.below n ok (by rw [← hok, hfound])
    exact Int.lt_of_lt_of_le hbelow hstart
  apart := by
    rw [hok]
    exact hconsecutive.apart
  dated := by
    rw [hok]
    exact hconsecutive.dated

theorem Moves.ok_eq (hmoves : b.Moves m b') (hother : ∀ view date, m ≠ .promoted view date) :
    b'.ok = b.ok := by
  cases hmoves with
  | promoted => exact absurd rfl (hother _ _)
  | _ => rfl

theorem Moves.deltaNum_eq {view : HotDelta} {date : DateTime}
    (hmoves : b.Moves (.promoted view date) b') : view.deltaNum = b.sequence.nextDeltaNum := by
  cases hmoves with
  | promoted _ hcounters _ _ hnum =>
      rw [sequence_of_counters hcounters]
      exact hnum

/-- After a commit every ok delta is the new one, or was there before under a smaller
number. -/
theorem Moves.ok_cases {view : HotDelta} {date : DateTime} {n : Int} {ok : Versioned OkDelta}
    (hmoves : b.Moves (.promoted view date) b') (hvalid : b.Valid) (hok : b'.ok n = some ok) :
    n = view.deltaNum ∧ ok.record = b.sequence.close view date ∨
      n < view.deltaNum ∧ b.ok n = some ok := by
  have hnum := hmoves.deltaNum_eq
  cases hmoves with
  | @promoted _ _ hot counters hhot hcounters =>
      change (if n = view.deltaNum then _ else _) = some ok at hok
      split at hok
      next hn =>
        cases hok
        rw [sequence_of_counters hcounters]
        exact .inl ⟨hn, rfl⟩
      next =>
        have hbound := ((hvalid.numbered n).mp ⟨ok, hok⟩).2
        rw [← hnum] at hbound
        exact .inr ⟨hbound, hok⟩

theorem Moves.start_promoted {view : HotDelta} {date : DateTime}
    (hmoves : b.Moves (.promoted view date) b') : b'.start = b.sequence.nextCn := by
  cases hmoves with
  | promoted _ hcounters =>
      rw [sequence_of_counters hcounters]
      rfl

theorem Moves.cnFrom_le {view : HotDelta} {date : DateTime}
    (hmoves : b.Moves (.promoted view date) b') (hvalid : b.Valid) :
    view.cnFrom ≤ b.sequence.nextCn := by
  cases hmoves with
  | promoted hhot _ hrolling _ _ hfrom =>
      exact Int.le_trans hfrom (hvalid.current _ hhot hrolling).2

/-- A date that is not before the date of the last ok delta is not before any. -/
theorem Consecutive.deltaDate_le {date : DateTime} {n : Int} {ok : Versioned OkDelta}
    (hconsecutive : b.Consecutive) (hvalid : b.Valid)
    (hdate : ∀ n ok, b.sequence.lastDeltaNum = some n → b.ok n = some ok →
      ok.record.deltaDate ≤ date) (hok : b.ok n = some ok) : ok.record.deltaDate ≤ date := by
  obtain ⟨hlow, hhigh⟩ := (hvalid.numbered n).mp ⟨ok, hok⟩
  cases hnumber : b.sequence.lastDeltaNum with
  | none =>
      rw [Counters.nextDeltaNum, hnumber] at hhigh
      dsimp only at hhigh
      omega
  | some last =>
      have hnext : b.sequence.nextDeltaNum = last + 1 := by rw [Counters.nextDeltaNum, hnumber]
      obtain ⟨ok', hok'⟩ := (hvalid.numbered last).mpr ⟨by omega, by omega⟩
      have hdated := hconsecutive.dated n last ok ok' (by omega) hok hok'
      exact Int.le_trans hdated (hdate last ok' hnumber hok')

/-- A commit goes on with the ranges and the dates if the epoch that was read started
after all ranges, and the date is not before the last one. -/
theorem Consecutive.promoted {view : HotDelta} {date : DateTime} (hconsecutive : b.Consecutive)
    (hvalid : b.Valid) (hmoves : b.Moves (.promoted view date) b')
    (hbefore : ∀ n ok, b.ok n = some ok → ok.record.cnTo < view.cnFrom)
    (hdate : ∀ n ok, b.sequence.lastDeltaNum = some n → b.ok n = some ok →
      ok.record.deltaDate ≤ date) : b'.Consecutive := by
  constructor
  case own =>
    intro n ok hok
    rcases hmoves.ok_cases hvalid hok with ⟨rfl, hnew⟩ | ⟨_, hold⟩
    · rw [hnew]
      rfl
    · exact hconsecutive.own n ok hold
  case spans =>
    intro n ok hok
    rcases hmoves.ok_cases hvalid hok with ⟨_, hnew⟩ | ⟨_, hold⟩
    · rw [hnew]
      exact Int.le_max_right _ _
    · exact hconsecutive.spans n ok hold
  case below =>
    intro n ok hok
    rw [hmoves.start_promoted]
    rcases hmoves.ok_cases hvalid hok with ⟨_, hnew⟩ | ⟨_, hold⟩
    · have hfrom := hmoves.cnFrom_le hvalid
      rw [hnew]
      change max (b.sequence.nextCn - 1) (view.cnFrom - 1) < b.sequence.nextCn
      omega
    · exact Int.lt_of_lt_of_le (hconsecutive.below n ok hold) hvalid.start_le
  case apart =>
    intro k n ok ok' hlt hok hok'
    rcases hmoves.ok_cases hvalid hok' with ⟨rfl, hnew⟩ | ⟨hn, hold'⟩
    · rcases hmoves.ok_cases hvalid hok with ⟨hk, _⟩ | ⟨_, hold⟩
      · omega
      · rw [hnew]
        exact hbefore k ok hold
    · rcases hmoves.ok_cases hvalid hok with ⟨hk, _⟩ | ⟨_, hold⟩
      · omega
      · exact hconsecutive.apart k n ok ok' hlt hold hold'
  case dated =>
    intro k n ok ok' hle hok hok'
    rcases hmoves.ok_cases hvalid hok' with ⟨rfl, hnew'⟩ | ⟨hn, hold'⟩
    · rcases hmoves.ok_cases hvalid hok with ⟨_, hnew⟩ | ⟨_, hold⟩
      · rw [hnew, hnew']
        exact Int.le_refl _
      · rw [hnew']
        exact hconsecutive.deltaDate_le hvalid hdate hold
    · rcases hmoves.ok_cases hvalid hok with ⟨hk, _⟩ | ⟨_, hold⟩
      · omega
      · exact hconsecutive.dated k n ok ok' hle hold hold'

end Moving

end Book

/-! ## Moments -/

/-- A delta with the number that is next, which starts after all ranges. -/
structure Book.Follows (b : Book) (hot : HotDelta) : Prop where
  next : hot.deltaNum = b.sequence.nextDeltaNum
  above : ∀ n ok, b.ok n = some ok → ok.record.cnTo < hot.cnFrom

theorem Book.Consecutive.follows {b : Book} {hot : Versioned HotDelta}
    (hconsecutive : b.Consecutive) (hvalid : b.Valid) (hhot : b.hot = some hot)
    (hunmarked : hot.record.rollingBack = false) : b.Follows hot.record where
  next := (hvalid.current hot hhot hunmarked).1
  above n ok hok := by
    have hbelow := hconsecutive.below n ok hok
    rw [start_of_unmarked hhot hunmarked] at hbelow
    exact hbelow

/-- A delta follows the others as long as its number is next. -/
theorem History.Orderly.follows {s : Site} {h j : History} {hot : HotDelta}
    (horderly : h.Orderly) (hle : j ≤ h) (hfollows : (s.book j.now).Follows hot)
    (hnext : hot.deltaNum = (s.book h.now).sequence.nextDeltaNum) :
    (s.book h.now).Follows hot where
  next := hnext
  above n ok hok := by
    have hvalid := horderly.valid s
    have hold := ((hvalid.numbered n).mp ⟨ok, hok⟩).2
    rw [← hnext, hfollows.next] at hold
    apply hfollows.above n ok
    exact (horderly.leads hle s).ok_of_lt ((horderly.of_le hle).valid s) hvalid hold hok

namespace Cluster

variable {ι : Type} [DecidableEq ι] {k : Cluster ι} {s : Site}

theorem Commits.consecutive {i : ι} {now : DateTime} {task : Task} {m : Move}
    {response : Response} (hcommit : k.Commits s i now task m response) (hsound : k.Sound)
    (hall : ∀ h, h ≤ k.history → (s.book h.now).Consecutive) :
    (s.book (k.act (.proceed i now)).history.now).Consecutive := by
  have hvalid := hsound.orderly.valid s
  have hmoves := hcommit.turns.moves
  have hnow := hall k.history (History.le_refl _)
  have heffect := hcommit.effect
  cases m with
  | promoted view date =>
      generalize task.request.command = command at heffect
      cases heffect with
      | @promoted _ view _ hviewed hunmarked hdate =>
          apply hnow.promoted hvalid hmoves ?_ hdate
          obtain ⟨j, hlast, hview⟩ := hviewed.read
          have hprecedes := (hsound.tasks i task hcommit.found).precedes
          have hle : j ≤ k.history := hprecedes.le (Trail.mem_of_lastRead hlast)
          have hfollows := (hall j hle).follows ((hsound.orderly.of_le hle).valid s) hview hunmarked
          exact (hsound.orderly.follows hle hfollows hmoves.deltaNum_eq).above
  | _ => exact hnow.of_ok_eq (hmoves.ok_eq (by simp)) (Book.Leads.of_moves hvalid hmoves).start

theorem consecutive_run (time : DateTime) (roots : List (Name × String))
    (actions : List (Action ι)) (s : Site) :
    ∀ h, h ≤ (run time roots actions).history → (s.book h.now).Consecutive := by
  apply run_induction
    (motive := fun k => ∀ h, h ≤ k.history → (s.book h.now).Consecutive)
  · intro h hle
    cases hle with
    | refl =>
        change (s.book (Tree.rooted time roots)).Consecutive
        rw [Site.book_of_founded (founded_rooted time roots)]
        exact Book.consecutive_blank
  · intro k action hsound haccounted hall h hle
    rcases le_or_eq_of_le_act hle with hold | rfl
    · exact hall h hold
    · rcases book_act hsound haccounted s action with hsame | ⟨i, now, task, m, response, rfl, hcommit⟩
      · rw [hsame]
        exact hall k.history (History.le_refl _)
      · exact hcommit.consecutive hsound hall

end Cluster

open Cluster

/-- Whatever requests are at work, the ok deltas of every datamart are numbered from zero to
the last one, follow one another in their ranges and dates, end before the next change
number, and stay as they are. -/
theorem okDeltas_consecutive {ι : Type} [DecidableEq ι] (time : DateTime)
    (roots : List (Name × String)) (actions more : List (Action ι)) (s : Site) :
    s.names .okDeltas (run time roots actions).history.now =
        (List.range (s.book (run time roots actions).history.now).sequence.nextDeltaNum.toNat).map
          (fun n : Nat => Layout.key n) ∧
      (∀ n, (∃ ok, (s.book (run time roots actions).history.now).ok n = some ok) ↔
        ∃ last, (s.book (run time roots actions).history.now).sequence.lastDeltaNum = some last ∧
          0 ≤ n ∧ n ≤ last) ∧
      (s.book (run time roots actions).history.now).Consecutive ∧
      (∀ n ok, (s.book (run time roots actions).history.now).ok n = some ok →
        ok.record.cnTo < (s.book (run time roots actions).history.now).sequence.nextCn) ∧
      ∀ n ok, (s.book (run time roots actions).history.now).ok n = some ok →
        (s.book (run time roots (actions ++ more)).history.now).ok n = some ok := by
  have hsound := sound_run time roots actions
  have hvalid := hsound.orderly.valid s
  have hconsecutive := consecutive_run time roots actions s _ (History.le_refl _)
  refine ⟨Site.names_okDeltas (hsound.orderly.kept s) hvalid, ?_, hconsecutive, ?_, ?_⟩
  · intro n
    rw [hvalid.numbered, Counters.nextDeltaNum]
    cases (s.book (run time roots actions).history.now).sequence.lastDeltaNum with
    | none => simp
    | some last =>
        simp only [Option.some.injEq, exists_eq_left']
        omega
  · intro n ok hok
    exact Int.lt_of_lt_of_le (hconsecutive.below n ok hok) hvalid.start_le
  · exact ((sound_run time roots (actions ++ more)).orderly.leads le_history_run s).ok

section Samples

/-- One write is committed with the first epoch, none with the second. -/
def twoCommits : List (Action Nat) :=
  Sample.alone 0 .openDelta ++ Sample.alone 1 (.registerWrite ⟨"a", "a_ext", "q"⟩) ++
    Sample.alone 2 (.succeedWrite 0) ++ Sample.alone 3 (.commitDelta (some Sample.time)) ++
      Sample.alone 4 .openDelta ++ Sample.alone 5 (.commitDelta (some Sample.time))

theorem okDeltas_consecutive_twoCommits :
    ∃ ok ok', (Sample.site.book (run Sample.time Sample.roots twoCommits).history.now).ok 0 =
        some ok ∧
      (Sample.site.book (run Sample.time Sample.roots twoCommits).history.now).ok 1 = some ok' ∧
      ok.record.cnTo < ok'.record.cnFrom ∧ ok.record.deltaDate ≤ ok'.record.deltaDate ∧
      (Sample.site.book (run Sample.time Sample.roots
        (twoCommits ++ Sample.alone 6 .openDelta)).history.now).ok 1 = some ok' := by
  have hcommitted :
      ((Sample.site.book (run Sample.time Sample.roots twoCommits).history.now).ok 0).isSome =
          true ∧
        ((Sample.site.book (run Sample.time Sample.roots twoCommits).history.now).ok 1).isSome =
          true := by
    decide +kernel
  obtain ⟨hfirst, hsecond⟩ := hcommitted
  obtain ⟨ok, hok⟩ := Option.isSome_iff_exists.mp hfirst
  obtain ⟨ok', hok'⟩ := Option.isSome_iff_exists.mp hsecond
  obtain ⟨_, _, hconsecutive, _, hstays⟩ :=
    okDeltas_consecutive Sample.time Sample.roots twoCommits (Sample.alone 6 .openDelta) Sample.site
  refine ⟨ok, ok', hok, hok', ?_, ?_, hstays 1 ok' hok'⟩
  · exact hconsecutive.apart 0 1 ok ok' (by decide) hok hok'
  · exact hconsecutive.dated 0 1 ok ok' (by decide) hok hok'

end Samples

end DeltaLedger
