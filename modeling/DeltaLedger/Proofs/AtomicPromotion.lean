import DeltaLedger.Proofs.ClusterSteps
import DeltaLedger.Proofs.KeyOrder

/-!
# Promotion is atomic

A request that commits an epoch looks at the hot delta, at the counters and at each
entry of the ledger in calls of their own.  Its transaction is committed only where all
of this still holds at once, and there it ends the epoch in one step.  A call that
commits nothing leaves everything as it was.
-/

namespace DeltaLedger

/-- An unmarked epoch whose writes are all finished becomes the ok delta of a number, in
one step from a tree to another. -/
structure Site.Promotes (s : Site) (n : Int) (t t' : Tree) : Prop where
  unmarked : ∃ hot, (s.book t).hot = some hot ∧ hot.record.rollingBack = false
  finished : ∀ name ∈ s.names .writes t, ∃ m entry, name = Layout.key m ∧
    (s.book t).write m = some entry ∧
      (entry.record.status = .success ∨ entry.record.status = .error)
  closed : t'.has (s.path .hot) = false
  cleared : s.names .writes t' = []
  added : s.names .okDeltas t' = s.names .okDeltas t ++ [Layout.key n]
  created : ∃ ok, (s.book t').ok n = some ok ∧ ok.record.deltaNum = n
  others : ∀ m, m ≠ n → (s.book t').ok m = (s.book t).ok m
  last : (s.book t').sequence.lastDeltaNum = some n
  nextCn : (s.book t').sequence.nextCn = (s.book t).sequence.nextCn

theorem WriteStatus.finished_of_ne {status : WriteStatus} (hne : status ≠ .inProgress) :
    status = .success ∨ status = .error := by
  cases status with
  | inProgress => exact absurd rfl hne
  | success => exact .inl rfl
  | error => exact .inr rfl

namespace Site

variable {s : Site} {t t' : Tree} {view : HotDelta} {date : DateTime}

theorem names_okDeltas_succ (hkept : s.Kept t) (hvalid : (s.book t).Valid)
    (hkept' : s.Kept t') (hvalid' : (s.book t').Valid)
    (hnext : (s.book t').sequence.nextDeltaNum = (s.book t).sequence.nextDeltaNum + 1) :
    s.names .okDeltas t' =
      s.names .okDeltas t ++ [Layout.key (s.book t).sequence.nextDeltaNum] := by
  have hnonneg := hvalid.nonneg.2
  have hsucc : (s.book t').sequence.nextDeltaNum.toNat =
      (s.book t).sequence.nextDeltaNum.toNat + 1 := by omega
  rw [names_okDeltas hkept hvalid, names_okDeltas hkept' hvalid', hsucc, List.range_succ,
    List.map_append, List.map_singleton, Int.toNat_of_nonneg hnonneg]

theorem names_writes_eq_nil (hkept : s.Kept t) (hvalid : (s.book t).Valid)
    (hnone : ∀ n, (s.book t).write n = none) : s.names .writes t = [] := by
  apply List.eq_nil_iff_forall_not_mem.mpr
  intro name hname
  obtain ⟨n, entry, hentry, _⟩ := (mem_names_writes_iff hkept hvalid).mp hname
  rw [hnone n] at hentry
  cases hentry

theorem Turns.promotes (hturns : s.Turns (.promoted view date) t t') (hkept : s.Kept t)
    (hvalid : (s.book t).Valid) : s.Promotes view.deltaNum t t' := by
  have hkept' := hturns.kept
  have hvalid' := hvalid.moves hturns.moves
  have hmoves := hturns.moves
  have hopen := names_okDeltas_succ hkept hvalid hkept' hvalid'
  have hempty := names_writes_eq_nil hkept' hvalid'
  have hclosed := book_hot_eq_none_iff hkept'
  generalize hafter : s.book t' = b' at hmoves hopen hempty hclosed
  cases hmoves with
  | @promoted _ _ hot counters hhot hcounters hrolling hfinished hnum _ _ =>
      have hsequence := Book.sequence_of_counters hcounters
      constructor
      case unmarked => exact ⟨hot, hhot, hrolling⟩
      case finished =>
        intro name hname
        obtain ⟨m, entry, hentry, hkey⟩ := (mem_names_writes_iff hkept hvalid).mp hname
        exact ⟨m, entry, hkey, hentry, WriteStatus.finished_of_ne (hfinished m entry hentry)⟩
      case closed =>
        rw [Tree.has_eq_false_iff (s.path_ne_root _)]
        exact hclosed.mp rfl
      case cleared => exact hempty fun _ => rfl
      case added =>
        rw [hsequence, ← hnum] at hopen
        exact hopen rfl
      case created =>
        rw [hafter]
        exact ⟨_, if_pos rfl, rfl⟩
      case others =>
        intro m hne
        rw [hafter]
        exact if_neg hne
      case last => rw [hafter, Book.sequence_of_counters rfl, Counters.afterClose]
      case nextCn => rw [hafter, Book.sequence_of_counters rfl, Counters.afterClose, hsequence]

end Site

open Cluster

/-- A request to commit an epoch promotes the epoch in one step, and changes nothing
otherwise. -/
theorem commitDelta_promotes {ι : Type} [DecidableEq ι] {time : DateTime}
    {roots : List (Name × String)} {actions : List (Action ι)} {i : ι} {task : Task}
    {asked : Option DateTime} (hi : (run time roots actions).task? i = some task)
    (hcommand : task.request.command = .commitDelta asked) (now : DateTime) :
    (task.commits (run time roots actions).history.now = true →
      ∃ s n, task.coordinator.Serves task.request.datamart s ∧
        s.Promotes n (run time roots actions).history.now
          ((run time roots actions).act (.proceed i now)).history.now) ∧
    (task.commits (run time roots actions).history.now = false →
      ((run time roots actions).act (.proceed i now)).history.now =
        (run time roots actions).history.now) ∧
    ((∀ c h, .answered c h ∈ task.trail → c.commits h.now = false) → task.trail.Quiet) := by
  have hsound := sound_run time roots actions
  have haccounted := accounted_run time roots actions
  refine ⟨?_, ?_, quiet_of_not_commits hsound haccounted hi⟩
  · intro hcommits
    obtain ⟨s, m, response, hcommit⟩ := exists_commits hsound haccounted hi hcommits now
    have heffect := hcommit.effect
    rw [hcommand] at heffect
    cases heffect with
    | promoted =>
        have hkept := hsound.orderly.kept s
        have hvalid := hsound.orderly.valid s
        exact ⟨s, _, hcommit.serves, hcommit.turns.promotes hkept hvalid⟩
  · exact fun hcommits => now_of_not_commits hsound haccounted hi hcommits now

section Samples

/-- A write has ended with an error.  A commit has read all it needs. -/
def endedWrite : List (Action Nat) :=
  Sample.alone 0 .openDelta ++ Sample.alone 1 (.registerWrite ⟨"a", "a_ext", "q"⟩) ++
    Sample.alone 2 (.failWrite 0) ++ [Sample.begins 3 (.commitDelta (some Sample.time))] ++
      Sample.proceeds 3 6

theorem commitDelta_promotes_endedWrite :
    ∃ task, (run Sample.time Sample.roots endedWrite).task? 3 = some task ∧
      task.request.command = .commitDelta (some Sample.time) ∧
      task.commits (run Sample.time Sample.roots endedWrite).history.now = true ∧
      ∃ s n, task.coordinator.Serves task.request.datamart s ∧
        s.Promotes n (run Sample.time Sample.roots endedWrite).history.now
          ((run Sample.time Sample.roots endedWrite).act
            (.proceed 3 Sample.time)).history.now := by
  have hready : ((run Sample.time Sample.roots endedWrite).task? 3).any (fun task =>
      decide (task.request.command = .commitDelta (some Sample.time)) &&
        task.commits (run Sample.time Sample.roots endedWrite).history.now) = true := by
    decide +kernel
  obtain ⟨task, hi, hready⟩ := (Option.any_eq_true _ _).mp hready
  rw [Bool.and_eq_true, decide_eq_true_eq] at hready
  obtain ⟨hcommand, hcommits⟩ := hready
  have hpromotes := (commitDelta_promotes hi hcommand Sample.time).1 hcommits
  exact ⟨task, hi, hcommand, hcommits, hpromotes⟩

end Samples

end DeltaLedger
