import DeltaLedger.Proofs.CommittedHistory

/-!
# Marking a delta as failed

A mark writes the hot delta as its request has read it, with two fields changed.  It is
committed where the hot delta still is at the version that was read.  While an epoch goes
on this is the same hot delta.  But versions start at zero in every epoch, and so a mark
can also write the delta of an epoch that has ended over the one that is open.

Such a delta is out of line with the ok deltas exactly if one of them was committed
between the reading and the mark.
-/

namespace DeltaLedger

namespace Book

variable {b b' : Book} {m : Move} {hot : Versioned HotDelta}

/-- While an epoch is open, its hot delta changes only together with its version. -/
theorem Moves.hot_of_open (hmoves : b.Moves m b') (hhot : b.hot = some hot)
    (hopen : b'.hot ≠ none) :
    ∃ hot', b'.hot = some hot' ∧ hot.version ≤ hot'.version ∧
      (hot'.version = hot.version → hot' = hot) := by
  cases hmoves with
  | opened hclosed =>
      rw [hhot] at hclosed
      cases hclosed
  | marked hfound =>
      rw [hhot] at hfound
      cases hfound
      refine ⟨_, rfl, Nat.le_succ _, ?_⟩
      intro hversion
      exact absurd hversion (Nat.succ_ne_self _)
  | discarded => exact absurd rfl hopen
  | promoted => exact absurd rfl hopen
  | _ => exact ⟨hot, hhot, Nat.le_refl _, fun _ => rfl⟩

/-- A marked delta was there before, or the move has marked it. -/
theorem Moves.of_marked (hmoves : b.Moves m b') (hhot : b'.hot = some hot)
    (hmarked : hot.record.rollingBack = true) :
    b'.sequence.nextDeltaNum = b.sequence.nextDeltaNum ∧
      (b.hot = some hot ∨ ∃ view n, m = .marked view n ∧ hot.record = view.failedAt n) := by
  cases hmoves with
  | opened =>
      cases hhot
      cases hmarked
  | registered _ hcounters =>
      rw [sequence_of_counters hcounters]
      exact ⟨rfl, .inl hhot⟩
  | finished => exact ⟨rfl, .inl hhot⟩
  | withdrawn => exact ⟨rfl, .inl hhot⟩
  | @marked view n =>
      cases hhot
      exact ⟨rfl, .inr ⟨view, n, rfl, rfl⟩⟩
  | discarded => cases hhot
  | promoted => cases hhot

theorem Moves.eq_of_marked {view : HotDelta} {n : Int} (hmoves : b.Moves (.marked view n) b')
    (hhot : b.hot = some hot) :
    b' = { b with hot := some ⟨view.failedAt n, hot.version + 1⟩ } := by
  cases hmoves with
  | marked hfound =>
      rw [hhot] at hfound
      cases hfound
      rfl

theorem Follows.failedAt {view : HotDelta} (hfollows : b.Follows view) (n : Int) :
    b.Follows (view.failedAt n) :=
  ⟨hfollows.next, hfollows.above⟩

end Book

/-- As long as an epoch is open, the same version means the same hot delta. -/
theorem History.Orderly.hot_of_open {s : Site} {h j : History} {view : Versioned HotDelta}
    (horderly : h.Orderly) (hle : j ≤ h)
    (hopen : ∀ p, j ≤ p → p ≤ h → (s.book p.now).hot ≠ none)
    (hview : (s.book j.now).hot = some view) :
    ∃ hot, (s.book h.now).hot = some hot ∧ view.version ≤ hot.version ∧
      (hot.version = view.version → hot = view) := by
  induction hle with
  | refl => exact ⟨view, hview, Nat.le_refl _, fun _ => rfl⟩
  | @next h t hle ih =>
      cases horderly with
      | next horderly hchanges =>
          obtain ⟨hot, hhot, hgrown, hsame⟩ :=
            ih horderly fun p hfrom hto => hopen p hfrom (History.le_next hto t)
          rcases hchanges.book s with hbook | ⟨m, hturns⟩
          · rw [History.now, hbook]
            exact ⟨hot, hhot, hgrown, hsame⟩
          · have hstays := hopen (h.next t) (History.le_next hle t) (History.le_refl _)
            obtain ⟨hot', hhot', hgrown', hsame'⟩ := hturns.moves.hot_of_open hhot hstays
            refine ⟨hot', hhot', Nat.le_trans hgrown hgrown', ?_⟩
            intro hversion
            have hmiddle : hot' = hot := hsame' (by omega)
            subst hmiddle
            exact hsame hversion

/-! ## Marks -/

/-- The next step of a request commits a mark of a site, whose hot delta it has last read at
a moment. -/
structure Task.Marks (task : Task) (s : Site) (t : Tree) (j : History) (n : Int) : Prop where
  command : task.request.command = .failDelta n
  serves : task.Sites s
  commits : task.commits t = true
  read : task.trail.lastRead (s.path .hot).text = some j

namespace Cluster

variable {ι : Type} [DecidableEq ι] {k : Cluster ι} {s : Site} {i : ι} {now : DateTime}
variable {task : Task} {response : Response}

theorem Commits.exists_marks {view : HotDelta} {n : Int} (hsound : k.Sound)
    (hcommit : k.Commits s i now task (.marked view n) response) :
    ∃ j version, task.Marks s k.history.now j n ∧ j ≤ k.history ∧
      (s.book j.now).hot = some ⟨view, version⟩ ∧
        ∃ hot, (s.book k.history.now).hot = some ⟨hot, version⟩ := by
  have hprecedes := (hsound.tasks i task hcommit.found).precedes
  have heffect := hcommit.effect
  generalize hcommand : task.request.command = command at heffect
  cases heffect with
  | @marked view _ hviewed =>
      obtain ⟨j, hread, hview⟩ := hviewed.read
      have hmarks : task.Marks s k.history.now j n :=
        ⟨hcommand, hcommit.serves, hcommit.commits, hread⟩
      have hle : j ≤ k.history := hprecedes.le (Trail.mem_of_lastRead hread)
      exact ⟨j, view.version, hmarks, hle, hview, hviewed.present⟩

theorem exists_marked (hsound : k.Sound) (haccounted : k.Accounted) {n : Int}
    (hi : k.task? i = some task) (hcommand : task.request.command = .failDelta n)
    (hcommits : task.commits k.history.now = true) (now : DateTime) :
    ∃ s j view hot, task.Marks s k.history.now j n ∧ j ≤ k.history ∧
      (s.book j.now).hot = some view ∧ (s.book k.history.now).hot = some ⟨hot, view.version⟩ ∧
        s.book (k.act (.proceed i now)).history.now = { s.book k.history.now with
          hot := some ⟨view.record.failedAt n, view.version + 1⟩ } := by
  obtain ⟨s, m, response, hcommit⟩ := exists_commits hsound haccounted hi hcommits now
  have hmove : ∃ view, m = .marked view n := by
    have heffect := hcommit.effect
    rw [hcommand] at heffect
    cases heffect with
    | marked => exact ⟨_, rfl⟩
  obtain ⟨view, rfl⟩ := hmove
  obtain ⟨j, version, hmarks, hle, hview, hot, hhot⟩ := hcommit.exists_marks hsound
  have hafter := hcommit.turns.moves.eq_of_marked hhot
  exact ⟨s, j, ⟨view, version⟩, hot, hmarks, hle, hview, hhot, hafter⟩

/-- A marked delta was there before an action, or the action commits its mark. -/
theorem of_marked (hsound : k.Sound) (haccounted : k.Accounted) {action : Action ι}
    {hot : Versioned HotDelta} (hhot : (s.book (k.act action).history.now).hot = some hot)
    (hmarked : hot.record.rollingBack = true) :
    (s.book (k.act action).history.now).sequence.nextDeltaNum =
        (s.book k.history.now).sequence.nextDeltaNum ∧
      ((s.book k.history.now).hot = some hot ∨
        ∃ i now task j n view, action = .proceed i now ∧ k.task? i = some task ∧
          task.Marks s k.history.now j n ∧ j ≤ k.history ∧ (s.book j.now).hot = some view ∧
            hot.record = view.record.failedAt n) := by
  rcases book_act hsound haccounted s action with hsame | ⟨i, now, task, m, response, rfl, hcommit⟩
  · rw [hsame] at hhot ⊢
    exact ⟨rfl, .inl hhot⟩
  · obtain ⟨hnext, hcases⟩ := hcommit.turns.moves.of_marked hhot hmarked
    refine ⟨hnext, ?_⟩
    rcases hcases with hbefore | ⟨view, n, rfl, hrecord⟩
    · exact .inl hbefore
    · obtain ⟨j, version, hmarks, hle, hview, _⟩ := hcommit.exists_marks hsound
      exact .inr ⟨i, now, task, j, n, ⟨view, version⟩, rfl, hcommit.found, hmarks, hle, hview, hrecord⟩

section Runs

variable {time : DateTime} {roots : List (Name × String)} {actions : List (Action ι)}

/-- What holds of the unmarked hot deltas of a run, stays while no delta is committed, and is
kept by every mark holds of all its hot deltas. -/
theorem hot_induction (actions : List (Action ι)) {motive : History → HotDelta → Prop}
    (hunmarked : ∀ h hot, h ≤ (run time roots actions).history →
      (s.book h.now).hot = some hot → hot.record.rollingBack = false → motive h hot.record)
    (hstays : ∀ earlier action hot, earlier ++ [action] <+: actions →
      (s.book (run time roots (earlier ++ [action])).history.now).sequence.nextDeltaNum =
        (s.book (run time roots earlier).history.now).sequence.nextDeltaNum →
      motive (run time roots earlier).history hot →
        motive (run time roots (earlier ++ [action])).history hot)
    (hmarks : ∀ earlier i now task j n view, earlier ++ [.proceed i now] <+: actions →
      (run time roots earlier).task? i = some task →
      task.Marks s (run time roots earlier).history.now j n →
      j ≤ (run time roots earlier).history → motive j view →
        motive (run time roots earlier).history (view.failedAt n)) :
    ∀ h, h ≤ (run time roots actions).history → ∀ hot, (s.book h.now).hot = some hot →
      motive h hot.record := by
  induction actions using List.reverseRecOn with
  | nil =>
      intro h hle hot hhot
      cases hle with
      | refl =>
          have hblank := Site.book_of_founded (s := s) (founded_rooted time roots)
          change (s.book (Tree.rooted time roots)).hot = some hot at hhot
          rw [hblank] at hhot
          cases hhot
  | append_singleton actions action ih =>
      intro h hle hot hhot
      cases hrolling : hot.record.rollingBack with
      | false => exact hunmarked h hot hle hhot hrolling
      | true =>
          have hprefix := List.prefix_append actions [action]
          have hbefore : ∀ h, h ≤ (run time roots actions).history → ∀ hot,
              (s.book h.now).hot = some hot → motive h hot.record := by
            apply ih
            · intro h hot hle
              exact hunmarked h hot (History.le_trans hle le_history_run)
            · intro earlier action hot hearlier
              exact hstays earlier action hot (hearlier.trans hprefix)
            · intro earlier i now task j n view hearlier
              exact hmarks earlier i now task j n view (hearlier.trans hprefix)
          have hsound := sound_run time roots actions
          have haccounted := accounted_run time roots actions
          rw [run_append_singleton] at hle
          rcases le_or_eq_of_le_act hle with hold | rfl
          · exact hbefore h hold hot hhot
          · obtain ⟨hnext, hcases⟩ := of_marked hsound haccounted hhot hrolling
            rw [← run_append_singleton] at hnext ⊢
            apply hstays actions action _ (List.prefix_refl _) hnext
            rcases hcases with hfound | ⟨i, now, task, j, n, view, rfl, hi, hmark, hj, hview, hrecord⟩
            · exact hbefore _ (History.le_refl _) hot hfound
            · rw [hrecord]
              apply hmarks actions i now task j n view.record (List.prefix_refl _) hi hmark hj
              exact hbefore j hj view hview

theorem follows_of_unmarked {h : History} {hot : Versioned HotDelta}
    (hle : h ≤ (run time roots actions).history) (hhot : (s.book h.now).hot = some hot)
    (hunmarked : hot.record.rollingBack = false) : (s.book h.now).Follows hot.record := by
  have hvalid := ((sound_run time roots actions).orderly.of_le hle).valid s
  exact (consecutive_run time roots actions s h hle).follows hvalid hhot hunmarked

/-- Every hot delta, marked or not, was in line with the ok deltas at some moment. -/
theorem exists_follows {h : History} {hot : Versioned HotDelta}
    (hle : h ≤ (run time roots actions).history) (hhot : (s.book h.now).hot = some hot) :
    ∃ q, q ≤ h ∧ (s.book q.now).Follows hot.record := by
  apply hot_induction actions (motive := fun h hot => ∃ q, q ≤ h ∧ (s.book q.now).Follows hot)
    ?_ ?_ ?_ h hle hot hhot
  · intro h hot hle hhot hunmarked
    exact ⟨h, History.le_refl _, follows_of_unmarked hle hhot hunmarked⟩
  · intro earlier action hot _ _ hfollows
    obtain ⟨q, hq, hfollows⟩ := hfollows
    exact ⟨q, History.le_trans hq le_history_run, hfollows⟩
  · intro earlier i now task j n view _ _ _ hj hfollows
    obtain ⟨q, hq, hfollows⟩ := hfollows
    exact ⟨q, History.le_trans hq hj, hfollows.failedAt n⟩

theorem deltaNum_le {h : History} {hot : Versioned HotDelta}
    (hle : h ≤ (run time roots actions).history) (hhot : (s.book h.now).hot = some hot) :
    hot.record.deltaNum ≤ (s.book h.now).sequence.nextDeltaNum := by
  obtain ⟨q, hq, hfollows⟩ := exists_follows hle hhot
  have horderly := (sound_run time roots actions).orderly.of_le hle
  rw [hfollows.next]
  exact (horderly.leads hq s).nextDeltaNum

/-- Every mark of a run is committed while the number is next that was next when its request
last read the hot delta. -/
def MarksInTime (time : DateTime) (roots : List (Name × String)) (actions : List (Action ι))
    (s : Site) : Prop :=
  ∀ earlier i now task j n, earlier ++ [.proceed i now] <+: actions →
    (run time roots earlier).task? i = some task →
    task.Marks s (run time roots earlier).history.now j n →
      (s.book j.now).sequence.nextDeltaNum =
        (s.book (run time roots earlier).history.now).sequence.nextDeltaNum

theorem MarksInTime.follows (hintime : MarksInTime time roots actions s) {h : History}
    {hot : Versioned HotDelta} (hle : h ≤ (run time roots actions).history)
    (hhot : (s.book h.now).hot = some hot) : (s.book h.now).Follows hot.record := by
  apply hot_induction actions (motive := fun h hot => (s.book h.now).Follows hot)
    ?_ ?_ ?_ h hle hot hhot
  · intro h hot hle hhot hunmarked
    exact follows_of_unmarked hle hhot hunmarked
  · intro earlier action hot _ hnext hfollows
    have horderly := (sound_run time roots (earlier ++ [action])).orderly
    exact horderly.follows le_history_run hfollows (hfollows.next.trans hnext.symm)
  · intro earlier i now task j n view hearlier hi hmarks hj hfollows
    have horderly := (sound_run time roots earlier).orderly
    have hsame := hintime earlier i now task j n hearlier hi hmarks
    exact (horderly.follows hj hfollows (hfollows.next.trans hsame)).failedAt n

theorem marksInTime_of_follows
    (hfollows : ∀ earlier hot, earlier <+: actions →
      (s.book (run time roots earlier).history.now).hot = some hot →
        (s.book (run time roots earlier).history.now).Follows hot.record) :
    MarksInTime time roots actions s := by
  intro earlier i now task j n hearlier hi hmarks
  have hsound := sound_run time roots earlier
  have haccounted := accounted_run time roots earlier
  obtain ⟨s', j', view, hot, hmarks', hle, hview, _, hafter⟩ :=
    exists_marked hsound haccounted hi hmarks.command hmarks.commits now
  cases hmarks.serves.unique hmarks'.serves
  cases hmarks.read.symm.trans hmarks'.read
  have hafterwards := hfollows _ ⟨view.record.failedAt n, view.version + 1⟩ hearlier
  rw [run_append_singleton, hafter] at hafterwards
  have hnext := (hafterwards rfl).next
  have hbound := deltaNum_le hle hview
  have hgrown := (hsound.orderly.leads hle s).nextDeltaNum
  change view.record.deltaNum = (s.book (run time roots earlier).history.now).sequence.nextDeltaNum at hnext
  omega

end Runs

end Cluster

open Cluster

/-- A request that marks a delta as failed writes, at the next version, the hot delta that it
last read with its two fields changed.  This is the hot delta of the moment if the epoch has
been open since.  In a run the hot delta always follows the ok deltas exactly if all marks
come in time. -/
theorem failDelta_marks {ι : Type} [DecidableEq ι] (time : DateTime)
    (roots : List (Name × String)) (actions : List (Action ι)) :
    (∀ i now task n, (run time roots actions).task? i = some task →
      task.request.command = .failDelta n →
      task.commits (run time roots actions).history.now = true →
      ∃ s j view hot, task.Marks s (run time roots actions).history.now j n ∧
        (s.book j.now).hot = some view ∧
        (s.book (run time roots actions).history.now).hot = some ⟨hot, view.version⟩ ∧
        s.book ((run time roots actions).act (.proceed i now)).history.now =
          { s.book (run time roots actions).history.now with
            hot := some ⟨view.record.failedAt n, view.version + 1⟩ } ∧
        ((∀ p, j ≤ p → p ≤ (run time roots actions).history → (s.book p.now).hot ≠ none) →
          view.record = hot)) ∧
    ∀ s, (∀ earlier hot, earlier <+: actions →
        (s.book (run time roots earlier).history.now).hot = some hot →
          (s.book (run time roots earlier).history.now).Follows hot.record) ↔
      MarksInTime time roots actions s := by
  have hsound := sound_run time roots actions
  have haccounted := accounted_run time roots actions
  constructor
  · intro i now task n hi hcommand hcommits
    obtain ⟨s, j, view, hot, hmarks, hle, hview, hhot, hafter⟩ :=
      exists_marked hsound haccounted hi hcommand hcommits now
    refine ⟨s, j, view, hot, hmarks, hview, hhot, hafter, ?_⟩
    intro hopen
    obtain ⟨hot', hhot', _, hsame⟩ := hsound.orderly.hot_of_open hle hopen hview
    rw [hhot] at hhot'
    cases hhot'
    rw [← hsame rfl]
  · intro s
    constructor
    · exact marksInTime_of_follows
    · intro hintime earlier hot hearlier hhot
      obtain ⟨more, rfl⟩ := hearlier
      have hle : (run time roots earlier).history ≤ (run time roots (earlier ++ more)).history :=
        le_history_run
      exact hintime.follows hle hhot

section Samples

/-- A number is registered.  A mark has read all it needs. -/
def readyMark : List (Action Nat) :=
  Sample.alone 0 .openDelta ++ Sample.alone 1 (.registerWrite ⟨"a", "a_ext", "q"⟩) ++
    [Sample.begins 2 (.failDelta 0)] ++ Sample.proceeds 2 4

theorem failDelta_marks_readyMark :
    ∃ task, (run Sample.time Sample.roots readyMark).task? 2 = some task ∧
      task.request.command = .failDelta 0 ∧
      task.commits (run Sample.time Sample.roots readyMark).history.now = true ∧
      ∃ s j view hot, task.Marks s (run Sample.time Sample.roots readyMark).history.now j 0 ∧
        (s.book j.now).hot = some view ∧
        (s.book (run Sample.time Sample.roots readyMark).history.now).hot =
          some ⟨hot, view.version⟩ ∧
        s.book ((run Sample.time Sample.roots readyMark).act (.proceed 2 Sample.time)).history.now =
          { s.book (run Sample.time Sample.roots readyMark).history.now with
            hot := some ⟨view.record.failedAt 0, view.version + 1⟩ } ∧
        ((∀ p, j ≤ p → p ≤ (run Sample.time Sample.roots readyMark).history →
          (s.book p.now).hot ≠ none) → view.record = hot) := by
  have hready : ((run Sample.time Sample.roots readyMark).task? 2).any (fun task =>
      decide (task.request.command = .failDelta 0) &&
        task.commits (run Sample.time Sample.roots readyMark).history.now) = true := by
    decide +kernel
  obtain ⟨task, hi, hready⟩ := (Option.any_eq_true _ _).mp hready
  rw [Bool.and_eq_true, decide_eq_true_eq] at hready
  obtain ⟨hcommand, hcommits⟩ := hready
  have hmarks := (failDelta_marks Sample.time Sample.roots readyMark).1 2 Sample.time task 0 hi
    hcommand hcommits
  exact ⟨task, hi, hcommand, hcommits, hmarks⟩

/-- A number is registered and its write finished.  A mark reads the hot delta; then the epoch
is committed, another one is opened, and the mark reads the rest. -/
def outdatedMark : List (Action Nat) :=
  Sample.alone 0 .openDelta ++ Sample.alone 1 (.registerWrite ⟨"a", "a_ext", "q"⟩) ++
    Sample.alone 2 (.succeedWrite 0) ++ [Sample.begins 3 (.failDelta 0)] ++
      Sample.proceeds 3 3 ++ Sample.alone 4 (.commitDelta (some Sample.time)) ++
        Sample.alone 5 .openDelta ++ Sample.proceeds 3 1

/-- The delta that was committed is back as the hot delta, in place of the one that was open. -/
theorem outdated_mark_commits :
    ((run Sample.time Sample.roots outdatedMark).task? 3).any (fun task =>
        decide (task.request.command = .failDelta 0) &&
          task.commits (run Sample.time Sample.roots outdatedMark).history.now) = true ∧
      (Sample.site.book (run Sample.time Sample.roots outdatedMark).history.now).hot.map
        Versioned.record = some ⟨1, Sample.time, 1, false, none⟩ ∧
      (Sample.site.book ((run Sample.time Sample.roots outdatedMark).act
        (.proceed 3 Sample.time)).history.now).hot.map Versioned.record =
          some ⟨0, Sample.time, 0, true, some 0⟩ ∧
      (Sample.site.book ((run Sample.time Sample.roots outdatedMark).act
        (.proceed 3 Sample.time)).history.now).sequence.lastDeltaNum = some 0 := by
  decide +kernel

end Samples

end DeltaLedger
