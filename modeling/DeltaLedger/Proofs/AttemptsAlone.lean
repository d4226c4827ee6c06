import DeltaLedger.Proofs.AloneRules

/-!
# Attempts that run alone

What one attempt of a request does on a tree that nobody else touches, branch by
branch of its checks.  An attempt that gets past all of them is the transaction at
its end.
-/

namespace DeltaLedger

theorem WriteStatus.isTerminal_eq_false_iff {status : WriteStatus} :
    status.isTerminal = false ↔ status = .inProgress := by
  cases status <;> simp [isTerminal]

section Blocking

variable {entries : List (Versioned WriteOperation)} {table : String}

theorem blocking?_eq_none_iff :
    Scope.blocking? entries table = none ↔
      ∀ entry ∈ entries, entry.record.status = .inProgress → entry.record.tableName ≠ table := by
  unfold Scope.blocking?
  rw [List.find?_eq_none]
  apply forall₂_congr
  intro entry _
  rw [Bool.and_eq_true, beq_iff_eq, Bool.not_eq_true', WriteStatus.isTerminal_eq_false_iff]
  exact ⟨fun h hprogress htable => h ⟨htable, hprogress⟩, fun h hboth => h hboth.2 hboth.1⟩

theorem of_blocking?_eq_some {entry : Versioned WriteOperation}
    (hfind : Scope.blocking? entries table = some entry) :
    entry ∈ entries ∧ entry.record.status = .inProgress ∧ entry.record.tableName = table := by
  unfold Scope.blocking? at hfind
  have hblocks := List.find?_some hfind
  rw [Bool.and_eq_true, beq_iff_eq, Bool.not_eq_true', WriteStatus.isTerminal_eq_false_iff] at hblocks
  exact ⟨List.mem_of_find?_eq_some hfind, hblocks.2, hblocks.1⟩

end Blocking

theorem deletions_eq {s : Site} {scope : Scope} {entries : List (Versioned WriteOperation)}
    (hlayout : scope.layout = s.layout) :
    scope.deletions entries = Tree.deletes (s.items entries) := by
  simp [Scope.deletions, Tree.deletes, Site.items, hlayout]

section Attempts

variable {s : Site} {scope : Scope} {time : DateTime} {t : Tree}
variable (hlayout : scope.layout = s.layout) (hkept : s.Kept t)

include hlayout hkept

/-! ## Registering -/

theorem register_alone_of_closed {r : Registration} (hhot : (s.book t).hot = none) :
    (scope.tryRegister r).runAlone time t = (.error (.noHotDeltaForWrite scope.datamart), t) := by
  unfold Scope.tryRegister
  rw [hlayout, Site.layout_hot]
  exact Program.runAlone_bind_of_error (runAlone_require_of_none Site.suits_hot hkept hhot)

theorem register_alone_of_marked {r : Registration} {hot : Versioned HotDelta}
    (hhot : (s.book t).hot = some hot) (hrolling : hot.record.rollingBack = true) :
    (scope.tryRegister r).runAlone time t =
      (.error (.rollingBack scope.datamart hot.record.deltaNum), t) := by
  unfold Scope.tryRegister
  rw [hlayout, Site.layout_hot,
    Program.runAlone_bind_of_ok (runAlone_require_of_some Site.suits_hot hkept hhot),
    if_pos hrolling]
  rfl

section Unmarked

variable {r : Registration} {hot : Versioned HotDelta} {counters : Versioned Counters}
variable (hvalid : (s.book t).Valid) (hhot : (s.book t).hot = some hot)
variable (hrolling : hot.record.rollingBack = false)
variable (hcounters : (s.book t).counters = some counters)

include hvalid hhot hrolling hcounters

theorem register_alone_of_blocked {n : Int} {entry : Versioned WriteOperation}
    (hentry : (s.book t).write n = some entry) (hprogress : entry.record.status = .inProgress)
    (htable : entry.record.tableName = r.tableName) :
    (scope.tryRegister r).runAlone time t =
      (.error (.tableBlocked scope.datamart r.tableName n), t) := by
  obtain ⟨entries, ⟨_, hmem⟩, hledger⟩ := runAlone_ledger time hlayout hkept hvalid
  have hblocking : ∃ found, Scope.blocking? entries r.tableName = some found ∧
      found.record.sysCn = n := by
    cases hfind : Scope.blocking? entries r.tableName with
    | none =>
        refine absurd htable (blocking?_eq_none_iff.mp hfind entry ?_ hprogress)
        rw [hmem, (hvalid.issued n entry hentry).1]
        exact hentry
    | some found =>
        obtain ⟨hlisted, hprogress', htable'⟩ := of_blocking?_eq_some hfind
        have hfound := (hmem found).mp hlisted
        exact ⟨found, rfl, hvalid.exclusive _ n found entry hfound hentry hprogress' hprogress
          (htable'.trans htable.symm)⟩
  obtain ⟨found, hfind, hn⟩ := hblocking
  unfold Scope.tryRegister
  rw [hlayout, Site.layout_hot,
    Program.runAlone_bind_of_ok (runAlone_require_of_some Site.suits_hot hkept hhot),
    if_neg (by simp [hrolling]),
    Program.runAlone_bind_of_ok (runAlone_counters_of_some hlayout hkept hcounters),
    Program.runAlone_bind_of_ok hledger]
  simp only [hfind, hn]
  rfl

variable (time) in
theorem register_alone_of_free
    (hfree : ∀ n entry, (s.book t).write n = some entry →
      entry.record.status = .inProgress → entry.record.tableName ≠ r.tableName) :
    (scope.tryRegister r).runAlone time t =
      (do
        let next ← Program.ofExcept (Stored.encode counters.record.issue)
        let payload ← Program.ofExcept
          (Stored.encode (r.entry scope.datamart counters.record.nextCn))
        scope.commit
          [.writeAt (s.path .counters).text counters.version next,
            .checkAt (s.path .hot).text hot.version,
            .create (s.path (.write counters.record.nextCn)).text payload]
          counters.record.nextCn : Program Failure (Option Int)).runAlone time t := by
  obtain ⟨entries, ⟨_, hmem⟩, hledger⟩ := runAlone_ledger time hlayout hkept hvalid
  have hnone : Scope.blocking? entries r.tableName = none := by
    refine blocking?_eq_none_iff.mpr ?_
    intro found hfound hprogress
    exact hfree _ found ((hmem found).mp hfound) hprogress
  unfold Scope.tryRegister
  rw [hlayout, Site.layout_hot,
    Program.runAlone_bind_of_ok (runAlone_require_of_some Site.suits_hot hkept hhot),
    if_neg (by simp [hrolling]),
    Program.runAlone_bind_of_ok (runAlone_counters_of_some hlayout hkept hcounters),
    Program.runAlone_bind_of_ok hledger]
  simp only [hnone, Site.layout_counters, Site.layout_write]

end Unmarked

/-! ## Finishing and withdrawing -/

section Entries

variable {n : Int} {status : WriteStatus} {hot : Versioned HotDelta}
variable {entry : Versioned WriteOperation}

theorem finish_alone_of_closed (hhot : (s.book t).hot = none) :
    (scope.tryFinish n status).runAlone time t = (.error (.noHotDelta scope.datamart), t) := by
  unfold Scope.tryFinish
  exact Program.runAlone_bind_of_error (runAlone_hot_of_none hlayout hkept hhot)

theorem withdraw_alone_of_closed (hhot : (s.book t).hot = none) :
    (scope.tryWithdraw n).runAlone time t = (.error (.noHotDelta scope.datamart), t) := by
  unfold Scope.tryWithdraw
  exact Program.runAlone_bind_of_error (runAlone_hot_of_none hlayout hkept hhot)

theorem finish_alone_of_missing (hhot : (s.book t).hot = some hot)
    (hentry : (s.book t).write n = none) :
    (scope.tryFinish n status).runAlone time t = (.error (.noWrite scope.datamart n), t) := by
  unfold Scope.tryFinish
  rw [Program.runAlone_bind_of_ok (runAlone_hot_of_some hlayout hkept hhot)]
  exact Program.runAlone_bind_of_error (runAlone_write_of_none hlayout hkept hentry)

theorem withdraw_alone_of_missing (hhot : (s.book t).hot = some hot)
    (hentry : (s.book t).write n = none) :
    (scope.tryWithdraw n).runAlone time t = (.error (.noWrite scope.datamart n), t) := by
  unfold Scope.tryWithdraw
  rw [Program.runAlone_bind_of_ok (runAlone_hot_of_some hlayout hkept hhot)]
  exact Program.runAlone_bind_of_error (runAlone_write_of_none hlayout hkept hentry)

variable (time status) in
theorem finish_alone_of_entry (hhot : (s.book t).hot = some hot)
    (hentry : (s.book t).write n = some entry) :
    (scope.tryFinish n status).runAlone time t =
      (if entry.record.status = status then
        pure (some ())
      else if entry.record.status.isTerminal then
        .fail (.alreadyFinished scope.datamart n entry.record.status)
      else do
        let payload ← Program.ofExcept (Stored.encode { entry.record with status })
        scope.commit
          [.checkAt (s.path .hot).text hot.version,
            .writeAt (s.path (.write n)).text entry.version payload]
          () : Program Failure (Option Unit)).runAlone time t := by
  unfold Scope.tryFinish
  rw [Program.runAlone_bind_of_ok (runAlone_hot_of_some hlayout hkept hhot),
    Program.runAlone_bind_of_ok (runAlone_write_of_some hlayout hkept hentry)]
  simp only [hlayout, Site.layout_hot, Site.layout_write]

theorem withdraw_alone_of_entry (hhot : (s.book t).hot = some hot)
    (hentry : (s.book t).write n = some entry) :
    (scope.tryWithdraw n).runAlone time t =
      (scope.commit
        [.checkAt (s.path .hot).text hot.version,
          .deleteAt (s.path (.write n)).text entry.version]
        entry.record.tableName).runAlone time t := by
  unfold Scope.tryWithdraw
  rw [Program.runAlone_bind_of_ok (runAlone_hot_of_some hlayout hkept hhot),
    Program.runAlone_bind_of_ok (runAlone_write_of_some hlayout hkept hentry)]
  simp only [hlayout, Site.layout_hot, Site.layout_write]

end Entries

/-! ## Opening -/

theorem open_alone_of_open {hot : Versioned HotDelta} (hhot : (s.book t).hot = some hot) :
    scope.tryOpen.runAlone time t =
      (.error (.alreadyOpen scope.datamart hot.record.deltaNum), t) := by
  have hread := runAlone_read time Site.suits_hot hkept
  change _ = (Except.ok (s.book t).hot, t) at hread
  rw [hhot] at hread
  unfold Scope.tryOpen
  rw [hlayout, Site.layout_hot, Program.runAlone_bind_of_ok hread]
  rfl

variable (time) in
theorem open_alone_of_closed (hhot : (s.book t).hot = none) :
    scope.tryOpen.runAlone time t =
      (do
        let steps ← Program.ofExcept
          (scope.openingSteps (s.book t).counters (s.book t).sequence
            ((s.book t).sequence.openEpoch (time.atOffset scope.coordinator.zone).wholeSecond))
        scope.commit steps
          ((s.book t).sequence.openEpoch (time.atOffset scope.coordinator.zone).wholeSecond) :
        Program Failure (Option HotDelta)).runAlone time t := by
  have hread := runAlone_read time Site.suits_hot hkept
  change _ = (Except.ok (s.book t).hot, t) at hread
  rw [hhot] at hread
  have hread' := runAlone_read time Site.suits_counters hkept
  change _ = (Except.ok (s.book t).counters, t) at hread'
  unfold Scope.tryOpen
  rw [hlayout, Site.layout_hot, Site.layout_counters, Program.runAlone_bind_of_ok hread]
  change Program.runAlone time (_ >>= _) t = _
  rw [Program.runAlone_bind_of_ok hread']
  rfl

/-! ## Ending an epoch -/

section Ending

variable {hot : Versioned HotDelta} {counters : Versioned Counters} {date : DateTime} {n : Int}

theorem discard_alone_of_closed (hhot : (s.book t).hot = none) :
    scope.tryDiscard.runAlone time t = (.error (.noHotDelta scope.datamart), t) := by
  unfold Scope.tryDiscard
  exact Program.runAlone_bind_of_error (runAlone_hot_of_none hlayout hkept hhot)

theorem mark_alone_of_closed (hhot : (s.book t).hot = none) :
    (scope.tryFail n).runAlone time t = (.error (.noHotDelta scope.datamart), t) := by
  unfold Scope.tryFail
  exact Program.runAlone_bind_of_error (runAlone_hot_of_none hlayout hkept hhot)

theorem promote_alone_of_closed (hhot : (s.book t).hot = none) :
    (scope.tryCommit date).runAlone time t = (.error (.noHotDelta scope.datamart), t) := by
  unfold Scope.tryCommit
  exact Program.runAlone_bind_of_error (runAlone_hot_of_none hlayout hkept hhot)

theorem promote_alone_of_marked (hhot : (s.book t).hot = some hot)
    (hrolling : hot.record.rollingBack = true) :
    (scope.tryCommit date).runAlone time t =
      (.error (.rollingBack scope.datamart hot.record.deltaNum), t) := by
  unfold Scope.tryCommit
  rw [Program.runAlone_bind_of_ok (runAlone_hot_of_some hlayout hkept hhot), if_pos hrolling]
  rfl

variable (time n) in
theorem mark_alone_of_open (hhot : (s.book t).hot = some hot)
    (hcounters : (s.book t).counters = some counters) :
    (scope.tryFail n).runAlone time t =
      (do
        let payload ← Program.ofExcept (Stored.encode (hot.record.failedAt n))
        scope.commit
          [.checkAt (s.path .counters).text counters.version,
            .writeAt (s.path .hot).text hot.version payload]
          (hot.record.failedAt n) : Program Failure (Option HotDelta)).runAlone time t := by
  unfold Scope.tryFail
  rw [Program.runAlone_bind_of_ok (runAlone_hot_of_some hlayout hkept hhot),
    Program.runAlone_bind_of_ok (runAlone_counters_of_some hlayout hkept hcounters)]
  simp only [hlayout, Site.layout_hot, Site.layout_counters]

variable (time) in
theorem discard_alone_of_open (hvalid : (s.book t).Valid) (hhot : (s.book t).hot = some hot)
    (hcounters : (s.book t).counters = some counters) :
    ∃ entries, (s.book t).Lists entries ∧
      scope.tryDiscard.runAlone time t =
        (scope.commit
          (.checkAt (s.path .counters).text counters.version ::
            (Tree.deletes (s.items entries) ++ [.deleteAt (s.path .hot).text hot.version]))
          (hot.record.deltaNum, entries.length)).runAlone time t := by
  obtain ⟨entries, hlists, hledger⟩ := runAlone_ledger time hlayout hkept hvalid
  refine ⟨entries, hlists, ?_⟩
  unfold Scope.tryDiscard
  rw [Program.runAlone_bind_of_ok (runAlone_hot_of_some hlayout hkept hhot),
    Program.runAlone_bind_of_ok (runAlone_counters_of_some hlayout hkept hcounters),
    Program.runAlone_bind_of_ok hledger, deletions_eq hlayout]
  simp only [hlayout, Site.layout_hot, Site.layout_counters, List.cons_append]

variable (time date) in
theorem runAlone_checkDate (record : Counters) :
    (scope.checkDate record date).runAlone time t =
      (match record.lastDeltaNum.bind (s.book t).ok with
        | some last =>
          if date < last.record.deltaDate then .error (.dateTooEarly date last.record) else .ok ()
        | none => .ok (), t) := by
  unfold Scope.checkDate
  cases record.lastDeltaNum with
  | none => rfl
  | some last =>
      have hread := runAlone_read time (Site.suits_ok last) hkept
      change _ = (Except.ok ((s.book t).ok last), t) at hread
      dsimp only
      rw [hlayout, Site.layout_okDelta, Program.runAlone_bind_of_ok hread, Option.bind_some]
      cases (s.book t).ok last with
      | none => rfl
      | some ok =>
          dsimp only
          split <;> rfl

variable (time date) in
theorem promote_alone_of_open (hvalid : (s.book t).Valid) (hhot : (s.book t).hot = some hot)
    (hrolling : hot.record.rollingBack = false)
    (hcounters : (s.book t).counters = some counters) :
    ∃ entries, (s.book t).Lists entries ∧
      (scope.tryCommit date).runAlone time t =
        (if Scope.pending entries ≠ [] then
          .fail (.notFinished scope.datamart (Scope.pending entries))
        else do
          scope.checkDate counters.record date
          let steps ← Program.ofExcept
            (scope.commitSteps hot counters entries (counters.record.close hot.record date))
          scope.commit steps (counters.record.close hot.record date) :
          Program Failure (Option OkDelta)).runAlone time t := by
  obtain ⟨entries, hlists, hledger⟩ := runAlone_ledger time hlayout hkept hvalid
  refine ⟨entries, hlists, ?_⟩
  unfold Scope.tryCommit
  rw [Program.runAlone_bind_of_ok (runAlone_hot_of_some hlayout hkept hhot),
    if_neg (by simp [hrolling]),
    Program.runAlone_bind_of_ok (runAlone_counters_of_some hlayout hkept hcounters),
    Program.runAlone_bind_of_ok hledger]

end Ending

end Attempts

end DeltaLedger
