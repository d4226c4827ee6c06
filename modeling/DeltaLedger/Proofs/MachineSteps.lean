import DeltaLedger.Proofs.EpochAttempts
import DeltaLedger.Proofs.MachineBook

/-!
# Changes that follow the machine

A tree represents a machine for a site when it keeps the site with a valid book that
reflects the machine.  A command that runs alone on such a tree follows the machine:
where the machine fails, the command fails the same way and changes nothing, and where
the machine goes on, the command gives the same answer and leaves a tree that
represents the next machine, with nothing changed outside its site.
-/

namespace DeltaLedger

open Program

/-- What a tree holds for a site is what a machine says. -/
structure Site.Represents (s : Site) (t : Tree) (m : Machine) : Prop where
  kept : s.Kept t
  valid : (s.book t).Valid
  reflects : (s.book t).Reflects m

/-- A run from a tree ended the way a machine would go on. -/
def Site.Follows (s : Site) (t : Tree) : Machine.Outcome → Except Failure Response × Tree → Prop
  | .error e, run => run = (.error e, t)
  | .ok (response, m), run =>
    run.1 = .ok response ∧ s.Represents run.2 m ∧ ∀ p, ¬s.Owns p → run.2.nodes[p]? = t.nodes[p]?

section Following

variable {s : Site} {scope : Scope} {time : DateTime} {t t' : Tree} {m : Machine}
variable {command : Command} {γ : Type} {attempt : Program Failure (Option γ)}
variable {answer : γ → Response}

section Representing

variable (h : s.Represents t m)

include h

theorem Site.Represents.turned {move : Move} (hturns : s.Turns move t t')
    (hsees : m.Sees move) : s.Represents t' (m.moved move) where
  kept := hturns.kept
  valid := h.valid.moves hturns.moves
  reflects := h.reflects.moved h.valid hturns.moves hsees

theorem Site.Represents.closed (hhot : m.hot = none) : (s.book t).hot = none :=
  h.reflects.hot_eq_none_iff.mpr hhot

theorem Site.Represents.exists_hot {hot : HotDelta} (hhot : m.hot = some hot) :
    ∃ version, (s.book t).hot = some ⟨hot, version⟩ :=
  h.reflects.exists_hot hhot

theorem Site.Represents.exists_counters {hot : HotDelta} (hhot : m.hot = some hot) :
    ∃ version, (s.book t).counters = some ⟨m.counters, version⟩ := by
  obtain ⟨_, hfound⟩ := h.exists_hot hhot
  obtain ⟨counters, hcounters⟩ := h.valid.counters_of_hot hfound
  refine ⟨counters.version, ?_⟩
  rw [hcounters, ← h.reflects.counters_eq hcounters]

theorem Site.Represents.exists_write {n : Int} {w : WriteOperation} (hentry : m.entry? n = some w) :
    ∃ version, (s.book t).write n = some ⟨w, version⟩ := by
  rw [← h.reflects.entry h.valid] at hentry
  obtain ⟨found, hfound, rfl⟩ := Option.map_eq_some_iff.mp hentry
  exact ⟨found.version, hfound⟩

theorem Site.Represents.missing {n : Int} (hentry : m.entry? n = none) :
    (s.book t).write n = none := by
  rw [← h.reflects.entry h.valid] at hentry
  exact Option.map_eq_none_iff.mp hentry

end Representing

theorem Decides.follows_error (hdecides : Decides scope command attempt answer) {e : Failure}
    (hrun : attempt.runAlone time t = (.error e, t)) :
    s.Follows t (.error e) ((scope.perform command).runAlone time t) :=
  hdecides.of_error hrun

theorem Decides.follows_same (hdecides : Decides scope command attempt answer) {a : γ}
    (h : s.Represents t m) (hrun : attempt.runAlone time t = (.ok (some a), t)) :
    s.Follows t (.ok (answer a, m)) ((scope.perform command).runAlone time t) := by
  rw [hdecides.of_ok hrun]
  exact ⟨rfl, h, fun _ _ => rfl⟩

/-- A commit is a turn of the site, and the machine makes the same move. -/
theorem Decides.follows_commit (hdecides : Decides scope command attempt answer) {a : γ}
    {move : Move} {steps : List Step} (h : s.Represents t m)
    (hrun : attempt.runAlone time t = (scope.commit steps a).runAlone time t)
    (hturns : s.Turns move t t') (hcommits : t.Commits steps t') (hsees : m.Sees move) :
    s.Follows t (.ok (answer a, m.moved move)) ((scope.perform command).runAlone time t) := by
  rw [hdecides.of_ok (hrun.trans (runAlone_commit hcommits))]
  exact ⟨rfl, h.turned hturns hsees, hturns.frame⟩

end Following

section Commands

variable {s : Site} {scope : Scope} {time : DateTime} {t : Tree} {m : Machine}
variable (hlayout : scope.layout = s.layout) (h : s.Represents t m)

/-! ## Opening -/

theorem Book.Reflects.openEpoch_eq {b : Book} {now : DateTime} (h : b.Reflects m) :
    b.sequence.openEpoch now = ⟨m.oks.length, now, m.nextCn, false, none⟩ := by
  rw [h.sequence, Counters.openEpoch, Machine.nextDeltaNum_counters]
  rfl

theorem Book.Reflects.exists_openingSteps {b : Book} (h : b.Reflects m) (hvalid : b.Valid)
    (hfits : Decimal.Fits m.oks.length) (scope : Scope) (now : DateTime) :
    ∃ steps, scope.openingSteps b.counters b.sequence (b.sequence.openEpoch now) = .ok steps := by
  cases hsteps : scope.openingSteps b.counters b.sequence (b.sequence.openEpoch now) with
  | ok steps => exact ⟨steps, rfl⟩
  | error e =>
      obtain ⟨message, existing, _, hfound, hlast⟩ := of_openingSteps_error hvalid rfl hsteps
      have hcounters := Book.sequence_of_counters hfound
      have hnext := m.nextDeltaNum_counters
      rw [← h.sequence, hcounters, Counters.nextDeltaNum, hlast] at hnext
      unfold Decimal.Fits at hfits
      dsimp only at hnext
      omega

theorem exists_opening_commit {counters : Counters} {hot : HotDelta} {steps : List Step}
    (hlayout : scope.layout = s.layout) (hkept : s.Kept t) (hvalid : (s.book t).Valid)
    (hroot : t.has s.root = true) (hclosed : (s.book t).hot = none)
    (hsteps : scope.openingSteps (s.book t).counters counters hot = .ok steps) :
    ∃ t', t.Commits steps t' := by
  cases hcounters : (s.book t).counters with
  | some found =>
      rw [hcounters] at hsteps
      obtain ⟨payload, _, rfl⟩ := of_openingSteps_some hlayout hsteps
      exact ⟨_, (Site.commits_opening_iff hkept).mpr ⟨⟨found.record, hcounters⟩, hclosed, rfl⟩⟩
  | none =>
      rw [hcounters] at hsteps
      obtain ⟨data, payload, _, _, rfl⟩ := of_openingSteps_none hlayout hsteps
      exact ⟨_, (Site.commits_founding_iff hkept hroot hvalid).mpr ⟨hcounters, rfl⟩⟩

include hlayout h

theorem follows_open (hroot : t.has s.root = true) (hfits : m.Fits) :
    s.Follows t
      (m.openDelta scope.datamart (time.atOffset scope.coordinator.zone).wholeSecond)
      ((scope.perform .openDelta).runAlone time t) := by
  have hdecides := decides_open scope
  unfold Machine.openDelta
  cases hhot : m.hot with
  | some hot =>
      obtain ⟨version, hfound⟩ := h.exists_hot hhot
      exact hdecides.follows_error (open_alone_of_open hlayout h.kept hfound)
  | none =>
      have hclosed := h.closed hhot
      have hrun := open_alone_of_closed time hlayout h.kept hclosed
      obtain ⟨steps, hsteps⟩ := h.reflects.exists_openingSteps h.valid hfits.2 scope
        (time.atOffset scope.coordinator.zone).wholeSecond
      rw [hsteps] at hrun
      obtain ⟨t', hcommits⟩ :=
        exists_opening_commit hlayout h.kept h.valid hroot hclosed hsteps
      have hturns := (opening_turns hlayout h.kept h.valid (fun _ _ hfound _ => hfound)
        hsteps hcommits).2.2
      have hfollows := hdecides.follows_commit h hrun hturns hcommits trivial
      rw [h.reflects.openEpoch_eq] at hfollows
      exact hfollows

/-! ## Writes -/

theorem follows_register_of_free {r : Registration} {hot : HotDelta}
    (hfits : m.Fits) (hhot : m.hot = some hot)
    (hrolling : hot.rollingBack = false) (hbusy : m.busy? r.tableName = none) :
    s.Follows t (.ok (.sysCn m.nextCn, m.registered scope.datamart r))
      ((scope.perform (.registerWrite r)).runAlone time t) := by
  have hdecides := decides_register scope r
  obtain ⟨version, hfound⟩ := h.exists_hot hhot
  obtain ⟨version', hcounters⟩ := h.exists_counters hhot
  have hfree : ∀ n entry, (s.book t).write n = some entry →
      entry.record.status = .inProgress → entry.record.tableName ≠ r.tableName :=
    fun n entry => h.reflects.free_of_busy?_eq_none h.valid hbusy
  have hrun := register_alone_of_free time hlayout h.kept h.valid hfound hrolling
    hcounters hfree
  have hbounded := h.valid.bounded
  have hunused := h.valid.write_nextCn
  rw [h.reflects.sequence] at hbounded hunused
  obtain ⟨next, hencode⟩ : Stored.Writable m.counters.issue :=
    Stored.writable_counters_iff.mpr ⟨hfits.1, hbounded.2⟩
  obtain ⟨payload, hencode'⟩ : Stored.Writable (r.entry scope.datamart m.counters.nextCn) :=
    Stored.writable_write_iff.mpr hbounded.1
  rw [hencode, hencode'] at hrun
  have hturns :=
    Site.turns_registering h.kept hfound hcounters hrolling hfree hencode hencode'
  exact hdecides.follows_commit h hrun hturns
    ((Site.commits_registering_iff h.kept).mpr
      ⟨⟨m.counters, hcounters⟩, ⟨hot, hfound⟩, hunused, rfl⟩) trivial

theorem follows_register {r : Registration} (hfits : m.Fits) :
    s.Follows t (m.registerWrite scope.datamart r)
      ((scope.perform (.registerWrite r)).runAlone time t) := by
  have hdecides := decides_register scope r
  unfold Machine.registerWrite
  cases hhot : m.hot with
  | none =>
      have hclosed := h.closed hhot
      exact hdecides.follows_error (register_alone_of_closed hlayout h.kept hclosed)
  | some hot =>
      obtain ⟨version, hfound⟩ := h.exists_hot hhot
      obtain ⟨version', hcounters⟩ := h.exists_counters hhot
      dsimp only
      by_cases hrolling : hot.rollingBack = true
      · rw [if_pos hrolling]
        exact hdecides.follows_error (register_alone_of_marked hlayout h.kept hfound hrolling)
      · rw [if_neg hrolling]
        rw [Bool.not_eq_true] at hrolling
        cases hbusy : m.busy? r.tableName with
        | some w =>
            obtain ⟨hprogress, htable, version'', hentry⟩ := h.reflects.of_busy?_eq_some hbusy
            exact hdecides.follows_error (register_alone_of_blocked hlayout h.kept h.valid hfound
              hrolling hcounters hentry hprogress htable)
        | none => exact follows_register_of_free hlayout h hfits hhot hrolling hbusy

section Entries

variable {n : Int} {status : WriteStatus}

theorem follows_finish {command : Command} (hstatus : status ≠ .inProgress)
    (hdecides : Decides scope command (scope.tryFinish n status) fun _ => .done) :
    s.Follows t (m.finishWrite scope.datamart n status)
      ((scope.perform command).runAlone time t) := by
  unfold Machine.finishWrite
  cases hhot : m.hot with
  | none =>
      have hclosed := h.closed hhot
      exact hdecides.follows_error (finish_alone_of_closed hlayout h.kept hclosed)
  | some hot =>
      obtain ⟨version, hfound⟩ := h.exists_hot hhot
      cases hentry : m.entry? n with
      | none =>
          have hmissing := h.missing hentry
          exact hdecides.follows_error (finish_alone_of_missing hlayout h.kept hfound hmissing)
      | some w =>
          obtain ⟨version', hwrite⟩ := h.exists_write hentry
          have hrun := finish_alone_of_entry time hlayout h.kept status hfound hwrite
          dsimp only at hrun ⊢
          by_cases hsame : w.status = status
          · rw [if_pos hsame] at hrun ⊢
            exact hdecides.follows_same h hrun
          · rw [if_neg hsame] at hrun ⊢
            by_cases hprogress : w.status = .inProgress
            · rw [if_neg (by simp [hprogress, WriteStatus.isTerminal])] at hrun
              rw [if_neg (not_not_intro hprogress)]
              obtain ⟨payload, hencode⟩ : Stored.Writable { w with status } := by
                have hn := (h.valid.issued n _ hwrite).1
                have hfits := h.valid.fits_of_write hwrite
                rw [← hn] at hfits
                exact Stored.writable_write_iff.mpr hfits
              rw [hencode] at hrun
              have hturns :=
                Site.turns_finishing h.kept hfound hwrite hprogress hstatus hencode
              exact hdecides.follows_commit h hrun hturns
                ((Site.commits_finishing_iff h.kept).mpr ⟨⟨hot, hfound⟩, ⟨w, hwrite⟩, rfl⟩) trivial
            · have hterminal : w.status.isTerminal = true := by
                rw [← Bool.not_eq_false, WriteStatus.isTerminal_eq_false_iff]
                exact hprogress
              rw [if_pos hterminal] at hrun
              rw [if_pos hprogress]
              exact hdecides.follows_error hrun

theorem follows_withdraw :
    s.Follows t (m.withdrawWrite scope.datamart n)
      ((scope.perform (.withdrawWrite n)).runAlone time t) := by
  have hdecides := decides_withdraw scope n
  unfold Machine.withdrawWrite
  cases hhot : m.hot with
  | none =>
      have hclosed := h.closed hhot
      exact hdecides.follows_error (withdraw_alone_of_closed hlayout h.kept hclosed)
  | some hot =>
      obtain ⟨version, hfound⟩ := h.exists_hot hhot
      cases hentry : m.entry? n with
      | none =>
          have hmissing := h.missing hentry
          exact hdecides.follows_error (withdraw_alone_of_missing hlayout h.kept hfound hmissing)
      | some w =>
          obtain ⟨version', hwrite⟩ := h.exists_write hentry
          exact hdecides.follows_commit h
            (withdraw_alone_of_entry hlayout h.kept hfound hwrite)
            (Site.turns_withdrawing h.kept hfound hwrite)
            ((Site.commits_withdrawing_iff h.kept).mpr ⟨⟨hot, hfound⟩, ⟨w, hwrite⟩, rfl⟩) trivial

end Entries

/-! ## Ending an epoch -/

section Ending

variable {n : Int} {date : DateTime} {hot : HotDelta}

theorem follows_mark (hfits : m.Fits) (hn : Decimal.Fits n) :
    s.Follows t (m.failDelta scope.datamart n)
      ((scope.perform (.failDelta n)).runAlone time t) := by
  have hdecides := decides_mark scope n
  unfold Machine.failDelta
  cases hhot : m.hot with
  | none => exact hdecides.follows_error (mark_alone_of_closed hlayout h.kept (h.closed hhot))
  | some hot =>
      obtain ⟨version, hfound⟩ := h.exists_hot hhot
      obtain ⟨version', hcounters⟩ := h.exists_counters hhot
      have hrun := mark_alone_of_open time hlayout h.kept n hfound hcounters
      obtain ⟨payload, hencode⟩ := h.reflects.writable_failedAt hfits hhot hn
      rw [hencode] at hrun
      exact hdecides.follows_commit h hrun (Site.turns_marking h.kept hfound hcounters hencode)
        ((Site.commits_marking_iff h.kept).mpr ⟨⟨m.counters, hcounters⟩, ⟨hot, hfound⟩, rfl⟩)
        hhot

theorem follows_discard :
    s.Follows t (m.discardDelta scope.datamart)
      ((scope.perform .discardDelta).runAlone time t) := by
  have hdecides := decides_discard scope
  unfold Machine.discardDelta
  cases hhot : m.hot with
  | none => exact hdecides.follows_error (discard_alone_of_closed hlayout h.kept (h.closed hhot))
  | some hot =>
      obtain ⟨version, hfound⟩ := h.exists_hot hhot
      obtain ⟨version', hcounters⟩ := h.exists_counters hhot
      obtain ⟨entries, hlists, hrun⟩ :=
        discard_alone_of_open time hlayout h.kept h.valid hfound hcounters
      have hcovers := hlists.covers h.valid
      exact hdecides.follows_commit h hrun
        (Site.turns_discarding h.kept hfound hcounters hcovers)
        ((Site.commits_discarding_iff h.kept).mpr
          ⟨⟨m.counters, hcounters⟩, hlists.holds, ⟨hot, hfound⟩, rfl⟩) trivial

variable (time date) in
theorem checkDate_alone :
    (scope.checkDate m.counters date).runAlone time t =
      (match m.oks.getLast? with
        | some last => if date < last.deltaDate then .error (.dateTooEarly date last) else .ok ()
        | none => .ok (), t) := by
  rw [runAlone_checkDate time hlayout h.kept date, ← h.reflects.last]
  cases m.counters.lastDeltaNum.bind (s.book t).ok <;> rfl

section Unmarked

variable (hfits : m.Fits) (hhot : m.hot = some hot) (hrolling : hot.rollingBack = false)

include hfits hhot hrolling

theorem follows_promote_of_ready (hpending : m.pending = [])
    (hdate : (scope.checkDate m.counters date.wholeSecond).runAlone time t = (.ok (), t)) :
    s.Follows t (.ok (.done, m.committed hot date.wholeSecond))
      ((scope.perform (.commitDelta (some date))).runAlone time t) := by
  obtain ⟨version, hfound⟩ := h.exists_hot hhot
  obtain ⟨version', hcounters⟩ := h.exists_counters hhot
  obtain ⟨entries, hlists, hrun⟩ := promote_alone_of_open time hlayout h.kept date.wholeSecond
    h.valid hfound hrolling hcounters
  have hnum : hot.deltaNum = m.counters.nextDeltaNum := by
    rw [Machine.nextDeltaNum_counters]
    exact (h.reflects.next hot hhot).1
  have hnone : Scope.pending entries = [] := by
    rw [h.reflects.pending_eq hlists, hpending]
  have hfinished : ∀ n entry, (s.book t).write n = some entry →
      entry.record.status ≠ .inProgress := by
    intro n entry hentry
    apply pending_eq_nil_iff.mp hnone entry
    rw [hlists.2, (h.valid.issued n entry hentry).1]
    exact hentry
  have hnew : (s.book t).ok hot.deltaNum = none := by
    cases hok : (s.book t).ok hot.deltaNum with
    | none => rfl
    | some ok =>
        have hold := ((h.valid.numbered _).mp ⟨ok, hok⟩).2
        rw [h.reflects.sequence, hnum] at hold
        exact absurd hold (Int.lt_irrefl _)
  have hnext := h.reflects.writable_afterClose hfits hhot
  have hok := h.reflects.writable_close date.wholeSecond hfits hhot
  obtain ⟨steps, hsteps⟩ :=
    exists_commitSteps scope ⟨hot, version⟩ ⟨m.counters, version'⟩ entries hnext hok
  rw [if_neg (not_not_intro hnone), runAlone_bind_of_ok hdate, hsteps] at hrun
  obtain ⟨next, payload, hencode, hencode', rfl⟩ := of_commitSteps hlayout hsteps
  exact (decides_promote scope date).follows_commit h hrun
    (Site.turns_promoting h.kept hfound hcounters (hlists.covers h.valid) hrolling hfinished hnum
      (Int.le_refl _) hencode hencode')
    ((Site.commits_promoting_iff h.kept hencode).mpr
      ⟨⟨m.counters, hcounters⟩, hlists.holds, ⟨hot, hfound⟩, hnew, rfl⟩) hhot

end Unmarked

theorem follows_promote (hfits : m.Fits) :
    s.Follows t (m.commitDelta scope.datamart date.wholeSecond)
      ((scope.perform (.commitDelta (some date))).runAlone time t) := by
  have hdecides := decides_promote scope date
  unfold Machine.commitDelta
  cases hhot : m.hot with
  | none => exact hdecides.follows_error (promote_alone_of_closed hlayout h.kept (h.closed hhot))
  | some hot =>
      obtain ⟨version, hfound⟩ := h.exists_hot hhot
      dsimp only
      by_cases hrolling : hot.rollingBack = true
      · rw [if_pos hrolling]
        exact hdecides.follows_error (promote_alone_of_marked hlayout h.kept hfound hrolling)
      · rw [if_neg hrolling]
        rw [Bool.not_eq_true] at hrolling
        obtain ⟨version', hcounters⟩ := h.exists_counters hhot
        obtain ⟨entries, hlists, hrun⟩ := promote_alone_of_open time hlayout h.kept
          date.wholeSecond h.valid hfound hrolling hcounters
        rw [h.reflects.pending_eq hlists] at hrun
        have hchecked := checkDate_alone time hlayout h date.wholeSecond
        by_cases hpending : m.pending = []
        · rw [if_neg (not_not_intro hpending)] at hrun ⊢
          cases hlast : m.oks.getLast? with
          | none =>
              rw [hlast] at hchecked
              exact follows_promote_of_ready hlayout h hfits hhot hrolling hpending hchecked
          | some last =>
              rw [hlast] at hchecked
              dsimp only at hchecked ⊢
              by_cases hearly : date.wholeSecond < last.deltaDate
              · rw [if_pos hearly] at hchecked ⊢
                exact hdecides.follows_error (hrun.trans (runAlone_bind_of_error hchecked))
              · rw [if_neg hearly] at hchecked ⊢
                exact follows_promote_of_ready hlayout h hfits hhot hrolling hpending hchecked
        · rw [if_pos hpending] at hrun ⊢
          exact hdecides.follows_error hrun

end Ending

end Commands

end DeltaLedger
