import DeltaLedger.Proofs.AttemptsAlone
import DeltaLedger.Proofs.Linearization

/-!
# Attempts to change the ledger

Registering, finishing and withdrawing under interference.  What an attempt has read
may be outdated when its transaction is served, but the versions that the
transaction names tie what matters to the tree of that moment, and there the whole
request would do the same.  An error is explained at the moment of the read that it
came from, with one exception: an entry that blocks a table may have been read when the
epoch was marked already.  Then the moment just before the mark explains it.
-/

namespace DeltaLedger

open Program

/-! ## Before an epoch is marked -/

/-- An entry in progress of a marked epoch was there before the mark. -/
theorem Book.Moves.before_marked {b b' : Book} {m : Move} (hmoves : b.Moves m b')
    {hot' : Versioned HotDelta} (hhot' : b'.hot = some hot')
    (hmarked : hot'.record.rollingBack = true) {n : Int} {entry : Versioned WriteOperation}
    (hentry : b'.write n = some entry) (hprogress : entry.record.status = .inProgress) :
    b.write n = some entry := by
  cases hmoves with
  | opened =>
      cases hhot'
      cases hmarked
  | registered hhot _ hrolling =>
      rw [Book.withWrite_hot] at hhot'
      have hsame : some hot' = some _ := hhot'.symm.trans hhot
      cases hsame
      rw [hrolling] at hmarked
      cases hmarked
  | finished _ _ _ hstatus =>
      rw [Book.withWrite_write] at hentry
      split at hentry
      next =>
        cases hentry
        exact absurd hprogress hstatus
      next => exact hentry
  | withdrawn =>
      rw [Book.withWrite_write] at hentry
      split at hentry
      next => cases hentry
      next => exact hentry
  | marked => exact hentry
  | discarded => cases hentry
  | promoted => cases hentry

/-- An entry in progress has been seen with an unmarked epoch, if there was one since. -/
theorem History.Orderly.exists_unmarked {s : Site} {h h' : History} {hot : Versioned HotDelta}
    (horderly : h'.Orderly) (hle : h ≤ h') (hhot : (s.book h.now).hot = some hot)
    (hrolling : hot.record.rollingBack = false) {n : Int} {entry : Versioned WriteOperation}
    (hentry : (s.book h'.now).write n = some entry)
    (hprogress : entry.record.status = .inProgress) :
    ∃ u hot', h ≤ u ∧ u ≤ h' ∧ (s.book u.now).hot = some hot' ∧
      hot'.record.rollingBack = false ∧ (s.book u.now).write n = some entry := by
  induction hle with
  | refl => exact ⟨h, hot, History.le_refl h, History.le_refl h, hhot, hrolling, hentry⟩
  | @next h' t hle ih =>
      cases horderly with
      | next horderly hchanges =>
          have horderly' := horderly.next hchanges
          obtain ⟨hot', hhot'⟩ := (horderly'.valid s).hot_of_write hentry
          cases hrolling' : hot'.record.rollingBack with
          | false =>
              exact ⟨h'.next t, hot', History.le_next hle t, History.le_refl _, hhot', hrolling',
                hentry⟩
          | true =>
              have hbefore : (s.book h'.now).write n = some entry := by
                rcases hchanges.book s with hsame | ⟨m, hturns⟩
                · rw [← hsame]
                  exact hentry
                · exact hturns.moves.before_marked hhot' hrolling' hentry hprogress
              obtain ⟨u, found, hfrom, hto, hfound⟩ := ih horderly hbefore
              exact ⟨u, found, hfrom, History.le_next hto t, hfound⟩

/-- A table that was free in the scan is free as long as the counters stay. -/
theorem Scanned.free {s : Site} {trail seen : Trail} {entries : List (Versioned WriteOperation)}
    {call : Call} {h h' : History} {counters : Versioned Counters} {table : String}
    (hscanned : Scanned s trail seen entries) (hmem : .answered call h ∈ trail)
    (hcounters : (s.book h.now).counters = some counters)
    (horderly' : h'.Orderly) (hprecedes' : Trail.Precedes (seen ++ trail) h')
    (hcounters' : (s.book h'.now).counters = some counters)
    (hnone : Scope.blocking? entries table = none) {n : Int} {entry : Versioned WriteOperation}
    (hentry : (s.book h'.now).write n = some entry)
    (hprogress : entry.record.status = .inProgress) : entry.record.tableName ≠ table := by
  have hlisted := hscanned.mem_of_inProgress hmem hcounters horderly' hprecedes' hcounters'
    hentry hprogress
  exact blocking?_eq_none_iff.mp hnone entry hlisted hprogress

section Attempts

variable {c : Coordinator} {r : Request} {s : Site} {sites : Site → Prop} {trail : Trail}

/-- What an attempt of a request leaves behind. -/
def Settles (c : Coordinator) (r : Request) (s : Site) {γ : Type} (answer : γ → Response) :
    Trail → Except Failure (Option γ) → Prop :=
  AfterAttempt (Trail.Begun s) fun trail result => Explained c r trail (result.map answer)

/-! ## Registering -/

section Register

variable {registration : Registration}

theorem decides_register (scope : Scope) (registration : Registration) :
    Decides scope (.registerWrite registration) (scope.tryRegister registration) .sysCn :=
  ⟨_, bind_bind _ _ _⟩

section Views

variable {seen : Trail} {entries : List (Versioned WriteOperation)} {call call' : Call}
variable {h1 h2 : History} {hot : Versioned HotDelta} {counters : Versioned Counters}
variable {next payload : List UInt8}
variable (hscanned : Scanned s trail seen entries)
variable (hnone : Scope.blocking? entries registration.tableName = none)
variable (hmem1 : .answered call' h1 ∈ trail) (hhot : (s.book h1.now).hot = some hot)
variable (hrolling : hot.record.rollingBack = false)
variable (hmem : .answered call h2 ∈ trail) (hcounters : (s.book h2.now).counters = some counters)
variable (hencode : Stored.encode counters.record.issue = .ok next)
variable (hencode' : Stored.encode
  (registration.entry r.datamart counters.record.nextCn) = .ok payload)

include hscanned hnone hmem1 hhot hrolling hmem hcounters hencode hencode'

/-- The steps of a registration commit only while the epoch and the counters are those that
were read, and no entry is in progress for the table. -/
theorem register_turns {h : History} {t' : Tree} (horderly : h.Orderly)
    (hprecedes : Trail.Precedes (seen ++ trail) h)
    (hcommits : h.now.Commits [.writeAt (s.path .counters).text counters.version next,
      .checkAt (s.path .hot).text hot.version,
      .create (s.path (.write counters.record.nextCn)).text payload] t') :
    ∃ hot', (s.book h.now).hot = some ⟨hot', hot.version⟩ ∧ hot'.rollingBack = false ∧
      (s.book h.now).counters = some counters ∧
      (∀ n entry, (s.book h.now).write n = some entry →
        entry.record.status = .inProgress → entry.record.tableName ≠ registration.tableName) ∧
      s.Turns (.registered r.datamart registration) h.now t' := by
  have hkept := horderly.kept s
  obtain ⟨⟨record, hcounters'⟩, ⟨hot', hhot'⟩, _, rfl⟩ :=
    (Site.commits_registering_iff hkept).mp hcommits
  have hle1 : h1 ≤ h := hprecedes.le (List.mem_append_right _ hmem1)
  have hle : h2 ≤ h := hprecedes.le (List.mem_append_right _ hmem)
  replace hcounters' := horderly.counters_of_version hle hcounters hcounters'
  have hrolling' := horderly.unmarked_of_version hle1 hhot hrolling hhot'
  have hfree : ∀ n entry, (s.book h.now).write n = some entry →
      entry.record.status = .inProgress → entry.record.tableName ≠ registration.tableName :=
    fun n entry hentry hprogress => hscanned.free hmem hcounters horderly hprecedes hcounters'
      hnone hentry hprogress
  have hturns :=
    Site.turns_registering hkept hhot' hcounters' hrolling' hfree hencode hencode'
  exact ⟨hot', hhot', hrolling', hcounters', hfree, hturns⟩

variable (hserves : c.Serves r.datamart s) (hfault : r.command.fault? = none)
variable (hdecides : Decides (scopeAt c r s) r.command
  ((scopeAt c r s).tryRegister registration) .sysCn)

include hserves hfault hdecides

theorem register_commit (hsite : sites s) (hbegun : trail.Begun s) :
    ((scopeAt c r s).commit
        [.writeAt (s.path .counters).text counters.version next,
          .checkAt (s.path .hot).text hot.version,
          .create (s.path (.write counters.record.nextCn)).text payload]
        counters.record.nextCn).Safe sites (Settles c r s .sysCn) (seen ++ trail) := by
  have hbegun' := hbegun.append hscanned.quiet
  apply Safe.commit (s := s) (by simp)
  · intro h t' horderly hprecedes hcommits
    have hkept := horderly.kept s
    obtain ⟨hot', hhot', hrolling', hcounters', hfree, hturns⟩ :=
      register_turns hscanned hnone hmem1 hhot hrolling hmem hcounters hencode hencode' horderly
        hprecedes hcommits
    refine ⟨⟨.registered r.datamart registration, hsite, hturns, trivial⟩, ?_⟩
    apply Explained.of_timeless_commit hserves hfault hdecides hbegun' horderly hprecedes hcommits
    intro time
    rw [register_alone_of_free time rfl hkept (horderly.valid s) hhot' hrolling' hcounters' hfree]
    simp only [scopeAt_datamart, hencode, hencode']
    exact runAlone_commit hcommits
  · intro h horderly hprecedes hsame
    exact hbegun'.answered hsame

end Views

theorem register_blocked {seen : Trail} {entries : List (Versioned WriteOperation)} {call : Call}
    {h1 : History} {hot : Versioned HotDelta} {found : Versioned WriteOperation}
    (hserves : c.Serves r.datamart s) (hfault : r.command.fault? = none)
    (hdecides : Decides (scopeAt c r s) r.command
      ((scopeAt c r s).tryRegister registration) .sysCn)
    (hbegun : trail.Begun s) (hscanned : Scanned s trail seen entries)
    (hfind : Scope.blocking? entries registration.tableName = some found)
    (hmem : .answered call h1 ∈ trail) (hhot : (s.book h1.now).hot = some hot)
    (hrolling : hot.record.rollingBack = false) :
    Explained c r (seen ++ trail)
      (.error (.tableBlocked r.datamart registration.tableName found.record.sysCn)) := by
  obtain ⟨hlisted, hprogress, htable⟩ := of_blocking?_eq_some hfind
  obtain ⟨call', m, hseen, horderly, hprecedes, hentry⟩ := hscanned.sound found hlisted
  obtain ⟨u, hot', hfrom, hto, hhot', hrolling', hentry'⟩ :=
    horderly.exists_unmarked (hprecedes.le hmem) hhot hrolling hentry hprogress
  have horderly' := horderly.of_le hto
  have hvalid := horderly'.valid s
  obtain ⟨counters, hcounters⟩ := hvalid.counters_of_hot hhot'
  have hspans : Trail.Spans (seen ++ trail) u :=
    ⟨⟨call, h1, List.mem_append_right _ hmem, hfrom⟩, call', m, List.mem_append_left _ hseen, hto⟩
  have hroot : u.now.has s.root = true := by
    rw [← horderly.has_root hto s]
    exact hbegun.has_root horderly hprecedes
  exact Explained.of_error hserves hfault hdecides (hbegun.append hscanned.quiet).1 hspans hroot
    (fun time => register_alone_of_blocked rfl (horderly'.kept s) hvalid hhot' hrolling' hcounters
      hentry' hprogress htable) rfl

/-- Registering goes wrong on fitting counters only at the end of their range. -/
theorem nextCn_eq_of_not_writable {b : Book} {counters : Versioned Counters} (hvalid : b.Valid)
    (hcounters : b.counters = some counters) (hnot : ¬Stored.Writable counters.record.issue) :
    counters.record.nextCn = 9_223_372_036_854_775_807 := by
  have hbounded := hvalid.bounded
  have hnonneg := hvalid.nonneg.1
  rw [Book.sequence_of_counters hcounters] at hbounded hnonneg
  rw [Stored.writable_counters_iff] at hnot
  have hover : ¬Decimal.Fits (counters.record.nextCn + 1) :=
    fun hfits => hnot ⟨hfits, hbounded.2⟩
  have hfits := hbounded.1
  unfold Decimal.Fits at hover hfits
  omega

theorem safe_register (hserves : c.Serves r.datamart s) (hfault : r.command.fault? = none)
    (hcommand : r.command = .registerWrite registration) (hsite : sites s)
    (hbegun : trail.Begun s) :
    ((scopeAt c r s).tryRegister registration).Safe sites (Settles c r s .sysCn) trail := by
  have hdecides := decides_register (scopeAt c r s) registration
  rw [← hcommand] at hdecides
  unfold Scope.tryRegister
  simp only [scopeAt_layout, scopeAt_datamart, Site.layout_hot, Site.layout_counters,
    Site.layout_write]
  apply Safe.require Site.suits_hot
  · intro h horderly hprecedes hhot
    exact Explained.of_read hserves hfault hdecides hbegun horderly hprecedes
      fun time => register_alone_of_closed rfl (horderly.kept s) hhot
  · intro h1 hot horderly1 hprecedes1 hhot
    cases hrolling : hot.record.rollingBack with
    | true =>
        exact Explained.of_read hserves hfault hdecides hbegun horderly1 hprecedes1
          fun time => register_alone_of_marked rfl (horderly1.kept s) hhot hrolling
    | false =>
        rw [if_neg (by simp)]
        apply Safe.counters_after (s := s) rfl horderly1 hhot
        intro h2 counters horderly2 hprecedes2 hcounters
        have hbegun2 := (hbegun.read (p := s.path .hot) (h := h1)).read
          (p := s.path .counters) (h := h2)
        have hmem1 := List.mem_cons_of_mem (.answered (.read (s.path .counters).text) h2)
          (List.mem_cons_self (a := .answered (.read (s.path .hot).text) h1) (l := trail))
        apply Safe.ledger (s := s) rfl
        intro seen entries hscanned
        cases hfind : Scope.blocking? entries registration.tableName with
        | some found =>
            exact register_blocked hserves hfault hdecides hbegun2 hscanned hfind hmem1 hhot
              hrolling
        | none =>
            apply Safe.ofExcept
            · intro next hencode
              apply Safe.ofExcept
              · intro payload hencode'
                exact register_commit hscanned hfind hmem1 hhot hrolling List.mem_cons_self
                  hcounters hencode hencode' hserves hfault hdecides hsite hbegun2
              · intro e hencode'
                have hfits := (horderly2.valid s).bounded.1
                rw [Book.sequence_of_counters hcounters] at hfits
                exact absurd (Stored.writable_write_iff.mpr hfits)
                  (Stored.of_encode_eq_error hencode').1
            · intro e hencode
              obtain ⟨hnot, message, rfl⟩ := Stored.of_encode_eq_error hencode
              have hfull := nextCn_eq_of_not_writable (horderly2.valid s) hcounters hnot
              refine .overflowed (hbegun2.append hscanned.quiet).1
                ⟨s, _, h2, counters, hserves, List.mem_append_right _ List.mem_cons_self,
                  hcounters, ?_⟩
              rw [hcommand]
              exact hfull

end Register

/-! ## Finishing and withdrawing -/

section Finish

variable {n : Int} {status : WriteStatus}

theorem decides_succeed (scope : Scope) (n : Int) :
    Decides scope (.succeedWrite n) (scope.tryFinish n .success) fun _ => .done :=
  ⟨_, bind_bind _ _ _⟩

theorem decides_failWrite (scope : Scope) (n : Int) :
    Decides scope (.failWrite n) (scope.tryFinish n .error) fun _ => .done :=
  ⟨_, bind_bind _ _ _⟩

theorem decides_withdraw (scope : Scope) (n : Int) :
    Decides scope (.withdrawWrite n) (scope.tryWithdraw n) fun _ => .done :=
  ⟨_, bind_bind _ _ _⟩

theorem entry_missing {γ : Type} {attempt : Program Failure (Option γ)} {answer : γ → Response}
    {h : History} (hserves : c.Serves r.datamart s) (hfault : r.command.fault? = none)
    (hdecides : Decides (scopeAt c r s) r.command attempt answer)
    (hbegun : trail.Begun s) (horderly : h.Orderly) (hprecedes : trail.Precedes h)
    (hclosed : (s.book h.now).hot = none →
      ∀ time, attempt.runAlone time h.now = (.error (.noHotDelta r.datamart), h.now))
    (hmissing : ∀ hot, (s.book h.now).hot = some hot →
      ∀ time, attempt.runAlone time h.now = (.error (.noWrite r.datamart n), h.now)) :
    Explained c r (.answered (.read (s.path (.write n)).text) h :: trail)
      (.error (.noWrite r.datamart n)) := by
  cases hhot : (s.book h.now).hot with
  | none =>
      -- The epoch is over, which is another failure of the same kind.
      exact Explained.of_error hserves hfault hdecides hbegun.read.1
        (Trail.spans_of_mem List.mem_cons_self) (hbegun.has_root horderly hprecedes)
        (hclosed hhot) rfl
  | some hot =>
      exact Explained.of_read hserves hfault hdecides hbegun horderly hprecedes (hmissing hot hhot)

theorem finish_turns {h h2 : History} {v : Nat} {entry : Versioned WriteOperation}
    {payload : List UInt8} {t' : Tree} (hstatus : status ≠ .inProgress) (horderly : h.Orderly)
    (hle : h2 ≤ h) (hentry : (s.book h2.now).write n = some entry)
    (hprogress : entry.record.status = .inProgress)
    (hencode : Stored.encode { entry.record with status } = .ok payload)
    (hcommits : h.now.Commits [.checkAt (s.path .hot).text v,
      .writeAt (s.path (.write n)).text entry.version payload] t') :
    ∃ hot, (s.book h.now).hot = some ⟨hot, v⟩ ∧ (s.book h.now).write n = some entry ∧
      s.Turns (.finished n status) h.now t' := by
  have hkept := horderly.kept s
  obtain ⟨⟨hot, hhot⟩, ⟨record, hentry'⟩, rfl⟩ := (Site.commits_finishing_iff hkept).mp hcommits
  replace hentry' := horderly.write_of_version hle hentry hentry'
  exact ⟨hot, hhot, hentry', Site.turns_finishing hkept hhot hentry' hprogress hstatus hencode⟩

theorem withdraw_turns {h h2 : History} {v : Nat} {entry : Versioned WriteOperation} {t' : Tree}
    (horderly : h.Orderly) (hle : h2 ≤ h) (hentry : (s.book h2.now).write n = some entry)
    (hcommits : h.now.Commits [.checkAt (s.path .hot).text v,
      .deleteAt (s.path (.write n)).text entry.version] t') :
    ∃ hot, (s.book h.now).hot = some ⟨hot, v⟩ ∧ (s.book h.now).write n = some entry ∧
      s.Turns (.withdrawn n) h.now t' := by
  have hkept := horderly.kept s
  obtain ⟨⟨hot, hhot⟩, ⟨record, hentry'⟩, rfl⟩ :=
    (Site.commits_withdrawing_iff hkept).mp hcommits
  replace hentry' := horderly.write_of_version hle hentry hentry'
  exact ⟨hot, hhot, hentry', Site.turns_withdrawing hkept hhot hentry'⟩

theorem finish_commit {call : Call} {h2 : History} {hot : Versioned HotDelta}
    {entry : Versioned WriteOperation} {payload : List UInt8}
    (hserves : c.Serves r.datamart s) (hfault : r.command.fault? = none)
    (hdecides : Decides (scopeAt c r s) r.command ((scopeAt c r s).tryFinish n status)
      fun _ => .done)
    (hstatus : status ≠ .inProgress) (hsite : sites s) (hbegun : trail.Begun s)
    (hmem : .answered call h2 ∈ trail)
    (hentry : (s.book h2.now).write n = some entry) (hprogress : entry.record.status = .inProgress)
    (hencode : Stored.encode { entry.record with status } = .ok payload) :
    ((scopeAt c r s).commit
        [.checkAt (s.path .hot).text hot.version,
          .writeAt (s.path (.write n)).text entry.version payload]
        ()).Safe sites (Settles c r s fun _ => .done) trail := by
  apply Safe.commit (s := s) (by simp)
  · intro h t' horderly hprecedes hcommits
    obtain ⟨hot', hhot', hentry', hturns⟩ := finish_turns hstatus horderly (hprecedes.le hmem)
      hentry hprogress hencode hcommits
    refine ⟨⟨.finished n status, hsite, hturns, trivial⟩, ?_⟩
    apply Explained.of_timeless_commit (a := ()) hserves hfault hdecides hbegun horderly hprecedes
      hcommits
    intro time
    have hother : entry.record.status ≠ status := by
      rw [hprogress]
      exact hstatus.symm
    have hterminal : entry.record.status.isTerminal = false :=
      WriteStatus.isTerminal_eq_false_iff.mpr hprogress
    rw [finish_alone_of_entry time rfl (horderly.kept s) status hhot' hentry', if_neg hother,
      hterminal]
    simp only [hencode]
    exact runAlone_commit hcommits
  · intro h horderly hprecedes hsame
    exact hbegun.answered hsame

theorem withdraw_commit {call : Call} {h2 : History} {hot : Versioned HotDelta}
    {entry : Versioned WriteOperation}
    (hserves : c.Serves r.datamart s) (hfault : r.command.fault? = none)
    (hdecides : Decides (scopeAt c r s) r.command ((scopeAt c r s).tryWithdraw n) fun _ => .done)
    (hsite : sites s) (hbegun : trail.Begun s) (hmem : .answered call h2 ∈ trail)
    (hentry : (s.book h2.now).write n = some entry) :
    ((scopeAt c r s).commit
        [.checkAt (s.path .hot).text hot.version,
          .deleteAt (s.path (.write n)).text entry.version]
        entry.record.tableName).Safe sites (Settles c r s fun _ => .done) trail := by
  apply Safe.commit (s := s) (by simp)
  · intro h t' horderly hprecedes hcommits
    obtain ⟨hot', hhot', hentry', hturns⟩ :=
      withdraw_turns horderly (hprecedes.le hmem) hentry hcommits
    refine ⟨⟨.withdrawn n, hsite, hturns, trivial⟩, ?_⟩
    apply Explained.of_timeless_commit (a := entry.record.tableName) hserves hfault hdecides hbegun
      horderly hprecedes hcommits
    intro time
    rw [withdraw_alone_of_entry rfl (horderly.kept s) hhot' hentry']
    exact runAlone_commit hcommits
  · intro h horderly hprecedes hsame
    exact hbegun.answered hsame

section Parts

variable (hserves : c.Serves r.datamart s) (hfault : r.command.fault? = none)

include hserves hfault

theorem safe_finish
    (hdecides : Decides (scopeAt c r s) r.command ((scopeAt c r s).tryFinish n status)
      fun _ => .done)
    (hstatus : status ≠ .inProgress) (hsite : sites s) (hbegun : trail.Begun s) :
    ((scopeAt c r s).tryFinish n status).Safe sites (Settles c r s fun _ => .done) trail := by
  unfold Scope.tryFinish
  simp only [scopeAt_layout, scopeAt_datamart, Site.layout_hot, Site.layout_write]
  apply Safe.hot (s := s) rfl
  · intro h horderly hprecedes hhot
    exact Explained.of_read hserves hfault hdecides hbegun horderly hprecedes
      fun time => finish_alone_of_closed rfl (horderly.kept s) hhot
  · intro h1 hot1 horderly1 hprecedes1 hhot1
    have hbegun1 := hbegun.read (p := s.path .hot) (h := h1)
    apply Safe.write (s := s) rfl
    · intro h horderly hprecedes hentry
      exact entry_missing hserves hfault hdecides hbegun1 horderly hprecedes
        (fun hhot time => finish_alone_of_closed rfl (horderly.kept s) hhot)
        (fun hot hhot time => finish_alone_of_missing rfl (horderly.kept s) hhot hentry)
    · intro h2 entry horderly2 hprecedes2 hentry
      have hbegun2 := hbegun1.read (p := s.path (.write n)) (h := h2)
      obtain ⟨hot2, hhot2⟩ := (horderly2.valid s).hot_of_write hentry
      have hlayout : (scopeAt c r s).layout = s.layout := rfl
      have halone := fun time =>
        finish_alone_of_entry time hlayout (horderly2.kept s) status hhot2 hentry
      split
      next hsame =>
        simp only [if_pos hsame] at halone
        exact Explained.of_same hserves hfault hdecides hbegun2.1
          (Trail.spans_of_mem List.mem_cons_self) (hbegun1.has_root horderly2 hprecedes2) halone
      next hother =>
        split
        next hterminal =>
          simp only [if_neg hother, if_pos hterminal] at halone
          exact Explained.of_read hserves hfault hdecides hbegun1 horderly2 hprecedes2 halone
        next hprogress =>
          have hprogress' :=
            WriteStatus.isTerminal_eq_false_iff.mp (Bool.not_eq_true _ ▸ hprogress)
          apply Safe.ofExcept
          · intro payload hencode
            exact finish_commit hserves hfault hdecides hstatus hsite hbegun2
              List.mem_cons_self hentry hprogress' hencode
          · intro e hencode
            have hvalid2 := horderly2.valid s
            have hfits : Decimal.Fits entry.record.sysCn := by
              rw [(hvalid2.issued n entry hentry).1]
              exact hvalid2.fits_of_write hentry
            have hwritable : Stored.Writable { entry.record with status } :=
              Stored.writable_write_iff.mpr hfits
            exact absurd hwritable (Stored.of_encode_eq_error hencode).1

theorem safe_withdraw
    (hdecides : Decides (scopeAt c r s) r.command ((scopeAt c r s).tryWithdraw n) fun _ => .done)
    (hsite : sites s) (hbegun : trail.Begun s) :
    ((scopeAt c r s).tryWithdraw n).Safe sites (Settles c r s fun _ => .done) trail := by
  unfold Scope.tryWithdraw
  simp only [scopeAt_layout, Site.layout_hot, Site.layout_write]
  apply Safe.hot (s := s) rfl
  · intro h horderly hprecedes hhot
    exact Explained.of_read hserves hfault hdecides hbegun horderly hprecedes
      fun time => withdraw_alone_of_closed rfl (horderly.kept s) hhot
  · intro h1 hot1 horderly1 hprecedes1 hhot1
    have hbegun1 := hbegun.read (p := s.path .hot) (h := h1)
    apply Safe.write (s := s) rfl
    · intro h horderly hprecedes hentry
      exact entry_missing hserves hfault hdecides hbegun1 horderly hprecedes
        (fun hhot time => withdraw_alone_of_closed rfl (horderly.kept s) hhot)
        (fun hot hhot time => withdraw_alone_of_missing rfl (horderly.kept s) hhot hentry)
    · intro h2 entry horderly2 hprecedes2 hentry
      have hbegun2 := hbegun1.read (p := s.path (.write n)) (h := h2)
      exact withdraw_commit hserves hfault hdecides hsite hbegun2 List.mem_cons_self hentry

end Parts

end Finish

end Attempts

end DeltaLedger
