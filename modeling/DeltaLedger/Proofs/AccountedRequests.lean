import DeltaLedger.Proofs.AnsweredRequests
import DeltaLedger.Proofs.Effects
import DeltaLedger.Proofs.EpochAttempts
import DeltaLedger.Proofs.IdleRequests

/-!
# Requests are accounted for

The attempts to open and to end an epoch, and the requests as a whole.  A commit has
compared its date with that of the last ok delta: what it read of this ok delta is still
true when its transaction is served, for the counters are the same and ok deltas stay.
-/

namespace DeltaLedger

open Program

section Attempts

variable {c : Coordinator} {r : Request} {s : Site} {trail : Trail}

/-- Reading the date of the last ok delta once is enough, as long as the counters stay. -/
theorem Safe.checkDate {β : Type} {f : Unit → Program Failure β} {call : Call} {h2 : History}
    {counters : Versioned Counters} {date : DateTime} {sites : Site → Prop}
    {post : Trail → Except Failure β → Prop} (horderly2 : h2.Orderly)
    (hmem : .answered call h2 ∈ trail) (hcounters : (s.book h2.now).counters = some counters)
    (huncommitted : trail.Uncommitted)
    (hearly : ∀ trail e, Trail.Uncommitted trail → post trail (.error e))
    (hnext : ∀ seen : Trail, (seen ++ trail).Uncommitted →
      (∀ h, .answered (.read (s.path .hot).text) h ∉ seen) →
      (∀ h n ok, h.Orderly → Trail.Precedes (seen ++ trail) h →
        counters.record.lastDeltaNum = some n → (s.book h.now).ok n = some ok →
          ok.record.deltaDate ≤ date) →
      (f ()).Safe sites post (seen ++ trail)) :
    ((scopeAt c r s).checkDate counters.record date >>= f).Safe sites post trail := by
  unfold Scope.checkDate
  cases hlast : counters.record.lastDeltaNum with
  | none =>
      refine hnext [] huncommitted nofun ?_
      intro h n ok _ _ hnum
      rw [hlast] at hnum
      cases hnum
  | some last =>
      dsimp only
      rw [scopeAt_layout, Site.layout_okDelta, bind_bind]
      apply Safe.read (Site.suits_ok last)
      intro h3 horderly3 hprecedes3
      have huncommitted3 := huncommitted.read (p := s.path (.ok last)) (h := h3)
      -- An ok delta with the last number was there already.
      have hpresent : ∀ h ok, h.Orderly → h3 ≤ h → (s.book h.now).ok last = some ok →
          (s.book h3.now).ok last = some ok := by
        intro h ok horderly hle hok
        have hle2 : h2 ≤ h3 := hprecedes3.le hmem
        have hold : last < (s.book h2.now).sequence.nextDeltaNum := by
          rw [Book.sequence_of_counters hcounters, Counters.nextDeltaNum, hlast]
          exact Int.lt_succ last
        have hleads := horderly.leads (History.le_trans hle2 hle) s
        have hfound := hleads.ok_of_lt (horderly2.valid s) (horderly.valid s) hold hok
        exact (horderly3.leads hle2 s).ok last ok hfound
      have helsewhere : ∀ h, .answered (.read (s.path .hot).text) h ∉
          ([.answered (.read (s.path (.ok last)).text) h3] : Trail) := by
        intro h hhead
        rw [List.mem_singleton] at hhead
        injection hhead with hcall
        injection hcall with htext
        exact path_ok_ne_hot htext.symm
      have hrest := hnext [.answered (.read (s.path (.ok last)).text) h3] huncommitted3 helsewhere
      cases hread : h3.now.record? OkDelta (s.path (.ok last)) with
      | none =>
          apply hrest
          intro h n ok horderly hprecedes hnum hok
          rw [hlast] at hnum
          cases hnum
          have hfound : (s.book h3.now).ok last = none := hread
          rw [hpresent h ok horderly hprecedes.head hok] at hfound
          cases hfound
      | some found =>
          dsimp only
          split
          next => exact hearly _ _ huncommitted3
          next hdate =>
            apply hrest
            intro h n ok horderly hprecedes hnum hok
            rw [hlast] at hnum
            cases hnum
            have hfound : (s.book h3.now).ok last = some found := hread
            rw [hpresent h ok horderly hprecedes.head hok] at hfound
            cases hfound
            exact Int.not_lt.mp hdate

variable (hserves : c.Serves r.datamart s) (huncommitted : trail.Uncommitted)

include hserves huncommitted

theorem accounts_open (hcommand : r.command = .openDelta) :
    (scopeAt c r s).tryOpen.Safe (c.Serves r.datamart) (Accounts c r .hotDelta) trail := by
  unfold Scope.tryOpen
  simp only [scopeAt_layout, scopeAt_datamart, Site.layout_hot, Site.layout_counters]
  apply Safe.read Site.suits_hot
  intro h1 horderly1 hprecedes1
  have huncommitted1 := huncommitted.read (p := s.path .hot) (h := h1)
  cases h1.now.record? HotDelta (s.path .hot) with
  | some hot => exact Accounted.failed huncommitted1
  | none =>
      apply Safe.read Site.suits_counters
      intro h2 horderly2 hprecedes2
      apply Safe.localTime
      intro utc
      have huncommitted2 := (huncommitted1.read (p := s.path .counters) (h := h2)).told utc
      refine Safe.ofExcept ?_ fun _ _ => Accounted.failed huncommitted2
      intro steps hsteps
      apply Safe.account hserves huncommitted2 (paths_openingSteps rfl hsteps)
      intro h t' horderly hprecedes hcommits
      have hcurrent : ∀ existing record, (s.book h2.now).counters = some existing →
          (s.book h.now).counters = some ⟨record, existing.version⟩ →
            (s.book h.now).counters = some existing :=
        fun _ _ => horderly.counters_of_version hprecedes.tail.head
      obtain ⟨hcounters, _, hturns⟩ := opening_turns rfl (horderly.kept s) (horderly.valid s)
        hcurrent hsteps hcommits
      refine ⟨_, hturns, ?_⟩
      have hsequence := sequence_congr hcounters
      change Effect s _ h r.command _ (.hotDelta ((s.book h2.now).sequence.openEpoch _))
      rw [hcommand, ← hsequence]
      exact .opened

theorem accounts_discard (hcommand : r.command = .discardDelta) :
    (scopeAt c r s).tryDiscard.Safe (c.Serves r.datamart) (Accounts c r fun _ => .done)
      trail := by
  unfold Scope.tryDiscard
  simp only [scopeAt_layout, Site.layout_hot, Site.layout_counters, scopeAt_deletions,
    List.cons_append]
  apply Safe.hot (s := s) rfl
  · intro h _ _ _
    exact Accounted.failed huncommitted.read
  · intro h1 hot horderly1 hprecedes1 hhot
    apply Safe.counters_after (s := s) rfl horderly1 hhot
    intro h2 counters horderly2 hprecedes2 hcounters
    apply Safe.ledger (s := s) rfl
    intro seen entries hscanned
    have huncommitted2 := (huncommitted.read (p := s.path .hot) (h := h1)).read
      (p := s.path .counters) (h := h2)
    apply Safe.account hserves (hscanned.uncommitted.append huncommitted2)
    · simp only [List.forall_mem_cons, List.forall_mem_append]
      exact ⟨⟨s.path .counters, rfl⟩, paths_deletes _, ⟨s.path .hot, rfl⟩, nofun⟩
    · intro h t' horderly hprecedes hcommits
      obtain ⟨_, _, _, _, hturns⟩ := discard_turns hscanned List.mem_cons_self hcounters horderly
        hprecedes hcommits
      refine ⟨_, hturns, ?_⟩
      rw [hcommand]
      exact .discarded

theorem accounts_mark {n : Int} (hcommand : r.command = .failDelta n) :
    ((scopeAt c r s).tryFail n).Safe (c.Serves r.datamart) (Accounts c r fun _ => .done)
      trail := by
  unfold Scope.tryFail
  simp only [scopeAt_layout, Site.layout_hot, Site.layout_counters]
  apply Safe.hot (s := s) rfl
  · intro h _ _ _
    exact Accounted.failed huncommitted.read
  · intro h1 view horderly1 hprecedes1 hview
    have huncommitted1 := huncommitted.read (p := s.path .hot) (h := h1)
    apply Safe.counters (s := s) rfl
    · intro h _ _ _
      exact Accounted.failed huncommitted1.read
    · intro h2 counters horderly2 hprecedes2 hcounters
      have huncommitted2 := huncommitted1.read (p := s.path .counters) (h := h2)
      refine Safe.ofExcept ?_ fun _ _ => Accounted.failed huncommitted2
      intro payload hencode
      apply Safe.account hserves huncommitted2 (by simp)
      intro h t' horderly hprecedes hcommits
      obtain ⟨hot, hhot, hturns⟩ := mark_turns horderly hencode hcommits
      have hlast : Trail.lastRead (s.path .hot).text
          (.answered (.read (s.path .counters).text) h2 ::
            .answered (.read (s.path .hot).text) h1 :: trail) = some h1 := by
        rw [Trail.lastRead_of_ne path_counters_ne_hot, Trail.lastRead_self]
      refine ⟨_, hturns, ?_⟩
      rw [hcommand]
      exact .marked ⟨⟨h1, hlast, hview⟩, hot, hhot⟩

theorem accounts_promote {asked : Option DateTime} {date : DateTime}
    (hcommand : r.command = .commitDelta asked) :
    ((scopeAt c r s).tryCommit date).Safe (c.Serves r.datamart) (Accounts c r fun _ => .done)
      trail := by
  unfold Scope.tryCommit
  apply Safe.hot (s := s) rfl
  · intro h _ _ _
    exact Accounted.failed huncommitted.read
  · intro h1 view horderly1 hprecedes1 hview
    have huncommitted1 := huncommitted.read (p := s.path .hot) (h := h1)
    cases hrolling : view.record.rollingBack with
    | true => exact Accounted.failed huncommitted1
    | false =>
        rw [if_neg (by simp)]
        apply Safe.counters_after (s := s) rfl horderly1 hview
        intro h2 counters horderly2 hprecedes2 hcounters
        have huncommitted2 := huncommitted1.read (p := s.path .counters) (h := h2)
        have hlast : Trail.lastRead (s.path .hot).text
            (.answered (.read (s.path .counters).text) h2 ::
              .answered (.read (s.path .hot).text) h1 :: trail) = some h1 := by
          rw [Trail.lastRead_of_ne path_counters_ne_hot, Trail.lastRead_self]
        apply Safe.ledger (s := s) rfl
        intro seen entries hscanned
        have huncommitted3 := hscanned.uncommitted.append huncommitted2
        by_cases hpending : Scope.pending entries = []
        · rw [if_neg (not_not_intro hpending)]
          apply Safe.checkDate horderly2 (List.mem_append_right _ List.mem_cons_self) hcounters
            huncommitted3
          · intro trail e hfailed
            exact Accounted.failed hfailed
          · intro later hlater helsewhere hdate
            refine Safe.ofExcept ?_ fun _ _ => Accounted.failed hlater
            intro steps hsteps
            obtain ⟨next, payload, hencode, hencode', rfl⟩ := of_commitSteps rfl hsteps
            apply Safe.account hserves hlater
            · simp only [List.forall_mem_cons, List.forall_mem_append]
              exact ⟨⟨s.path .counters, rfl⟩, paths_deletes _, ⟨s.path .hot, rfl⟩,
                ⟨s.path (.ok _), rfl⟩, nofun⟩
            · intro h t' horderly hprecedes hcommits
              have hprecedes' := hprecedes.of_append
              have hle := hprecedes'.le (List.mem_append_right _ (Trail.mem_of_lastRead hlast))
              obtain ⟨hot, hhot, hcounters', hturns⟩ := promote_turns hscanned hview hrolling hle
                List.mem_cons_self hcounters hpending hencode hencode' horderly hprecedes' hcommits
              refine ⟨_, hturns, ?_⟩
              rw [hcommand]
              refine .promoted ⟨⟨h1, ?_, hview⟩, hot, hhot⟩ hrolling ?_
              · rw [Trail.lastRead_append helsewhere, Trail.lastRead_append hscanned.elsewhere, hlast]
              · intro n ok hnum
                rw [Book.sequence_of_counters hcounters'] at hnum
                exact hdate h n ok horderly hprecedes hnum
        · rw [if_pos hpending]
          exact Accounted.failed huncommitted3

end Attempts

/-! ## Whole requests -/

section Performing

variable {c : Coordinator} {r : Request} {s : Site} {trail : Trail}

theorem accounted_of_accounts {command : Command} {γ : Type}
    {attempt : Program Failure (Option γ)} {answer : γ → Response}
    (hdecides : Decides (scopeAt c r s) command attempt answer)
    (hattempt : ∀ trail, trail.Uncommitted →
      attempt.Safe (c.Serves r.datamart) (Accounts c r answer) trail)
    (huncommitted : trail.Uncommitted) :
    ((scopeAt c r s).perform command).Safe (c.Serves r.datamart) (Accounted c r) trail :=
  hdecides.safe hattempt (fun _ hlost => .failed hlost) huncommitted

theorem accounted_commit {asked : Option DateTime} (hserves : c.Serves r.datamart s)
    (hcommand : r.command = .commitDelta asked) (huncommitted : trail.Uncommitted) :
    ((scopeAt c r s).perform (.commitDelta asked)).Safe (c.Serves r.datamart) (Accounted c r)
      trail := by
  have hgiven : ∀ (trail : Trail) (date : DateTime), trail.Uncommitted →
      ((scopeAt c r s).perform (.commitDelta (some date))).Safe (c.Serves r.datamart)
        (Accounted c r) trail := by
    intro trail date
    exact accounted_of_accounts (decides_promote _ date)
      fun _ hbefore => accounts_promote hserves hbefore hcommand
  cases asked with
  | some date => exact hgiven trail date huncommitted
  | none =>
      rw [perform_commitDelta_none]
      exact Safe.localTime fun now => hgiven _ _ (huncommitted.told now)

theorem accounted_perform (hserves : c.Serves r.datamart s) (huncommitted : trail.Uncommitted) :
    ((scopeAt c r s).perform r.command).Safe (c.Serves r.datamart) (Accounted c r) trail := by
  have hidle : r.command.Asks →
      ((scopeAt c r s).perform r.command).Safe (c.Serves r.datamart) (Accounted c r) trail := by
    intro hasks
    apply ((looks_perform hasks).reads.idle.safe huncommitted).mono
    intro trail result hquiet
    cases result with
    | error e => exact .failed hquiet
    | ok response =>
        refine .spared hquiet ?_
        cases hcommand : r.command with
        | openDelta | commitDelta | failDelta | discardDelta | registerWrite | withdrawWrite =>
            rw [hcommand] at hasks
            exact hasks.elim
        | _ => trivial
  cases hcommand : r.command with
  | openDelta =>
      exact accounted_of_accounts (decides_open _)
        (fun _ hbefore => accounts_open hserves hbefore hcommand) huncommitted
  | commitDelta asked => exact accounted_commit hserves hcommand huncommitted
  | failDelta n =>
      exact accounted_of_accounts (decides_mark _ n)
        (fun _ hbefore => accounts_mark hserves hbefore hcommand) huncommitted
  | discardDelta =>
      exact accounted_of_accounts (decides_discard _)
        (fun _ hbefore => accounts_discard hserves hbefore hcommand) huncommitted
  | registerWrite registration =>
      exact accounted_of_accounts (decides_register _ registration)
        (fun _ hbefore => accounts_register hserves hbefore hcommand) huncommitted
  | succeedWrite n =>
      have hspares : r.command.Spares := by
        rw [hcommand]
        trivial
      have heffect : ∀ before h, Effect s before h r.command (.finished n .success) .done := by
        intro before h
        rw [hcommand]
        exact .succeeded
      exact accounted_of_accounts (decides_succeed _ n)
        (fun _ hbefore => accounts_finish hserves hbefore (by decide) hspares heffect) huncommitted
  | failWrite n =>
      have hspares : r.command.Spares := by
        rw [hcommand]
        trivial
      have heffect : ∀ before h, Effect s before h r.command (.finished n .error) .done := by
        intro before h
        rw [hcommand]
        exact .failed
      exact accounted_of_accounts (decides_failWrite _ n)
        (fun _ hbefore => accounts_finish hserves hbefore (by decide) hspares heffect) huncommitted
  | withdrawWrite n =>
      exact accounted_of_accounts (decides_withdraw _ n)
        (fun _ hbefore => accounts_withdraw hserves hbefore hcommand) huncommitted
  | _ =>
      rw [hcommand] at hidle
      exact hidle trivial

end Performing

/-- Whatever other clients do, a request that fails has committed nothing, and one that
commits a transaction has the effect of its command and is over. -/
theorem accounted_serve (c : Coordinator) (r : Request) :
    (c.serve r).Safe (c.Serves r.datamart) (Accounted c r) [] :=
  safe_serve_of_perform (fun _ _ huncommitted _ => .failed huncommitted)
    fun s h hserves _ _ => accounted_perform hserves (Trail.uncommitted_stat s h)

end DeltaLedger
