import DeltaLedger.Proofs.ConfinedRequests
import DeltaLedger.Proofs.MachineSteps
import DeltaLedger.Proofs.ReadsAlone

/-!
# Attempts without opponents

An attempt that runs alone is not beaten: it ends with a failure of its checks, with nothing
to do, or with a transaction that is committed.  Whatever has happened to the site before,
what the attempt has just read meets every precondition of its steps: the versions are those
that were read, the ledger is listed in full, so that nothing is left below what is deleted,
and the nodes that are created are new.  A number that is next was never given out, and an
epoch that is not marked has the number of the next ok delta, even if marks have raced.

Nor does it fail otherwise than by its checks, unless a number leaves its range: every record
that is stored can be read, and what is made of it can be stored.
-/

namespace DeltaLedger

open Program

/-- A number that the command writes is outside its range. -/
def Command.Exceeds (command : Command) (b : Book) : Prop :=
  ¬command.Fits ∨ ∃ counters, b.counters = some counters ∧ command.Overflows counters.record

/-- What an attempt may come to that nobody opposes. -/
inductive Verdict (command : Command) (b : Book) {γ : Type} :
    Except Failure (Option γ) → Prop where
  | decided (a : γ) : Verdict command b (.ok (some a))
  | refused {e : Failure} (hcalm : e.isAlarming = false) : Verdict command b (.error e)
  | exceeded {e : Failure} (hexceeds : command.Exceeds b) : Verdict command b (.error e)

/-- On every tree that keeps the site, the attempt prevails alone. -/
def Program.Prevails {γ : Type} (s : Site) (command : Command)
    (attempt : Program Failure (Option γ)) : Prop :=
  ∀ time t, s.Kept t → (s.book t).Valid → t.has s.root = true →
    Verdict command (s.book t) (attempt.runAlone time t).1

/-- Alone, the attempt is not beaten. -/
theorem Program.Prevails.not_beaten {γ : Type} {s : Site} {command : Command}
    {attempt : Program Failure (Option γ)} {time : DateTime} {t : Tree}
    (hprevails : attempt.Prevails s command) (hkept : s.Kept t) (hvalid : (s.book t).Valid)
    (hroot : t.has s.root = true) : (attempt.runAlone time t).1 ≠ .ok none := by
  intro hbeaten
  have hverdict := hprevails time t hkept hvalid hroot
  rw [hbeaten] at hverdict
  cases hverdict

section Rules

variable {γ : Type} {attempt attempt' : Program Failure (Option γ)} {scope : Scope}
variable {time : DateTime} {t t' : Tree} {command : Command} {b : Book}

theorem verdict_of_error {e : Failure} (hrun : attempt.runAlone time t = (.error e, t))
    (hcalm : e.isAlarming = false) : Verdict command b (attempt.runAlone time t).1 := by
  rw [hrun]
  exact .refused hcalm

theorem verdict_of_eq (hrun : attempt.runAlone time t = attempt'.runAlone time t)
    (hverdict : Verdict command b (attempt'.runAlone time t).1) :
    Verdict command b (attempt.runAlone time t).1 := by
  rwa [hrun]

theorem verdict_ofExcept {α : Type} {result : Except Failure α}
    {f : α → Program Failure (Option γ)} (herror : ∀ e, result = .error e → command.Exceeds b)
    (hok : ∀ a, result = .ok a → Verdict command b ((f a).runAlone time t).1) :
    Verdict command b ((ofExcept result >>= f).runAlone time t).1 := by
  cases result with
  | error e => exact .exceeded (herror e rfl)
  | ok a => exact hok a rfl

theorem verdict_commit {steps : List Step} {a : γ} (hcommits : t.Commits steps t') :
    Verdict command b ((scope.commit steps a).runAlone time t).1 := by
  rw [runAlone_commit hcommits]
  exact .decided a

end Rules

/-! ## What can be stored -/

section Storing

theorem fits_of_int? {v : Json.Value} {n : Int} (hint : v.int? = some n) : Decimal.Fits n := by
  obtain ⟨m, _, hfitting⟩ := Option.bind_eq_some_iff.mp hint
  unfold Decimal.fitting? at hfitting
  split at hfitting
  next hfits =>
    cases hfitting
    exact hfits
  next => cases hfitting

theorem fits_of_required {field : Option Json.Value} {n : Int}
    (hfield : Json.required Json.Value.int? field = some n) : Decimal.Fits n := by
  obtain ⟨v, _, hint⟩ := Option.bind_eq_some_iff.mp hfield
  exact fits_of_int? hint

variable {s : Site} {t : Tree} {hot : Versioned HotDelta}

/-- The numbers of a hot delta that was read are in their range. -/
theorem Site.fits_of_hot (hhot : (s.book t).hot = some hot) :
    Decimal.Fits hot.record.deltaNum ∧ Decimal.Fits hot.record.cnFrom := by
  obtain ⟨node, _, _, hdecode⟩ := Tree.node_of_record? hhot
  unfold Stored.decode at hdecode
  split at hdecode
  next record hread =>
    obtain ⟨v, _, hfields⟩ := Option.bind_eq_some_iff.mp hread
    obtain ⟨fields, _, hfields⟩ := Option.bind_eq_some_iff.mp hfields
    split at hfields
    next deltaNum openedAt cnFrom rollingBack failedCn =>
      obtain ⟨num, hnum, hfields⟩ := Option.bind_eq_some_iff.mp hfields
      obtain ⟨opened, _, hfields⟩ := Option.bind_eq_some_iff.mp hfields
      obtain ⟨first, hfirst, hfields⟩ := Option.bind_eq_some_iff.mp hfields
      obtain ⟨rolling, _, hfields⟩ := Option.bind_eq_some_iff.mp hfields
      obtain ⟨failed, _, hfields⟩ := Option.bind_eq_some_iff.mp hfields
      rw [← Except.ok.inj hdecode, ← Option.some.inj hfields]
      exact ⟨fits_of_required hnum, fits_of_required hfirst⟩
    next => cases hfields
  next => cases hdecode

theorem Site.writable_failedAt {n : Int} (hhot : (s.book t).hot = some hot)
    (hn : Decimal.Fits n) : Stored.Writable (hot.record.failedAt n) := by
  obtain ⟨hnum, hfrom⟩ := fits_of_hot hhot
  refine Stored.writable_hot_iff.mpr ⟨hnum, hfrom, ?_⟩
  rintro k ⟨⟩
  exact hn

variable {counters : Versioned Counters} (hvalid : (s.book t).Valid)
variable (hhot : (s.book t).hot = some hot) (hcounters : (s.book t).counters = some counters)

include hvalid hhot hcounters

theorem Site.writable_close (date : DateTime) :
    Stored.Writable (counters.record.close hot.record date) := by
  obtain ⟨hnum, hfrom⟩ := fits_of_hot hhot
  have hnext := hvalid.bounded.1
  have hnonneg := hvalid.nonneg.1
  rw [Book.sequence_of_counters hcounters] at hnext hnonneg
  refine Stored.writable_ok_iff.mpr ⟨hnum, hfrom, ?_⟩
  change Decimal.Fits (max (counters.record.nextCn - 1) (hot.record.cnFrom - 1))
  unfold Decimal.Fits at *
  omega

theorem Site.writable_afterClose : Stored.Writable (counters.record.afterClose hot.record) := by
  have hnext := hvalid.bounded.1
  rw [Book.sequence_of_counters hcounters] at hnext
  refine Stored.writable_counters_iff.mpr ⟨hnext, ?_⟩
  rintro k ⟨⟩
  exact (fits_of_hot hhot).1

end Storing

section Attempts

variable {s : Site} {scope : Scope} {time : DateTime} {t : Tree} {date : DateTime}
variable (hlayout : scope.layout = s.layout)

theorem Book.Valid.ok_of_current {b : Book} {hot : Versioned HotDelta} (hvalid : b.Valid)
    (hhot : b.hot = some hot) (hrolling : hot.record.rollingBack = false) :
    b.ok hot.record.deltaNum = none := by
  cases hok : b.ok hot.record.deltaNum with
  | none => rfl
  | some ok =>
      have hold := ((hvalid.numbered _).mp ⟨ok, hok⟩).2
      rw [(hvalid.current hot hhot hrolling).1] at hold
      exact absurd hold (Int.lt_irrefl _)

include hlayout

theorem prevails_withdraw (n : Int) :
    (scope.tryWithdraw n).Prevails s (.withdrawWrite n) := by
  intro time t hkept _ _
  cases hhot : (s.book t).hot with
  | none => exact verdict_of_error (withdraw_alone_of_closed hlayout hkept hhot) rfl
  | some hot =>
      cases hentry : (s.book t).write n with
      | none => exact verdict_of_error (withdraw_alone_of_missing hlayout hkept hhot hentry) rfl
      | some entry =>
          apply verdict_of_eq (withdraw_alone_of_entry hlayout hkept hhot hentry)
          exact verdict_commit ((Site.commits_withdrawing_iff hkept).mpr
            ⟨⟨hot.record, hhot⟩, ⟨entry.record, hentry⟩, rfl⟩)

theorem prevails_finish (n : Int) (status : WriteStatus) (command : Command) :
    (scope.tryFinish n status).Prevails s command := by
  intro time t hkept hvalid _
  cases hhot : (s.book t).hot with
  | none => exact verdict_of_error (finish_alone_of_closed hlayout hkept hhot) rfl
  | some hot =>
      cases hentry : (s.book t).write n with
      | none => exact verdict_of_error (finish_alone_of_missing hlayout hkept hhot hentry) rfl
      | some entry =>
          apply verdict_of_eq (finish_alone_of_entry time hlayout hkept status hhot hentry)
          split
          next => exact .decided ()
          next =>
            split
            next => exact .refused rfl
            next =>
              have hfits := hvalid.fits_of_write hentry
              rw [← (hvalid.issued n entry hentry).1] at hfits
              apply verdict_ofExcept
              · intro e hencode
                obtain ⟨hnot, _⟩ := Stored.of_encode_eq_error hencode
                exact (hnot (Stored.writable_write_iff.mpr hfits)).elim
              · intro payload _
                exact verdict_commit ((Site.commits_finishing_iff hkept).mpr
                  ⟨⟨hot.record, hhot⟩, ⟨entry.record, hentry⟩, rfl⟩)

theorem prevails_open : scope.tryOpen.Prevails s .openDelta := by
  intro time t hkept hvalid hroot
  cases hhot : (s.book t).hot with
  | some hot => exact verdict_of_error (open_alone_of_open hlayout hkept hhot) rfl
  | none =>
      apply verdict_of_eq (open_alone_of_closed time hlayout hkept hhot)
      apply verdict_ofExcept
      · intro e hsteps
        obtain ⟨_, counters, _, hcounters, hlast⟩ := of_openingSteps_error hvalid rfl hsteps
        exact .inr ⟨counters, hcounters, hlast⟩
      · intro steps hsteps
        obtain ⟨t', hcommits⟩ := exists_opening_commit hlayout hkept hvalid hroot hhot hsteps
        exact verdict_commit hcommits

theorem prevails_register (r : Registration) :
    (scope.tryRegister r).Prevails s (.registerWrite r) := by
  intro time t hkept hvalid _
  cases hhot : (s.book t).hot with
  | none => exact verdict_of_error (register_alone_of_closed hlayout hkept hhot) rfl
  | some hot =>
      cases hrolling : hot.record.rollingBack with
      | true => exact verdict_of_error (register_alone_of_marked hlayout hkept hhot hrolling) rfl
      | false =>
          obtain ⟨counters, hcounters⟩ := hvalid.counters_of_hot hhot
          by_cases hfree : ∀ n entry, (s.book t).write n = some entry →
              entry.record.status = .inProgress → entry.record.tableName ≠ r.tableName
          · have hunused := hvalid.write_nextCn
            have hbounded := hvalid.bounded.1
            rw [Book.sequence_of_counters hcounters] at hunused hbounded
            apply verdict_of_eq
              (register_alone_of_free time hlayout hkept hvalid hhot hrolling hcounters hfree)
            apply verdict_ofExcept
            · intro e hencode
              obtain ⟨hnot, _⟩ := Stored.of_encode_eq_error hencode
              exact .inr ⟨counters, hcounters, nextCn_eq_of_not_writable hvalid hcounters hnot⟩
            · intro next _
              apply verdict_ofExcept
              · intro e hencode
                obtain ⟨hnot, _⟩ := Stored.of_encode_eq_error hencode
                exact absurd (Stored.writable_write_iff.mpr hbounded) hnot
              · intro payload _
                exact verdict_commit ((Site.commits_registering_iff hkept).mpr
                  ⟨⟨counters.record, hcounters⟩, ⟨hot.record, hhot⟩, hunused, rfl⟩)
          · push Not at hfree
            obtain ⟨n, entry, hentry, hprogress, htable⟩ := hfree
            exact verdict_of_error (register_alone_of_blocked hlayout hkept hvalid hhot
              hrolling hcounters hentry hprogress htable) rfl

theorem prevails_mark (n : Int) : (scope.tryFail n).Prevails s (.failDelta n) := by
  intro time t hkept hvalid _
  cases hhot : (s.book t).hot with
  | none => exact verdict_of_error (mark_alone_of_closed hlayout hkept hhot) rfl
  | some hot =>
      obtain ⟨counters, hcounters⟩ := hvalid.counters_of_hot hhot
      apply verdict_of_eq (mark_alone_of_open time hlayout hkept n hhot hcounters)
      apply verdict_ofExcept
      · intro e hencode
        obtain ⟨hnot, _⟩ := Stored.of_encode_eq_error hencode
        exact .inl fun hfits => hnot (Site.writable_failedAt hhot (hfits n rfl))
      · intro payload _
        exact verdict_commit ((Site.commits_marking_iff hkept).mpr
          ⟨⟨counters.record, hcounters⟩, ⟨hot.record, hhot⟩, rfl⟩)

theorem prevails_discard : scope.tryDiscard.Prevails s .discardDelta := by
  intro time t hkept hvalid _
  cases hhot : (s.book t).hot with
  | none => exact verdict_of_error (discard_alone_of_closed hlayout hkept hhot) rfl
  | some hot =>
      obtain ⟨counters, hcounters⟩ := hvalid.counters_of_hot hhot
      obtain ⟨entries, hlists, hrun⟩ :=
        discard_alone_of_open time hlayout hkept hvalid hhot hcounters
      apply verdict_of_eq hrun
      exact verdict_commit ((Site.commits_discarding_iff hkept).mpr
        ⟨⟨counters.record, hcounters⟩, hlists.holds, ⟨hot.record, hhot⟩, rfl⟩)

variable (time date) in
theorem exists_checkDate (hkept : s.Kept t) (record : Counters) :
    ∃ verdict, (scope.checkDate record date).runAlone time t = (verdict, t) ∧
      ∀ e, verdict = .error e → e.isAlarming = false := by
  refine ⟨_, runAlone_checkDate time hlayout hkept date record, ?_⟩
  split
  next =>
    split
    next =>
      rintro e ⟨⟩
      rfl
    next => exact nofun
  next => exact nofun

theorem prevails_promote (date : DateTime) (command : Command) :
    (scope.tryCommit date).Prevails s command := by
  intro time t hkept hvalid _
  cases hhot : (s.book t).hot with
  | none => exact verdict_of_error (promote_alone_of_closed hlayout hkept hhot) rfl
  | some hot =>
      cases hrolling : hot.record.rollingBack with
      | true => exact verdict_of_error (promote_alone_of_marked hlayout hkept hhot hrolling) rfl
      | false =>
          obtain ⟨counters, hcounters⟩ := hvalid.counters_of_hot hhot
          obtain ⟨entries, hlists, hrun⟩ :=
            promote_alone_of_open time hlayout hkept date hvalid hhot hrolling hcounters
          apply verdict_of_eq hrun
          split
          next => exact .refused rfl
          next =>
            obtain ⟨verdict, hchecked, hrefused⟩ :=
              exists_checkDate time date hlayout hkept counters.record
            cases verdict with
            | error e =>
                exact verdict_of_error (runAlone_bind_of_error hchecked) (hrefused e rfl)
            | ok _ =>
                apply verdict_of_eq (runAlone_bind_of_ok hchecked)
                apply verdict_ofExcept
                · intro e hsteps
                  obtain ⟨steps, hok⟩ := exists_commitSteps scope hot counters entries
                    (Site.writable_afterClose hvalid hhot hcounters)
                    (Site.writable_close hvalid hhot hcounters date)
                  rw [hok] at hsteps
                  cases hsteps
                · intro steps hsteps
                  obtain ⟨next, payload, hencode, _, rfl⟩ := of_commitSteps hlayout hsteps
                  have hnew := hvalid.ok_of_current hhot hrolling
                  exact verdict_commit ((Site.commits_promoting_iff hkept hencode).mpr
                    ⟨⟨counters.record, hcounters⟩, hlists.holds, ⟨hot.record, hhot⟩, hnew, rfl⟩)

end Attempts

/-! ## Requests -/

/-- The attempts of a command: how they go, and that they prevail alone. -/
inductive Scope.Carries (scope : Scope) (s : Site) (command : Command) (looks : Bool) : Prop where
  | intro {γ : Type} {attempt : Program Failure (Option γ)} {answer : γ → Response}
      (hdecides : Decides scope command attempt answer) (htries : attempt.Tries s looks)
      (hprevails : attempt.Prevails s command) : Carries scope s command looks

section Requests

variable {s : Site} {scope : Scope} {time : DateTime} {t : Tree} {command : Command} {e : Failure}
variable {looks : Bool}

theorem Scope.Carries.calm (hcarries : scope.Carries s command looks) (hkept : s.Kept t)
    (hvalid : (s.book t).Valid) (hroot : t.has s.root = true)
    (hrun : ((scope.perform command).runAlone time t).1 = .error e) :
    e.isAlarming = false ∨ command.Exceeds (s.book t) := by
  obtain ⟨hdecides, _, hprevails⟩ := hcarries
  have hverdict := hprevails time t hkept hvalid hroot
  generalize hattempt : Program.runAlone time _ t = run at hverdict
  obtain ⟨result, t'⟩ := run
  cases hverdict with
  | decided a =>
      rw [hdecides.of_ok hattempt] at hrun
      cases hrun
  | refused hcalm =>
      rw [hdecides.of_error hattempt] at hrun
      cases hrun
      exact .inl hcalm
  | exceeded hexceeds => exact .inr hexceeds

theorem calm_of_map {α : Type} {f : α → Response} {p : Program Failure α}
    {result : Except Failure α} (halone : p.runAlone time t = (result, t))
    (hcalm : ∀ e, result = .error e → e.isAlarming = false)
    (hrun : ((f <$> p).runAlone time t).1 = .error e) : e.isAlarming = false := by
  cases result with
  | ok a =>
      rw [runAlone_map_of_ok halone] at hrun
      cases hrun
  | error e' =>
      rw [runAlone_map_of_error halone] at hrun
      cases hrun
      exact hcalm e rfl

variable (hlayout : scope.layout = s.layout)

include hlayout

theorem carries_promote (date : DateTime) :
    scope.Carries s (.commitDelta (some date)) false :=
  ⟨decides_promote scope date, tries_promote hlayout _, prevails_promote hlayout _ _⟩

/-- A command that does not only ask is carried out by attempts, once the date is known. -/
theorem asks_or_carries (command : Command) :
    command.Asks ∨ command = .commitDelta none ∨ ∃ looks, scope.Carries s command looks := by
  cases command with
  | openDelta =>
      exact .inr (.inr ⟨_, decides_open scope, tries_open hlayout, prevails_open hlayout⟩)
  | commitDelta asked =>
      cases asked with
      | some date => exact .inr (.inr ⟨_, carries_promote hlayout date⟩)
      | none => exact .inr (.inl rfl)
  | failDelta n =>
      exact .inr (.inr ⟨_, decides_mark scope n, tries_mark hlayout n, prevails_mark hlayout n⟩)
  | discardDelta =>
      exact .inr (.inr
        ⟨_, decides_discard scope, tries_discard hlayout, prevails_discard hlayout⟩)
  | registerWrite r =>
      exact .inr (.inr
        ⟨_, decides_register scope r, tries_register hlayout r, prevails_register hlayout r⟩)
  | succeedWrite n =>
      exact .inr (.inr
        ⟨_, decides_succeed scope n, tries_finish hlayout n _, prevails_finish hlayout n _ _⟩)
  | failWrite n =>
      exact .inr (.inr
        ⟨_, decides_failWrite scope n, tries_finish hlayout n _, prevails_finish hlayout n _ _⟩)
  | withdrawWrite n =>
      exact .inr (.inr
        ⟨_, decides_withdraw scope n, tries_withdraw hlayout n, prevails_withdraw hlayout n⟩)
  | _ => exact .inl trivial

variable (hkept : s.Kept t) (hvalid : (s.book t).Valid)

include hkept hvalid

/-- What only asks fails alone by what the book tells. -/
theorem calm_asks (hasks : command.Asks)
    (hrun : ((scope.perform command).runAlone time t).1 = .error e) : e.isAlarming = false := by
  cases command with
  | readHot =>
      apply calm_of_map (runAlone_readHot hlayout hkept) _ hrun
      unfold Book.readHot
      split <;> rintro e ⟨⟩
      rfl
  | readLatest =>
      apply calm_of_map (runAlone_readLatest hlayout hkept hvalid) _ hrun
      unfold Book.readLatest
      split <;> rintro e ⟨⟩
      rfl
  | readByNumber n =>
      apply calm_of_map (runAlone_readByNumber hlayout hkept hvalid n) _ hrun
      unfold Book.readByNumber
      split
      next => exact nofun
      next => split <;> rintro e ⟨⟩ <;> rfl
      next =>
        rintro e ⟨⟩
        rfl
  | readAsOf asOf =>
      apply calm_of_map (runAlone_readAsOf hlayout hkept hvalid asOf) _ hrun
      unfold Book.readAsOf Book.firstBy
      split <;> rintro e ⟨⟩
      rfl
  | readLedger =>
      obtain ⟨entries, -, halone⟩ := runAlone_readLedger time hlayout hkept hvalid
      exact calm_of_map halone nofun hrun
  | _ => exact hasks.elim

/-- Alone, a request fails only by its checks, or for a number that is outside its range. -/
theorem calm_perform (hroot : t.has s.root = true)
    (hrun : ((scope.perform command).runAlone time t).1 = .error e) :
    e.isAlarming = false ∨ command.Exceeds (s.book t) := by
  rcases asks_or_carries hlayout command with hasks | rfl | ⟨looks, hcarries⟩
  · exact .inl (calm_asks hlayout hkept hvalid hasks hrun)
  · rw [perform_commitDelta_none] at hrun
    exact (carries_promote hlayout _).calm hkept hvalid hroot hrun
  · exact hcarries.calm hkept hvalid hroot hrun

end Requests

end DeltaLedger
