import DeltaLedger.Proofs.WriteAttempts

/-!
# Attempts to open and to end an epoch

Opening and discarding under interference are explained like the changes of the
ledger.  The transactions that mark and commit an epoch are only shown to make turns of
their site: what they write is taken from the hot delta that was read first, and another
epoch may be open when they are served.  A commit still finds the counters of its own
epoch's number, and the epoch that it ends did not start before the one that was read.
-/

namespace DeltaLedger

open Program

section Attempts

variable {c : Coordinator} {r : Request} {s : Site} {sites : Site → Prop} {trail : Trail}

/-! ## Opening -/

section Opening

variable {scope : Scope} {counters : Counters} {hot : HotDelta} {steps : List Step}

theorem of_openingSteps_some {found : Versioned Counters} (hlayout : scope.layout = s.layout)
    (hsteps : scope.openingSteps (some found) counters hot = .ok steps) :
    ∃ payload, Stored.encode hot = .ok payload ∧
      steps = [.checkAt (s.path .counters).text found.version,
        .create (s.path .hot).text payload] := by
  unfold Scope.openingSteps at hsteps
  rw [hlayout, Site.layout_counters, Site.layout_hot] at hsteps
  cases hencode : Stored.encode hot with
  | error e =>
      rw [hencode] at hsteps
      cases hsteps
  | ok payload =>
      rw [hencode] at hsteps
      cases hsteps
      exact ⟨payload, rfl, rfl⟩

theorem of_openingSteps_none (hlayout : scope.layout = s.layout)
    (hsteps : scope.openingSteps none counters hot = .ok steps) :
    ∃ data payload, Stored.encode counters = .ok data ∧ Stored.encode hot = .ok payload ∧
      steps = [.create (s.path .counters).text data, .create (s.path .okDeltas).text [],
        .create (s.path .writes).text [], .create (s.path .hot).text payload] := by
  unfold Scope.openingSteps at hsteps
  rw [hlayout, Site.layout_counters, Site.layout_okDeltas, Site.layout_writes,
    Site.layout_hot] at hsteps
  cases hencode : Stored.encode counters with
  | error e =>
      rw [hencode] at hsteps
      cases hsteps
  | ok data =>
      cases hencode' : Stored.encode hot with
      | error e =>
          rw [hencode, hencode'] at hsteps
          cases hsteps
      | ok payload =>
          rw [hencode, hencode'] at hsteps
          cases hsteps
          exact ⟨data, payload, rfl, rfl, rfl⟩

theorem paths_openingSteps {found : Option (Versioned Counters)}
    (hlayout : scope.layout = s.layout)
    (hsteps : scope.openingSteps found counters hot = .ok steps) :
    ∀ step ∈ steps, ∃ p : Path, step.path = p.text := by
  cases found with
  | none =>
      obtain ⟨data, payload, _, _, heq⟩ := of_openingSteps_none hlayout hsteps
      simp [heq]
  | some found =>
      obtain ⟨payload, _, heq⟩ := of_openingSteps_some hlayout hsteps
      simp [heq]

theorem has_root_of_founding {data : List UInt8} {rest : List Step} {t t' : Tree}
    (hcommits : t.Commits (.create (s.path .counters).text data :: rest) t') :
    t.has s.root = true := by
  obtain ⟨v, next, hstep, _⟩ := hcommits
  have hparent := ((Tree.step_create_iff (s.path_ne_root _)).mp hstep).2.1
  rw [s.parent?_counters] at hparent
  exact hparent

/-- The steps that were made from one book open an epoch in another, if the counters at
the version that was read are those that were read. -/
theorem opening_turns {b : Book} {now : DateTime} {t t' : Tree} (hlayout : scope.layout = s.layout)
    (hkept : s.Kept t) (hvalid : (s.book t).Valid)
    (hcurrent : ∀ existing record, b.counters = some existing →
      (s.book t).counters = some ⟨record, existing.version⟩ → (s.book t).counters = some existing)
    (hsteps : scope.openingSteps b.counters b.sequence (b.sequence.openEpoch now) = .ok steps)
    (hcommits : t.Commits steps t') :
    (s.book t).counters = b.counters ∧ (s.book t).hot = none ∧ s.Turns (.opened now) t t' := by
  cases hfound : b.counters with
  | none =>
      have hfresh : b.sequence = .fresh := by simp [Book.sequence, hfound]
      rw [hfound, hfresh] at hsteps
      obtain ⟨data, payload, hencode, hencode', rfl⟩ := of_openingSteps_none hlayout hsteps
      have hroot := has_root_of_founding hcommits
      obtain ⟨hcounters, rfl⟩ := (Site.commits_founding_iff hkept hroot hvalid).mp hcommits
      exact ⟨hcounters, (hvalid.bare hcounters).1,
        Site.turns_founding hkept hvalid hcounters hencode hencode'⟩
  | some existing =>
      rw [hfound, Book.sequence_of_counters hfound] at hsteps
      obtain ⟨payload, hencode, rfl⟩ := of_openingSteps_some hlayout hsteps
      obtain ⟨⟨record, hcounters⟩, hclosed, rfl⟩ := (Site.commits_opening_iff hkept).mp hcommits
      replace hcounters := hcurrent existing record hfound hcounters
      exact ⟨hcounters, hclosed, Site.turns_opening hkept hcounters hclosed hencode⟩

/-- A hot delta can be written unless the delta numbers are used up. -/
theorem lastDeltaNum_eq_of_not_writable {b : Book} {now : DateTime} (hvalid : b.Valid)
    (hnot : ¬Stored.Writable (b.sequence.openEpoch now)) :
    b.sequence.lastDeltaNum = some 9_223_372_036_854_775_807 := by
  obtain ⟨hfitsCn, hfitsLast⟩ := hvalid.bounded
  have hnonneg := hvalid.nonneg.2
  have hover : ¬Decimal.Fits b.sequence.nextDeltaNum := by
    intro hfits
    exact hnot (Stored.writable_hot_iff.mpr ⟨hfits, hfitsCn, nofun⟩)
  unfold Counters.nextDeltaNum at hover hnonneg
  cases hlast : b.sequence.lastDeltaNum with
  | none =>
      rw [hlast] at hover
      exact absurd (by decide) hover
  | some n =>
      rw [hlast] at hover hnonneg
      have hfits := hfitsLast n hlast
      unfold Decimal.Fits at hover hfits
      congr 1
      dsimp only at hover hnonneg
      omega

theorem writable_fresh : Stored.Writable Counters.fresh :=
  Stored.writable_counters_iff.mpr ⟨by decide, nofun⟩

theorem of_openingSteps_error {found : Option (Versioned Counters)} {now : DateTime} {e : Failure}
    {b : Book} (hvalid : b.Valid) (hfound : b.counters = found)
    (hsteps : scope.openingSteps found b.sequence (b.sequence.openEpoch now) = .error e) :
    ∃ message existing, e = .serialization message ∧ found = some existing ∧
      existing.record.lastDeltaNum = some 9_223_372_036_854_775_807 := by
  unfold Scope.openingSteps at hsteps
  cases found with
  | none =>
      have hfresh : b.sequence = .fresh := by simp [Book.sequence, hfound]
      have hwritable : Stored.Writable (b.sequence.openEpoch now) := by
        refine Classical.byContradiction fun hnot => ?_
        have hlast := lastDeltaNum_eq_of_not_writable hvalid hnot
        rw [hfresh] at hlast
        cases hlast
      obtain ⟨payload, hencode⟩ := hwritable
      obtain ⟨data, hencode'⟩ := writable_fresh
      rw [hencode, hfresh, hencode'] at hsteps
      cases hsteps
  | some existing =>
      cases hencode : Stored.encode (b.sequence.openEpoch now) with
      | ok payload =>
          rw [hencode] at hsteps
          cases hsteps
      | error e' =>
          rw [hencode] at hsteps
          cases hsteps
          obtain ⟨hnot, message, rfl⟩ := Stored.of_encode_eq_error hencode
          refine ⟨message, existing, rfl, rfl, ?_⟩
          rw [← Book.sequence_of_counters hfound]
          exact lastDeltaNum_eq_of_not_writable hvalid hnot

end Opening

section Open

theorem decides_open (scope : Scope) : Decides scope .openDelta scope.tryOpen .hotDelta :=
  ⟨_, bind_bind _ _ _⟩

theorem sequence_congr {b b' : Book} (hcounters : b.counters = b'.counters) :
    b.sequence = b'.sequence := by
  unfold Book.sequence
  rw [hcounters]

variable {utc : DateTime} {h2 : History} {steps : List Step}
variable (hserves : c.Serves r.datamart s) (hfault : r.command.fault? = none)
variable (hdecides : Decides (scopeAt c r s) r.command (scopeAt c r s).tryOpen .hotDelta)

include hserves hfault hdecides

theorem open_explained {h : History} {t' : Tree} (hbegun : trail.Begun s)
    (horderly : h.Orderly) (hprecedes : trail.Precedes h) (htold : .told utc ∈ trail)
    (hcounters : (s.book h.now).counters = (s.book h2.now).counters)
    (hhot : (s.book h.now).hot = none)
    (hsteps : (scopeAt c r s).openingSteps (s.book h2.now).counters (s.book h2.now).sequence
      ((s.book h2.now).sequence.openEpoch (utc.atOffset c.zone).wholeSecond) = .ok steps)
    (hcommits : h.now.Commits steps t') :
    Explained c r (.answered (.transact steps) h :: trail)
      (.ok (.hotDelta ((s.book h2.now).sequence.openEpoch (utc.atOffset c.zone).wholeSecond))) := by
  have hsequence := sequence_congr hcounters
  have hclocked : Trail.Clocked (.answered (.transact steps) h :: trail) utc :=
    .inl (List.mem_cons_of_mem _ htold)
  apply Explained.of_commit hserves hfault hdecides hbegun.1 hprecedes
    (hbegun.has_root horderly hprecedes) hclocked hcommits
  rw [open_alone_of_closed utc rfl (horderly.kept s) hhot, hcounters, hsequence]
  simp only [scopeAt, hsteps] at hsteps ⊢
  exact runAlone_commit hcommits

theorem open_commit {call : Call} (hsite : sites s) (hbegun : trail.Begun s)
    (hmem : .answered call h2 ∈ trail) (htold : .told utc ∈ trail)
    (hsteps : (scopeAt c r s).openingSteps (s.book h2.now).counters (s.book h2.now).sequence
      ((s.book h2.now).sequence.openEpoch (utc.atOffset c.zone).wholeSecond) = .ok steps) :
    ((scopeAt c r s).commit steps
        ((s.book h2.now).sequence.openEpoch (utc.atOffset c.zone).wholeSecond)).Safe sites
      (Settles c r s .hotDelta) trail := by
  apply Safe.commit (s := s) (paths_openingSteps rfl hsteps)
  · intro h t' horderly hprecedes hcommits
    have hcurrent : ∀ existing record, (s.book h2.now).counters = some existing →
        (s.book h.now).counters = some ⟨record, existing.version⟩ →
          (s.book h.now).counters = some existing :=
      fun _ _ => horderly.counters_of_version (hprecedes.le hmem)
    obtain ⟨hcounters, hclosed, hturns⟩ := opening_turns rfl (horderly.kept s) (horderly.valid s)
      hcurrent hsteps hcommits
    refine ⟨⟨_, hsite, hturns, trivial⟩, ?_⟩
    exact open_explained hserves hfault hdecides hbegun horderly hprecedes htold hcounters hclosed
      hsteps hcommits
  · intro h horderly hprecedes hsame
    exact hbegun.answered hsame

end Open

theorem safe_open (hserves : c.Serves r.datamart s) (hfault : r.command.fault? = none)
    (hcommand : r.command = .openDelta) (hsite : sites s) (hbegun : trail.Begun s) :
    (scopeAt c r s).tryOpen.Safe sites (Settles c r s .hotDelta) trail := by
  have hdecides := decides_open (scopeAt c r s)
  rw [← hcommand] at hdecides
  unfold Scope.tryOpen
  simp only [scopeAt_layout, scopeAt_datamart, Site.layout_hot, Site.layout_counters]
  apply Safe.read Site.suits_hot
  intro h1 horderly1 hprecedes1
  have hbegun1 := hbegun.read (p := s.path .hot) (h := h1)
  cases hhot : h1.now.record? HotDelta (s.path .hot) with
  | some hot =>
      exact Explained.of_read hserves hfault hdecides hbegun horderly1 hprecedes1
        fun time => open_alone_of_open rfl (horderly1.kept s) hhot
  | none =>
      apply Safe.read Site.suits_counters
      intro h2 horderly2 hprecedes2
      have hbegun2 := hbegun1.read (p := s.path .counters) (h := h2)
      apply Safe.localTime
      intro utc
      have hbegun3 := hbegun2.told utc
      have hmem := List.mem_cons_of_mem (.told utc)
        (List.mem_cons_self (a := .answered (.read (s.path .counters).text) h2)
          (l := .answered (.read (s.path .hot).text) h1 :: trail))
      apply Safe.ofExcept
      · intro steps hsteps
        exact open_commit hserves hfault hdecides hsite hbegun3 hmem List.mem_cons_self hsteps
      · intro e hsteps
        obtain ⟨message, existing, rfl, hfound, hfull⟩ :=
          of_openingSteps_error (horderly2.valid s) rfl hsteps
        refine .overflowed hbegun3.1 ⟨s, _, h2, existing, hserves, hmem, hfound, ?_⟩
        rw [hcommand]
        exact hfull

/-! ## Discarding -/

section Clearing

variable {seen : Trail} {entries : List (Versioned WriteOperation)} {call : Call} {h h2 : History}
variable {counters : Versioned Counters}

/-- A scan whose entries are all still there, with the counters unchanged, is the ledger. -/
theorem Scanned.lists (hscanned : Scanned s trail seen entries)
    (hmem : .answered call h2 ∈ trail) (hcounters : (s.book h2.now).counters = some counters)
    (horderly : h.Orderly) (hprecedes : Trail.Precedes (seen ++ trail) h)
    (hcounters' : (s.book h.now).counters = some counters)
    (hholds : Site.Holds (s.book h.now) entries) : (s.book h.now).Lists entries := by
  obtain ⟨-, hpresent⟩ := hholds
  refine ⟨hscanned.increasing, ?_⟩
  have hsound : ∀ entry ∈ entries,
      (s.book h.now).write entry.record.sysCn = some entry := by
    intro entry hentry
    obtain ⟨found, hfound⟩ := hpresent entry hentry
    have hsame := hscanned.eq_of_version horderly hprecedes hentry hfound rfl
    rw [hsame] at hfound
    exact hfound
  intro entry
  constructor
  · exact hsound entry
  · intro hentry
    obtain ⟨found, hfound, hn, _⟩ :=
      hscanned.covers hmem hcounters horderly hprecedes hcounters' hentry
    have hboth := hsound found hfound
    rw [hn, hentry] at hboth
    cases hboth
    exact hfound

theorem Scanned.covered (hscanned : Scanned s trail seen entries)
    (hmem : .answered call h2 ∈ trail) (hcounters : (s.book h2.now).counters = some counters)
    (horderly : h.Orderly) (hprecedes : Trail.Precedes (seen ++ trail) h)
    (hcounters' : (s.book h.now).counters = some counters) :
    Site.Covers (s.book h.now) entries := by
  intro n found hfound
  obtain ⟨entry, hentry, hn, _⟩ :=
    hscanned.covers hmem hcounters horderly hprecedes hcounters' hfound
  exact ⟨entry, hentry, hn⟩

end Clearing

section Discard

variable (hserves : c.Serves r.datamart s) (hfault : r.command.fault? = none)

theorem decides_discard (scope : Scope) :
    Decides scope .discardDelta scope.tryDiscard fun _ => .done :=
  ⟨_, bind_bind _ _ _⟩

theorem paths_deletes (items : List (Path × Nat)) :
    ∀ step ∈ Tree.deletes items, ∃ p : Path, step.path = p.text := by
  intro step hstep
  obtain ⟨item, _, rfl⟩ := List.mem_map.mp hstep
  exact ⟨item.1, rfl⟩

@[simp] theorem scopeAt_deletions (entries : List (Versioned WriteOperation)) :
    (scopeAt c r s).deletions entries = Tree.deletes (s.items entries) :=
  deletions_eq rfl

theorem discard_turns {seen : Trail} {entries : List (Versioned WriteOperation)}
    {call : Call} {h h2 : History} {v : Nat} {counters : Versioned Counters} {t' : Tree}
    (hscanned : Scanned s trail seen entries) (hmem : .answered call h2 ∈ trail)
    (hcounters : (s.book h2.now).counters = some counters)
    (horderly : h.Orderly) (hprecedes : Trail.Precedes (seen ++ trail) h)
    (hcommits : h.now.Commits (.checkAt (s.path .counters).text counters.version ::
      (Tree.deletes (s.items entries) ++ [.deleteAt (s.path .hot).text v])) t') :
    ∃ hot, (s.book h.now).hot = some ⟨hot, v⟩ ∧ (s.book h.now).counters = some counters ∧
      Site.Holds (s.book h.now) entries ∧ s.Turns .discarded h.now t' := by
  have hkept := horderly.kept s
  obtain ⟨⟨record, hcounters'⟩, hholds, ⟨hot, hhot⟩, rfl⟩ :=
    (Site.commits_discarding_iff hkept).mp hcommits
  have hle : h2 ≤ h := hprecedes.le (List.mem_append_right _ hmem)
  replace hcounters' := horderly.counters_of_version hle hcounters hcounters'
  have hcovers := hscanned.covered hmem hcounters horderly hprecedes hcounters'
  exact ⟨hot, hhot, hcounters', hholds, Site.turns_discarding hkept hhot hcounters' hcovers⟩

include hserves hfault

theorem discard_commit {seen : Trail} {entries : List (Versioned WriteOperation)}
    {call : Call} {h2 : History} {hot : Versioned HotDelta} {counters : Versioned Counters}
    (hdecides : Decides (scopeAt c r s) r.command (scopeAt c r s).tryDiscard fun _ => .done)
    (hsite : sites s) (hbegun : trail.Begun s) (hscanned : Scanned s trail seen entries)
    (hmem : .answered call h2 ∈ trail) (hcounters : (s.book h2.now).counters = some counters) :
    ((scopeAt c r s).commit
        (.checkAt (s.path .counters).text counters.version ::
          (Tree.deletes (s.items entries) ++ [.deleteAt (s.path .hot).text hot.version]))
        (hot.record.deltaNum, entries.length)).Safe sites (Settles c r s fun _ => .done)
      (seen ++ trail) := by
  have hbegun' := hbegun.append hscanned.quiet
  apply Safe.commit (s := s)
  · simp only [List.forall_mem_cons, List.forall_mem_append]
    exact ⟨⟨s.path .counters, rfl⟩, paths_deletes _, ⟨s.path .hot, rfl⟩, nofun⟩
  · intro h t' horderly hprecedes hcommits
    have hkept := horderly.kept s
    obtain ⟨hot', hhot', hcounters', hholds, hturns⟩ :=
      discard_turns hscanned hmem hcounters horderly hprecedes hcommits
    refine ⟨⟨.discarded, hsite, hturns, trivial⟩, ?_⟩
    apply Explained.of_timeless_commit (a := (hot'.deltaNum, entries.length)) hserves hfault hdecides
      hbegun' horderly hprecedes hcommits
    intro time
    have hlayout : (scopeAt c r s).layout = s.layout := rfl
    obtain ⟨entries', hlists, hrun⟩ :=
      discard_alone_of_open time hlayout hkept (horderly.valid s) hhot' hcounters'
    obtain rfl := hlists.unique
      (hscanned.lists hmem hcounters horderly hprecedes hcounters' hholds)
    rw [hrun]
    exact runAlone_commit hcommits
  · intro h horderly hprecedes hsame
    exact hbegun'.answered hsame

theorem safe_discard
    (hdecides : Decides (scopeAt c r s) r.command (scopeAt c r s).tryDiscard fun _ => .done)
    (hsite : sites s) (hbegun : trail.Begun s) :
    (scopeAt c r s).tryDiscard.Safe sites (Settles c r s fun _ => .done) trail := by
  unfold Scope.tryDiscard
  simp only [scopeAt_layout, Site.layout_hot, Site.layout_counters, scopeAt_deletions,
    List.cons_append]
  apply Safe.hot (s := s) rfl
  · intro h horderly hprecedes hhot
    exact Explained.of_read hserves hfault hdecides hbegun horderly hprecedes
      fun time => discard_alone_of_closed rfl (horderly.kept s) hhot
  · intro h1 hot horderly1 hprecedes1 hhot
    have hbegun1 := hbegun.read (p := s.path .hot) (h := h1)
    apply Safe.counters_after (s := s) rfl horderly1 hhot
    intro h2 counters horderly2 hprecedes2 hcounters
    apply Safe.ledger (s := s) rfl
    intro seen entries hscanned
    exact discard_commit hserves hfault hdecides hsite (hbegun1.read (p := s.path .counters))
      hscanned List.mem_cons_self hcounters

end Discard

/-! ## Marking and committing -/

theorem decides_mark (scope : Scope) (n : Int) :
    Decides scope (.failDelta n) (scope.tryFail n) fun _ => .done :=
  ⟨_, bind_bind _ _ _⟩

theorem decides_promote (scope : Scope) (date : DateTime) :
    Decides scope (.commitDelta (some date)) (scope.tryCommit date.wholeSecond) fun _ => .done := by
  have hbind := bind_bind (scope.persist (scope.tryCommit date.wholeSecond))
    (fun ok => Program.log (.committed ok)) fun _ => (pure .done : Program Failure Response)
  exact ⟨_, hbind⟩

/-- The date of a commit is the local time if none is given. -/
theorem perform_commitDelta_none (scope : Scope) :
    scope.perform (.commitDelta none) =
      scope.localTime >>= fun date => scope.perform (.commitDelta (some date)) :=
  bind_bind _ _ _

section Ending

variable {n : Int} {date : DateTime}

theorem path_counters_ne_hot : (s.path .counters).text ≠ (s.path .hot).text := by
  intro hsame
  exact absurd (Site.path_injective (text_injective hsame)) (by simp)

theorem path_ok_ne_hot : (s.path (.ok n)).text ≠ (s.path .hot).text := by
  intro hsame
  exact absurd (Site.path_injective (text_injective hsame)) (by simp)

theorem mark_turns {h : History} {view : HotDelta} {v w : Nat} {payload : List UInt8} {t' : Tree}
    (horderly : h.Orderly) (hencode : Stored.encode (view.failedAt n) = .ok payload)
    (hcommits : h.now.Commits [.checkAt (s.path .counters).text v,
      .writeAt (s.path .hot).text w payload] t') :
    ∃ hot, (s.book h.now).hot = some ⟨hot, w⟩ ∧ s.Turns (.marked view n) h.now t' := by
  have hkept := horderly.kept s
  obtain ⟨⟨counters, hcounters⟩, ⟨hot, hhot⟩, rfl⟩ :=
    (Site.commits_marking_iff hkept).mp hcommits
  exact ⟨hot, hhot, Site.turns_marking hkept hhot hcounters hencode⟩

theorem pending_eq_nil_iff {entries : List (Versioned WriteOperation)} :
    Scope.pending entries = [] ↔ ∀ entry ∈ entries, entry.record.status ≠ .inProgress := by
  unfold Scope.pending
  simp only [List.map_eq_nil_iff, List.filter_eq_nil_iff, Bool.not_eq_true',
    WriteStatus.isTerminal_eq_false_iff]

section Committing

variable {scope : Scope} {hot : Versioned HotDelta} {counters : Versioned Counters}
variable {entries : List (Versioned WriteOperation)} {ok : OkDelta} {steps : List Step}

variable (scope hot counters entries) in
theorem exists_commitSteps (hnext : Stored.Writable (counters.record.afterClose hot.record))
    (hok : Stored.Writable ok) : ∃ steps, scope.commitSteps hot counters entries ok = .ok steps := by
  obtain ⟨next, hencode⟩ := hnext
  obtain ⟨payload, hencode'⟩ := hok
  unfold Scope.commitSteps
  rw [hencode, hencode']
  exact ⟨_, rfl⟩

theorem of_commitSteps (hlayout : scope.layout = s.layout)
    (hsteps : scope.commitSteps hot counters entries ok = .ok steps) :
    ∃ next payload, Stored.encode (counters.record.afterClose hot.record) = .ok next ∧
      Stored.encode ok = .ok payload ∧
      steps = .writeAt (s.path .counters).text counters.version next ::
        (Tree.deletes (s.items entries) ++ [.deleteAt (s.path .hot).text hot.version,
          .create (s.path (.ok ok.deltaNum)).text payload]) := by
  unfold Scope.commitSteps at hsteps
  simp only [hlayout, deletions_eq hlayout, Site.layout_counters, Site.layout_hot,
    Site.layout_okDelta, List.cons_append] at hsteps
  cases hencode : Stored.encode (counters.record.afterClose hot.record) with
  | error e =>
      rw [hencode] at hsteps
      cases hsteps
  | ok next =>
      cases hencode' : Stored.encode ok with
      | error e =>
          rw [hencode, hencode'] at hsteps
          cases hsteps
      | ok payload =>
          rw [hencode, hencode'] at hsteps
          cases hsteps
          exact ⟨next, payload, rfl, rfl, rfl⟩

end Committing

/-- The epoch that a commit ends has the number of the one that was read, and started
no earlier. -/
theorem of_promotable {view : Versioned HotDelta} {counters : Versioned Counters} {h1 h : History}
    {hot : HotDelta} (horderly : h.Orderly) (hle : h1 ≤ h)
    (hview : (s.book h1.now).hot = some view) (hrolling : view.record.rollingBack = false)
    (hhot : (s.book h.now).hot = some ⟨hot, view.version⟩)
    (hcounters : (s.book h.now).counters = some counters)
    (hok : (s.book h.now).ok view.record.deltaNum = none) :
    hot.rollingBack = false ∧ view.record.deltaNum = counters.record.nextDeltaNum ∧
      view.record.cnFrom ≤ hot.cnFrom := by
  have hvalid1 := (horderly.of_le hle).valid s
  have hvalid := horderly.valid s
  have hleads := horderly.leads hle s
  have hsequence := Book.sequence_of_counters hcounters
  have hrolling' := horderly.unmarked_of_version hle hview hrolling hhot
  refine ⟨hrolling', ?_, ?_⟩
  · -- The number was the next one, and it is still free.
    have hnum := (hvalid1.current view hview hrolling).1
    have hnonneg := hvalid1.nonneg.2
    have hle' := hleads.nextDeltaNum
    have hfree : ¬(0 ≤ view.record.deltaNum ∧
        view.record.deltaNum < (s.book h.now).sequence.nextDeltaNum) := by
      rw [← hvalid.numbered]
      rintro ⟨ok, hfound⟩
      rw [hok] at hfound
      cases hfound
    rw [hsequence] at hle' hfree
    omega
  · have hstart := hleads.start
    rw [Book.start_of_unmarked hview hrolling, Book.start_of_unmarked hhot hrolling'] at hstart
    exact hstart

theorem promote_turns {seen : Trail} {entries : List (Versioned WriteOperation)}
    {call : Call} {h h1 h2 : History} {view : Versioned HotDelta} {counters : Versioned Counters}
    {next payload : List UInt8} {t' : Tree} (hscanned : Scanned s trail seen entries)
    (hview : (s.book h1.now).hot = some view) (hrolling : view.record.rollingBack = false)
    (hle : h1 ≤ h) (hmem : .answered call h2 ∈ trail)
    (hcounters : (s.book h2.now).counters = some counters) (hpending : Scope.pending entries = [])
    (hencode : Stored.encode (counters.record.afterClose view.record) = .ok next)
    (hencode' : Stored.encode (counters.record.close view.record date) = .ok payload)
    (horderly : h.Orderly) (hprecedes : Trail.Precedes (seen ++ trail) h)
    (hcommits : h.now.Commits (.writeAt (s.path .counters).text counters.version next ::
      (Tree.deletes (s.items entries) ++ [.deleteAt (s.path .hot).text view.version,
        .create (s.path (.ok view.record.deltaNum)).text payload])) t') :
    ∃ hot, (s.book h.now).hot = some ⟨hot, view.version⟩ ∧
      (s.book h.now).counters = some counters ∧ s.Turns (.promoted view.record date) h.now t' := by
  have hkept := horderly.kept s
  obtain ⟨⟨record, hcounters'⟩, hholds, ⟨hot, hhot⟩, hok, rfl⟩ :=
    (Site.commits_promoting_iff hkept hencode).mp hcommits
  have hle2 : h2 ≤ h := hprecedes.le (List.mem_append_right _ hmem)
  replace hcounters' := horderly.counters_of_version hle2 hcounters hcounters'
  obtain ⟨hrolling', hnum, hfrom⟩ :=
    of_promotable horderly hle hview hrolling hhot hcounters' hok
  have hfinished : ∀ n entry, (s.book h.now).write n = some entry →
      entry.record.status ≠ .inProgress := by
    intro n entry hentry hprogress
    have hlisted := hscanned.mem_of_inProgress hmem hcounters horderly hprecedes hcounters'
      hentry hprogress
    exact pending_eq_nil_iff.mp hpending entry hlisted hprogress
  have hcovers := hscanned.covered hmem hcounters horderly hprecedes hcounters'
  have hturns := Site.turns_promoting hkept hhot hcounters' hcovers hrolling' hfinished hnum
    hfrom hencode hencode'
  exact ⟨hot, hhot, hcounters', hturns⟩

end Ending

end Attempts

end DeltaLedger
