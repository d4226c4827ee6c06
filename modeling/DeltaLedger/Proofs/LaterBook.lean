import DeltaLedger.Proofs.Book

/-!
# Later books

What a request has read of a book still says something about the book as it is
later.  A book leads to another one when the counters have not fallen, when every
later entry under an old change number comes from an entry that was there, and when
the ok deltas are still there.  The relation is a preorder that contains every
move of a valid book, so it holds between the books of any two moments.
-/

namespace DeltaLedger

/-- An entry as it is later: the same, or finished in the meantime. -/
def WriteOperation.Leads (entry entry' : Versioned WriteOperation) : Prop :=
  entry' = entry ∨ entry.record.status = .inProgress ∧
    ∃ status, status ≠ .inProgress ∧
      entry' = ⟨{ entry.record with status }, entry.version + 1⟩

theorem WriteOperation.Leads.trans {entry entry' entry'' : Versioned WriteOperation}
    (h : Leads entry entry') (h' : Leads entry' entry'') : Leads entry entry'' := by
  rcases h with rfl | ⟨hprogress, status, hstatus, rfl⟩
  · exact h'
  · rcases h' with rfl | ⟨hprogress', _⟩
    · exact .inr ⟨hprogress, status, hstatus, rfl⟩
    · exact absurd hprogress' hstatus

theorem WriteOperation.Leads.eq_of_version {entry entry' : Versioned WriteOperation}
    (h : Leads entry entry') (hversion : entry'.version = entry.version) : entry' = entry := by
  rcases h with rfl | ⟨_, status, _, rfl⟩
  · rfl
  · simp at hversion

theorem WriteOperation.Leads.eq_of_inProgress {entry entry' : Versioned WriteOperation}
    (h : Leads entry entry') (hprogress : entry'.record.status = .inProgress) :
    entry' = entry := by
  rcases h with rfl | ⟨_, status, hstatus, rfl⟩
  · rfl
  · exact absurd hprogress hstatus

namespace Book

/-- One book may be what another one has become. -/
structure Leads (b b' : Book) : Prop where
  counters : ∀ counters, b.counters = some counters → ∃ counters', b'.counters = some counters' ∧
    counters.version ≤ counters'.version ∧
    (counters'.version = counters.version → counters' = counters)
  nextCn : b.sequence.nextCn ≤ b'.sequence.nextCn
  nextDeltaNum : b.sequence.nextDeltaNum ≤ b'.sequence.nextDeltaNum
  write : ∀ n entry', n < b.sequence.nextCn → b'.write n = some entry' →
    ∃ entry, b.write n = some entry ∧ WriteOperation.Leads entry entry'
  start : b.start ≤ b'.start
  ok : ∀ n ok, b.ok n = some ok → b'.ok n = some ok

theorem Leads.refl (b : Book) : b.Leads b where
  counters counters hcounters := ⟨counters, hcounters, Nat.le_refl _, fun _ => rfl⟩
  nextCn := Int.le_refl _
  nextDeltaNum := Int.le_refl _
  write _ entry' _ hentry' := ⟨entry', hentry', .inl rfl⟩
  start := Int.le_refl _
  ok _ _ hok := hok

theorem Leads.trans {b b' b'' : Book} (h : b.Leads b') (h' : b'.Leads b'') : b.Leads b'' where
  counters counters hcounters := by
    obtain ⟨counters', hcounters', hle, hsame⟩ := h.counters counters hcounters
    obtain ⟨counters'', hcounters'', hle', hsame'⟩ := h'.counters counters' hcounters'
    refine ⟨counters'', hcounters'', Nat.le_trans hle hle', ?_⟩
    intro hversion
    have hmiddle : counters'' = counters' := hsame' (by omega)
    subst hmiddle
    exact hsame hversion
  nextCn := Int.le_trans h.nextCn h'.nextCn
  nextDeltaNum := Int.le_trans h.nextDeltaNum h'.nextDeltaNum
  write n entry'' hn hentry'' := by
    obtain ⟨entry', hentry', hleads'⟩ :=
      h'.write n entry'' (Int.lt_of_lt_of_le hn h.nextCn) hentry''
    obtain ⟨entry, hentry, hleads⟩ := h.write n entry' hn hentry'
    exact ⟨entry, hentry, hleads.trans hleads'⟩
  start := Int.le_trans h.start h'.start
  ok n ok hok := h'.ok n ok (h.ok n ok hok)

section Steps

variable {b b' : Book} {m : Move}

theorem leads_opened {now : DateTime} (hclosed : b.hot = none) :
    b.Leads { b with
      counters := some (b.counters.getD ⟨.fresh, 0⟩)
      hot := some ⟨b.sequence.openEpoch now, 0⟩ } where
  counters counters hcounters := by
    refine ⟨counters, ?_, Nat.le_refl _, fun _ => rfl⟩
    rw [hcounters]
    rfl
  nextCn := by
    have hsame := congrArg Counters.nextCn (sequence_opened b)
    exact Int.le_of_eq hsame.symm
  nextDeltaNum := by
    have hsame := congrArg Counters.nextDeltaNum (sequence_opened b)
    exact Int.le_of_eq hsame.symm
  write _ entry' _ hentry' := ⟨entry', hentry', .inl rfl⟩
  start := by
    rw [start_of_closed hclosed]
    exact Int.le_refl _
  ok _ _ hok := hok

theorem leads_registered
    {hot : Versioned HotDelta} {counters : Versioned Counters} {entry : Versioned WriteOperation}
    (hhot : b.hot = some hot) (hcounters : b.counters = some counters)
    (hrolling : hot.record.rollingBack = false) :
    b.Leads ({ b with counters := some ⟨counters.record.issue, counters.version + 1⟩ }.withWrite
      counters.record.nextCn (some entry)) where
  counters found hfound := by
    rw [hcounters] at hfound
    cases hfound
    refine ⟨_, rfl, Nat.le_succ _, ?_⟩
    intro hversion
    exact absurd hversion (Nat.succ_ne_self _)
  nextCn := by
    rw [sequence_of_counters hcounters]
    change _ ≤ counters.record.nextCn + 1
    omega
  nextDeltaNum := by
    rw [sequence_of_counters hcounters]
    exact Int.le_refl _
  write n entry' hn hentry' := by
    rw [sequence_of_counters hcounters] at hn
    rw [withWrite_write, if_neg (by omega)] at hentry'
    exact ⟨entry', hentry', .inl rfl⟩
  start := by
    rw [start_of_unmarked hhot hrolling]
    refine Int.le_of_eq (Eq.symm (start_of_unmarked ?_ hrolling))
    exact hhot
  ok _ _ hok := hok

theorem leads_withWrite
    {sysCn : Int} {entry : Versioned WriteOperation} {after : Option (Versioned WriteOperation)}
    (hentry : b.write sysCn = some entry)
    (hafter : ∀ found, after = some found → WriteOperation.Leads entry found) :
    b.Leads (b.withWrite sysCn after) where
  counters counters hcounters := ⟨counters, hcounters, Nat.le_refl _, fun _ => rfl⟩
  nextCn := Int.le_refl _
  nextDeltaNum := Int.le_refl _
  write n entry' _ hentry' := by
    rw [withWrite_write] at hentry'
    split at hentry'
    next hn => exact ⟨entry, hn ▸ hentry, hafter entry' hentry'⟩
    next => exact ⟨entry', hentry', .inl rfl⟩
  start := Int.le_refl _
  ok _ _ hok := hok

theorem leads_marked
    {view : HotDelta} {sysCn : Int} {hot : Versioned HotDelta} (hvalid : b.Valid) :
    b.Leads { b with hot := some ⟨view.failedAt sysCn, hot.version + 1⟩ } where
  counters counters hcounters := ⟨counters, hcounters, Nat.le_refl _, fun _ => rfl⟩
  nextCn := Int.le_refl _
  nextDeltaNum := Int.le_refl _
  write _ entry' _ hentry' := ⟨entry', hentry', .inl rfl⟩
  start := hvalid.start_le
  ok _ _ hok := hok

theorem leads_cleared (hvalid : b.Valid) : b.Leads b.cleared where
  counters counters hcounters := ⟨counters, hcounters, Nat.le_refl _, fun _ => rfl⟩
  nextCn := Int.le_refl _
  nextDeltaNum := Int.le_refl _
  write := nofun
  start := hvalid.start_le
  ok _ _ hok := hok

theorem leads_promoted
    {view : HotDelta} {date : DateTime} {counters : Versioned Counters}
    (hvalid : b.Valid) (hcounters : b.counters = some counters)
    (hnum : view.deltaNum = counters.record.nextDeltaNum) :
    b.Leads { b.cleared with
      counters := some ⟨counters.record.afterClose view, counters.version + 1⟩
      ok := fun n =>
        if n = view.deltaNum then some ⟨counters.record.close view date, 0⟩ else b.ok n } where
  counters found hfound := by
    rw [hcounters] at hfound
    cases hfound
    refine ⟨_, rfl, Nat.le_succ _, ?_⟩
    intro hversion
    exact absurd hversion (Nat.succ_ne_self _)
  nextCn := by
    rw [sequence_of_counters hcounters]
    exact Int.le_refl _
  nextDeltaNum := by
    rw [sequence_of_counters hcounters]
    change _ ≤ view.deltaNum + 1
    omega
  write := nofun
  start := by
    have hstart := hvalid.start_le
    rw [sequence_of_counters hcounters] at hstart
    exact hstart
  ok n ok hok := by
    -- The number is taken from the counters, and all numbers in use are below it.
    have hbelow := ((hvalid.numbered n).mp ⟨ok, hok⟩).2
    rw [sequence_of_counters hcounters] at hbelow
    change (if n = view.deltaNum then _ else _) = _
    rw [if_neg (by omega)]
    exact hok

theorem Leads.of_moves (hvalid : b.Valid) (hmoves : b.Moves m b') : b.Leads b' := by
  cases hmoves with
  | opened hclosed => exact leads_opened hclosed
  | registered hhot hcounters hrolling => exact leads_registered hhot hcounters hrolling
  | finished _ hentry hprogress hstatus =>
      apply leads_withWrite hentry
      intro found hfound
      cases hfound
      exact .inr ⟨hprogress, _, hstatus, rfl⟩
  | withdrawn _ hentry => exact leads_withWrite hentry nofun
  | marked => exact leads_marked hvalid
  | discarded => exact leads_cleared hvalid
  | promoted _ hcounters _ _ hnum => exact leads_promoted hvalid hcounters hnum

end Steps

section Views

variable {b b' : Book}

/-- The counters that are still at the version they were read with are those that
were read. -/
theorem Leads.counters_eq {counters counters' : Versioned Counters} (h : b.Leads b')
    (hcounters : b.counters = some counters) (hcounters' : b'.counters = some counters')
    (hversion : counters'.version = counters.version) : counters' = counters := by
  obtain ⟨found, hfound, _, hsame⟩ := h.counters counters hcounters
  rw [hcounters'] at hfound
  cases hfound
  exact hsame hversion

theorem Leads.write_eq
    {n : Int} {entry entry' : Versioned WriteOperation}
    (h : b.Leads b') (hvalid : b.Valid)
    (hentry : b.write n = some entry) (hentry' : b'.write n = some entry')
    (hversion : entry'.version = entry.version) : entry' = entry := by
  have hn := (hvalid.issued n entry hentry).2.2
  obtain ⟨found, hfound, hleads⟩ := h.write n entry' hn hentry'
  rw [hentry] at hfound
  cases hfound
  exact hleads.eq_of_version hversion

/-- An ok delta with a number that was taken already has been there since. -/
theorem Leads.ok_of_lt {n : Int} {ok : Versioned OkDelta} (h : b.Leads b') (hvalid : b.Valid)
    (hvalid' : b'.Valid) (hn : n < b.sequence.nextDeltaNum) (hok : b'.ok n = some ok) :
    b.ok n = some ok := by
  have hlow := ((hvalid'.numbered n).mp ⟨ok, hok⟩).1
  obtain ⟨found, hfound⟩ := (hvalid.numbered n).mpr ⟨hlow, hn⟩
  have hsame := h.ok n found hfound
  rw [hok] at hsame
  cases hsame
  exact hfound

end Views

end Book
end DeltaLedger
