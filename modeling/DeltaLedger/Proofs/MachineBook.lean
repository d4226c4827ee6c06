import DeltaLedger.Proofs.AttemptsAlone
import DeltaLedger.Proofs.SequentialMachine

/-!
# The machine in the book

A book reflects a machine when it has the same records, whatever their versions.  What
the machine looks up the book has at the same number, the scan of the ledger gives the
ledger of the machine, and every move of the book is the change that the machine makes.
-/

namespace DeltaLedger

/-- The counters of a machine. -/
def Machine.counters (m : Machine) : Counters :=
  ⟨m.nextCn, if m.oks = [] then none else some (m.oks.length - 1)⟩

/-- What a move of the book is to the machine. -/
def Machine.moved (m : Machine) : Move → Machine
  | .opened now => { m with hot := some ⟨m.oks.length, now, m.nextCn, false, none⟩ }
  | .registered datamart r => m.registered datamart r
  | .finished n status => m.finished n status
  | .withdrawn n => m.withdrawn n
  | .marked view n => { m with hot := some { view with rollingBack := true, failedCn := some n } }
  | .discarded => { m with hot := none, ledger := [] }
  | .promoted view date => m.committed view date

/-- A move that carries a view carries the open epoch. -/
def Machine.Sees (m : Machine) : Move → Prop
  | .marked view _ => m.hot = some view
  | .promoted view _ => m.hot = some view
  | _ => True

/-- A book with the records of a machine. -/
structure Book.Reflects (b : Book) (m : Machine) : Prop where
  hot : b.hot.map Versioned.record = m.hot
  sequence : b.sequence = m.counters
  ok : ∀ n, (b.ok n).map Versioned.record = m.ok? n
  write : ∀ w, (b.write w.sysCn).map Versioned.record = some w ↔ w ∈ m.ledger
  sorted : m.ledger.Pairwise fun a b => a.sysCn < b.sysCn
  /-- The open epoch is the next one to be committed, marked or not. -/
  next : ∀ hot, m.hot = some hot → hot.deltaNum = m.oks.length ∧ 0 ≤ hot.cnFrom ∧ hot.cnFrom ≤ m.nextCn

namespace Machine

variable {m : Machine}

theorem nextDeltaNum_counters : m.counters.nextDeltaNum = m.oks.length := by
  unfold counters Counters.nextDeltaNum
  by_cases hnone : m.oks = []
  · simp [hnone]
  · rw [if_neg hnone]
    dsimp only
    omega

theorem entry?_eq_some_iff (hsorted : m.ledger.Pairwise fun a b => a.sysCn < b.sysCn)
    {n : Int} {w : WriteOperation} : m.entry? n = some w ↔ w ∈ m.ledger ∧ w.sysCn = n := by
  unfold entry?
  generalize m.ledger = ledger at hsorted
  induction ledger with
  | nil => simp
  | cons a ledger ih =>
      obtain ⟨hhead, htail⟩ := List.pairwise_cons.mp hsorted
      have ih := ih htail
      by_cases ha : a.sysCn = n
      · rw [List.find?_cons_of_pos (by simp [ha])]
        constructor
        · intro hsome
          cases hsome
          exact ⟨List.mem_cons_self, ha⟩
        · intro hboth
          obtain ⟨hmem, hn⟩ := hboth
          rcases List.mem_cons.mp hmem with rfl | hmem
          · rfl
          · have hlt := hhead w hmem
            omega
      · rw [List.find?_cons_of_neg (by simp [ha]), ih]
        constructor
        · intro hboth
          exact ⟨List.mem_cons_of_mem _ hboth.1, hboth.2⟩
        · intro hboth
          obtain ⟨hmem, hn⟩ := hboth
          rcases List.mem_cons.mp hmem with rfl | hmem
          · exact absurd hn ha
          · exact ⟨hmem, hn⟩

end Machine

namespace Book

theorem reflects_blank : blank.Reflects .initial where
  hot := rfl
  sequence := rfl
  ok n := by simp [blank, Machine.ok?, Machine.initial]
  write w := by simp [blank, Machine.initial]
  sorted := .nil
  next _ hhot := by cases hhot

namespace Reflects

variable {b : Book} {m : Machine}

theorem hot_eq_none_iff (h : b.Reflects m) : b.hot = none ↔ m.hot = none := by
  rw [← h.hot, Option.map_eq_none_iff]

theorem counters_eq {counters : Versioned Counters} (h : b.Reflects m)
    (hcounters : b.counters = some counters) : counters.record = m.counters := by
  rw [← sequence_of_counters hcounters, h.sequence]

theorem exists_hot (h : b.Reflects m) {hot : HotDelta} (hhot : m.hot = some hot) :
    ∃ version, b.hot = some ⟨hot, version⟩ := by
  rw [← h.hot] at hhot
  obtain ⟨found, hfound, rfl⟩ := Option.map_eq_some_iff.mp hhot
  exact ⟨found.version, hfound⟩

theorem entry (h : b.Reflects m) (hvalid : b.Valid) (n : Int) :
    (b.write n).map Versioned.record = m.entry? n := by
  cases hentry : m.entry? n with
  | some w =>
      obtain ⟨hmem, rfl⟩ := (Machine.entry?_eq_some_iff h.sorted).mp hentry
      exact (h.write w).mpr hmem
  | none =>
      cases hfound : b.write n with
      | none => rfl
      | some found =>
          have hn := (hvalid.issued n found hfound).1
          have hmem : found.record ∈ m.ledger := by
            rw [← h.write, hn, hfound]
            rfl
          have hsome := (Machine.entry?_eq_some_iff h.sorted).mpr ⟨hmem, hn⟩
          rw [hentry] at hsome
          cases hsome

theorem ledger_eq (h : b.Reflects m) {entries : List (Versioned WriteOperation)}
    (hlists : b.Lists entries) : entries.map Versioned.record = m.ledger := by
  obtain ⟨hsorted, hmem⟩ := hlists
  apply eq_of_increasing (List.pairwise_map.mpr hsorted) h.sorted
  intro w
  rw [← h.write, List.mem_map, Option.map_eq_some_iff]
  constructor
  · rintro ⟨entry, hentry, rfl⟩
    exact ⟨entry, (hmem entry).mp hentry, rfl⟩
  · rintro ⟨entry, hentry, rfl⟩
    exact ⟨entry, (hmem entry).mpr hentry, rfl⟩

/-! ## Every move is a change of the machine -/

section Moves

variable {hot : Versioned HotDelta} {counters : Versioned Counters}

theorem opened {now : DateTime} (h : b.Reflects m) (hvalid : b.Valid) :
    Reflects
      { b with
        counters := some (b.counters.getD ⟨.fresh, 0⟩)
        hot := some ⟨b.sequence.openEpoch now, 0⟩ }
      { m with hot := some ⟨m.oks.length, now, m.nextCn, false, none⟩ } where
  hot := by
    change some (b.sequence.openEpoch now) = _
    rw [h.sequence, Counters.openEpoch, Machine.nextDeltaNum_counters]
    rfl
  sequence := (sequence_opened b).trans h.sequence
  ok := h.ok
  write := h.write
  sorted := h.sorted
  next found hfound := by
    cases hfound
    have hnonneg := hvalid.nonneg.1
    rw [h.sequence] at hnonneg
    exact ⟨rfl, hnonneg, Int.le_refl _⟩

/-- The entries of a book in which one number was written. -/
theorem write_withWrite_iff {n : Int} {after : Option (Versioned WriteOperation)}
    {w : WriteOperation} (h : b.Reflects m) :
    ((b.withWrite n after).write w.sysCn).map Versioned.record = some w ↔
      (w.sysCn = n ∧ after.map Versioned.record = some w) ∨ (w.sysCn ≠ n ∧ w ∈ m.ledger) := by
  rw [withWrite_write]
  by_cases hw : w.sysCn = n
  · rw [if_pos hw]
    simp [hw]
  · rw [if_neg hw, h.write]
    simp [hw]

theorem sysCn_lt (h : b.Reflects m) (hvalid : b.Valid) {w : WriteOperation} (hw : w ∈ m.ledger) :
    w.sysCn < m.nextCn := by
  obtain ⟨entry, hentry, rfl⟩ := Option.map_eq_some_iff.mp ((h.write w).mpr hw)
  have hissued := (hvalid.issued _ entry hentry).2.2
  rw [h.sequence] at hissued
  exact hissued

theorem registered {datamart : String} {r : Registration} (h : b.Reflects m) (hvalid : b.Valid)
    (hcounters : b.counters = some counters) :
    Reflects
      ({ b with counters := some ⟨counters.record.issue, counters.version + 1⟩ }.withWrite
        counters.record.nextCn (some ⟨r.entry datamart counters.record.nextCn, 0⟩))
      (m.registered datamart r) := by
  have hsequence := h.counters_eq hcounters
  have hnextCn : counters.record.nextCn = m.nextCn := congrArg Counters.nextCn hsequence
  constructor
  case hot => exact h.hot
  case sequence =>
    change counters.record.issue = _
    rw [hsequence]
    rfl
  case ok => exact h.ok
  case write =>
    intro w
    apply (h.write_withWrite_iff).trans
    rw [hnextCn]
    change _ ↔ w ∈ m.ledger ++ [r.entry datamart m.nextCn]
    rw [List.mem_append, List.mem_singleton, Option.map_some, Option.some.injEq]
    constructor
    · intro hwritten
      rcases hwritten with hnew | hold
      · exact .inr hnew.2.symm
      · exact .inl hold.2
    · intro hlisted
      rcases hlisted with hold | rfl
      · exact .inr ⟨Int.ne_of_lt (h.sysCn_lt hvalid hold), hold⟩
      · exact .inl ⟨rfl, rfl⟩
  case sorted =>
    refine List.pairwise_append.mpr ⟨h.sorted, List.pairwise_singleton _ _, ?_⟩
    intro a ha w hw
    rw [List.mem_singleton.mp hw]
    exact h.sysCn_lt hvalid ha
  case next =>
    intro found hfound
    obtain ⟨hnum, hlow, hhigh⟩ := h.next found hfound
    refine ⟨hnum, hlow, ?_⟩
    change found.cnFrom ≤ m.nextCn + 1
    omega

theorem finished {n : Int} {status : WriteStatus} {entry : Versioned WriteOperation} {version : Nat}
    (h : b.Reflects m) (hvalid : b.Valid) (hentry : b.write n = some entry) :
    (b.withWrite n (some ⟨{ entry.record with status }, version⟩)).Reflects
      (m.finished n status) where
  hot := h.hot
  sequence := h.sequence
  ok := h.ok
  write w := by
    have hn := (hvalid.issued n entry hentry).1
    rw [h.write_withWrite_iff, Option.map_some, Option.some.injEq]
    change _ ↔ w ∈ m.ledger.map _
    rw [List.mem_map]
    constructor
    · intro hwritten
      rcases hwritten with ⟨_, hsame⟩ | ⟨hw, hold⟩
      · refine ⟨entry.record, ?_, ?_⟩
        · rw [← h.write, hn, hentry]
          rfl
        · rw [if_pos hn]
          exact hsame
      · exact ⟨w, hold, if_neg hw⟩
    · intro hlisted
      obtain ⟨found, hfound, rfl⟩ := hlisted
      by_cases hsame : found.sysCn = n
      · have hmine := (h.write found).mpr hfound
        rw [hsame, hentry] at hmine
        cases hmine
        rw [if_pos hsame]
        exact .inl ⟨hsame, rfl⟩
      · rw [if_neg hsame]
        exact .inr ⟨hsame, hfound⟩
  sorted := by
    refine List.pairwise_map.mpr (h.sorted.imp ?_)
    intro x y hlt
    have hkeeps : ∀ w : WriteOperation,
        (if w.sysCn = n then { w with status } else w).sysCn = w.sysCn := by
      intro w
      split <;> rfl
    rw [hkeeps, hkeeps]
    exact hlt
  next := h.next

theorem withdrawn {n : Int} (h : b.Reflects m) : (b.withWrite n none).Reflects (m.withdrawn n) where
  hot := h.hot
  sequence := h.sequence
  ok := h.ok
  write w := by
    rw [h.write_withWrite_iff]
    change _ ↔ w ∈ m.ledger.filter _
    simp [and_comm]
  sorted := h.sorted.filter _
  next := h.next

theorem marked {n : Int} {version : Nat} {view : HotDelta} (h : b.Reflects m)
    (hview : m.hot = some view) :
    Reflects { b with hot := some ⟨view.failedAt n, version⟩ }
      { m with hot := some { view with rollingBack := true, failedCn := some n } } where
  hot := rfl
  sequence := h.sequence
  ok := h.ok
  write := h.write
  sorted := h.sorted
  next found hfound := by
    cases hfound
    exact h.next view hview

theorem cleared (h : b.Reflects m) : b.cleared.Reflects { m with hot := none, ledger := [] } where
  hot := rfl
  sequence := h.sequence
  ok := h.ok
  write w := ⟨nofun, nofun⟩
  sorted := .nil
  next _ hfound := by cases hfound

theorem promoted {view : HotDelta} {date : DateTime} {version : Nat} (h : b.Reflects m)
    (hcounters : b.counters = some counters) (hview : m.hot = some view) :
    Reflects
      { b.cleared with
        counters := some ⟨counters.record.afterClose view, version⟩
        ok := fun n =>
          if n = view.deltaNum then some ⟨counters.record.close view date, 0⟩ else b.ok n }
      (m.committed view date) := by
  have hsequence := h.counters_eq hcounters
  have hnum := (h.next view hview).1
  constructor
  case hot => rfl
  case sequence =>
    change counters.record.afterClose view = _
    rw [hsequence]
    simp [Counters.afterClose, Machine.counters, Machine.committed, hnum]
  case ok =>
    intro n
    change (if n = view.deltaNum then _ else b.ok n).map _ = _
    unfold Machine.ok? Machine.committed
    by_cases hlast : n = view.deltaNum
    · rw [if_pos hlast, if_pos (by omega), hlast, hnum, Int.toNat_natCast,
        List.getElem?_append_right (Nat.le_refl _), Nat.sub_self, Option.map_some, hsequence,
        ← hnum]
      rfl
    · rw [if_neg hlast, h.ok, Machine.ok?]
      split
      next hlow =>
        rcases Nat.lt_or_ge n.toNat m.oks.length with hold | hbeyond
        · rw [List.getElem?_append_left hold]
        · rw [List.getElem?_eq_none hbeyond, List.getElem?_eq_none]
          rw [List.length_append, List.length_singleton]
          omega
      next => rfl
  case write => exact fun w => ⟨nofun, nofun⟩
  case sorted => exact .nil
  case next =>
    intro _ hfound
    cases hfound

end Moves

/-- A book that moves reflects the machine that makes the same move. -/
theorem moved {b' : Book} {move : Move} (h : b.Reflects m) (hvalid : b.Valid)
    (hmoves : b.Moves move b') (hsees : m.Sees move) : b'.Reflects (m.moved move) := by
  cases hmoves with
  | opened => exact h.opened hvalid
  | registered _ hcounters => exact h.registered hvalid hcounters
  | finished _ hentry => exact h.finished hvalid hentry
  | withdrawn => exact h.withdrawn
  | marked => exact h.marked hsees
  | discarded => exact h.cleared
  | promoted _ hcounters => exact h.promoted hcounters hsees

/-! ## Looking things up -/

theorem of_busy?_eq_some {table : String} {w : WriteOperation} (h : b.Reflects m)
    (hbusy : m.busy? table = some w) :
    w.status = .inProgress ∧ w.tableName = table ∧
      ∃ version, b.write w.sysCn = some ⟨w, version⟩ := by
  unfold Machine.busy? at hbusy
  have hboth := List.find?_some hbusy
  rw [decide_eq_true_eq] at hboth
  have hmem := (h.write w).mpr (List.mem_of_find?_eq_some hbusy)
  obtain ⟨entry, hentry, rfl⟩ := Option.map_eq_some_iff.mp hmem
  exact ⟨hboth.2, hboth.1, entry.version, hentry⟩

theorem free_of_busy?_eq_none {table : String} (h : b.Reflects m) (hvalid : b.Valid)
    (hbusy : m.busy? table = none) {n : Int} {entry : Versioned WriteOperation}
    (hentry : b.write n = some entry) (hprogress : entry.record.status = .inProgress) :
    entry.record.tableName ≠ table := by
  have hn := (hvalid.issued n entry hentry).1
  have hmem : entry.record ∈ m.ledger := by
    rw [← h.write, hn, hentry]
    rfl
  unfold Machine.busy? at hbusy
  have hneither := List.find?_eq_none.mp hbusy entry.record hmem
  rw [decide_eq_true_eq] at hneither
  exact fun htable => hneither ⟨htable, hprogress⟩

theorem pending_eq {entries : List (Versioned WriteOperation)} (h : b.Reflects m)
    (hlists : b.Lists entries) : Scope.pending entries = m.pending := by
  have hstatus : ∀ status : WriteStatus,
      (!status.isTerminal) = decide (status = .inProgress) := by
    intro status
    cases status <;> rfl
  unfold Scope.pending Machine.pending
  simp only [← h.ledger_eq hlists, List.filter_map, List.map_map, Function.comp_def, hstatus]

theorem last (h : b.Reflects m) :
    (m.counters.lastDeltaNum.bind b.ok).map Versioned.record = m.oks.getLast? := by
  unfold Machine.counters
  by_cases hnone : m.oks = []
  · simp [hnone]
  · have hlength := List.length_pos_iff.mpr hnone
    have hindex : ((m.oks.length : Int) - 1).toNat = m.oks.length - 1 := by omega
    rw [if_neg hnone, Option.bind_some, h.ok, Machine.ok?, if_pos (by omega), hindex,
      List.getLast?_eq_getElem?]

/-! ## Writing things down -/

section Writable

variable {hot : HotDelta} {date : DateTime} {n : Int}

theorem fits_of_hot (h : b.Reflects m) (hfits : m.Fits) (hhot : m.hot = some hot) :
    Decimal.Fits hot.deltaNum ∧ Decimal.Fits hot.cnFrom := by
  obtain ⟨hnum, hlow, hhigh⟩ := h.next hot hhot
  obtain ⟨⟨_, hmax⟩, hlength⟩ := hfits
  rw [hnum]
  refine ⟨hlength, ?_⟩
  constructor <;> omega

theorem writable_failedAt (h : b.Reflects m) (hfits : m.Fits) (hhot : m.hot = some hot)
    (hn : Decimal.Fits n) : Stored.Writable (hot.failedAt n) := by
  obtain ⟨hnum, hfrom⟩ := h.fits_of_hot hfits hhot
  refine Stored.writable_hot_iff.mpr ⟨hnum, hfrom, ?_⟩
  intro k hk
  cases hk
  exact hn

variable (date) in
theorem writable_close (h : b.Reflects m) (hfits : m.Fits) (hhot : m.hot = some hot) :
    Stored.Writable (m.counters.close hot date) := by
  obtain ⟨hnum, hfrom⟩ := h.fits_of_hot hfits hhot
  refine Stored.writable_ok_iff.mpr ⟨hnum, hfrom, ?_⟩
  obtain ⟨_, hlow, hhigh⟩ := h.next hot hhot
  obtain ⟨⟨_, hmax⟩, _⟩ := hfits
  change Decimal.Fits (max (m.nextCn - 1) (hot.cnFrom - 1))
  constructor <;> omega

theorem writable_afterClose (h : b.Reflects m) (hfits : m.Fits) (hhot : m.hot = some hot) :
    Stored.Writable (m.counters.afterClose hot) := by
  obtain ⟨hnum, _⟩ := h.fits_of_hot hfits hhot
  obtain ⟨_, hlow, hhigh⟩ := h.next hot hhot
  obtain ⟨⟨_, hmax⟩, _⟩ := hfits
  refine Stored.writable_counters_iff.mpr ⟨?_, ?_⟩
  · change Decimal.Fits m.nextCn
    constructor <;> omega
  · intro k hk
    cases hk
    exact hnum

end Writable

end Reflects

end Book

end DeltaLedger
