import DeltaLedger.Coordinator.Scope

/-!
# Books

The book of a datamart is what it keeps, without the tree that it is kept in: the
counters, the hot delta, the ok deltas and the ledger, each record with the
version of its node.  A book changes by seven kinds of moves, one for every way in
which a transaction of a request can commit.

Two things are said about moves.  Every one keeps a book valid; in particular the
entries in progress are for different tables.  And every one leads to a later
book, in which the counters have not fallen, the same version of the counters
means the same counters, and every old entry is one that was there before.

Marking and promoting write what the request read of the hot delta, which need not
be the hot delta that is there when they commit.  This is the `view` they carry.
-/

namespace DeltaLedger

structure Book where
  counters : Option (Versioned Counters)
  hot : Option (Versioned HotDelta)
  ok : Int → Option (Versioned OkDelta)
  write : Int → Option (Versioned WriteOperation)

/-- The ways in which a book changes. -/
inductive Move where
  | opened (now : DateTime)
  | registered (datamart : String) (r : Registration)
  | finished (sysCn : Int) (status : WriteStatus)
  | withdrawn (sysCn : Int)
  | marked (view : HotDelta) (sysCn : Int)
  | discarded
  | promoted (view : HotDelta) (date : DateTime)

namespace Book

@[ext] theorem ext {b b' : Book} (hcounters : b.counters = b'.counters) (hhot : b.hot = b'.hot)
    (hok : ∀ n, b.ok n = b'.ok n) (hwrite : ∀ n, b.write n = b'.write n) : b = b' := by
  cases b
  cases b'
  cases hcounters
  cases hhot
  cases funext hok
  cases funext hwrite
  rfl

/-- The counters, which start fresh. -/
def sequence (b : Book) : Counters :=
  (b.counters.map Versioned.record).getD .fresh

theorem sequence_of_counters {b : Book} {counters : Versioned Counters}
    (hcounters : b.counters = some counters) : b.sequence = counters.record := by
  simp [sequence, hcounters]

/-- The book with another entry, or none, for a change number. -/
def withWrite (b : Book) (sysCn : Int) (entry : Option (Versioned WriteOperation)) : Book :=
  { b with write := fun n => if n = sysCn then entry else b.write n }

/-- The book after its epoch ended. -/
def cleared (b : Book) : Book :=
  { b with hot := none, write := fun _ => none }

/-- The first change number of the epoch that is open, or else of the next one.
A marked epoch counts as over. -/
def start (b : Book) : Int :=
  match b.hot with
  | some hot => if hot.record.rollingBack then b.sequence.nextCn else hot.record.cnFrom
  | none => b.sequence.nextCn

/-- One book is made from another by a move. -/
inductive Moves (b : Book) : Move → Book → Prop where
  | opened {now : DateTime} (hclosed : b.hot = none) :
      b.Moves (.opened now)
        { b with
          counters := some (b.counters.getD ⟨.fresh, 0⟩)
          hot := some ⟨b.sequence.openEpoch now, 0⟩ }
  | registered {datamart : String} {r : Registration}
      {hot : Versioned HotDelta} {counters : Versioned Counters}
      (hhot : b.hot = some hot) (hcounters : b.counters = some counters)
      (hrolling : hot.record.rollingBack = false)
      (hfree : ∀ n entry, b.write n = some entry →
        entry.record.status = .inProgress → entry.record.tableName ≠ r.tableName)
      (hfits : Decimal.Fits (counters.record.nextCn + 1)) :
      b.Moves (.registered datamart r)
        ({ b with counters := some ⟨counters.record.issue, counters.version + 1⟩ }.withWrite
          counters.record.nextCn (some ⟨r.entry datamart counters.record.nextCn, 0⟩))
  | finished {sysCn : Int} {status : WriteStatus}
      {hot : Versioned HotDelta} {entry : Versioned WriteOperation}
      (hhot : b.hot = some hot) (hentry : b.write sysCn = some entry)
      (hprogress : entry.record.status = .inProgress) (hstatus : status ≠ .inProgress) :
      b.Moves (.finished sysCn status)
        (b.withWrite sysCn (some ⟨{ entry.record with status }, entry.version + 1⟩))
  | withdrawn {sysCn : Int} {hot : Versioned HotDelta} {entry : Versioned WriteOperation}
      (hhot : b.hot = some hot) (hentry : b.write sysCn = some entry) :
      b.Moves (.withdrawn sysCn) (b.withWrite sysCn none)
  | marked {view : HotDelta} {sysCn : Int}
      {hot : Versioned HotDelta} {counters : Versioned Counters}
      (hhot : b.hot = some hot) (hcounters : b.counters = some counters) :
      b.Moves (.marked view sysCn) { b with hot := some ⟨view.failedAt sysCn, hot.version + 1⟩ }
  | discarded {hot : Versioned HotDelta} {counters : Versioned Counters}
      (hhot : b.hot = some hot) (hcounters : b.counters = some counters) :
      b.Moves .discarded b.cleared
  | promoted {view : HotDelta} {date : DateTime}
      {hot : Versioned HotDelta} {counters : Versioned Counters}
      (hhot : b.hot = some hot) (hcounters : b.counters = some counters)
      (hrolling : hot.record.rollingBack = false)
      (hfinished : ∀ n entry, b.write n = some entry → entry.record.status ≠ .inProgress)
      (hnum : view.deltaNum = counters.record.nextDeltaNum)
      (hfrom : view.cnFrom ≤ hot.record.cnFrom)
      (hfits : Decimal.Fits view.deltaNum) :
      b.Moves (.promoted view date)
        { b.cleared with
          counters := some ⟨counters.record.afterClose view, counters.version + 1⟩
          ok := fun n =>
            if n = view.deltaNum then some ⟨counters.record.close view date, 0⟩ else b.ok n }

/-- What holds of every book that requests keep. -/
structure Valid (b : Book) : Prop where
  /-- Before the first epoch there is nothing. -/
  bare : b.counters = none → b.hot = none ∧ ∀ n, b.ok n = none
  nonneg : 0 ≤ b.sequence.nextCn ∧ 0 ≤ b.sequence.nextDeltaNum
  bounded : Decimal.Fits b.sequence.nextCn ∧
    ∀ n, b.sequence.lastDeltaNum = some n → Decimal.Fits n
  last : ∀ n, b.sequence.lastDeltaNum = some n → 0 ≤ n
  /-- A hot delta is written only to mark it. -/
  unwritten : ∀ hot, b.hot = some hot → (hot.version = 0 ↔ hot.record.rollingBack = false)
  /-- An epoch that is not marked is the next to be committed. -/
  current : ∀ hot, b.hot = some hot → hot.record.rollingBack = false →
    hot.record.deltaNum = b.sequence.nextDeltaNum ∧ hot.record.cnFrom ≤ b.sequence.nextCn
  /-- The ledger is empty while no epoch is open. -/
  closed : b.hot = none → ∀ n, b.write n = none
  issued : ∀ n entry, b.write n = some entry →
    entry.record.sysCn = n ∧ 0 ≤ n ∧ n < b.sequence.nextCn
  /-- A table has at most one entry in progress. -/
  exclusive : ∀ m n entry entry', b.write m = some entry → b.write n = some entry' →
    entry.record.status = .inProgress → entry'.record.status = .inProgress →
    entry.record.tableName = entry'.record.tableName → m = n
  /-- The ok deltas are numbered from zero without gaps. -/
  numbered : ∀ n, (∃ ok, b.ok n = some ok) ↔ 0 ≤ n ∧ n < b.sequence.nextDeltaNum

def blank : Book :=
  ⟨none, none, fun _ => none, fun _ => none⟩

theorem valid_blank : blank.Valid where
  bare _ := ⟨rfl, fun _ => rfl⟩
  nonneg := by decide
  bounded := by
    refine ⟨by decide, ?_⟩
    intro n hlast
    cases hlast
  last _ hlast := by cases hlast
  unwritten _ hhot := by cases hhot
  current _ hhot := by cases hhot
  closed _ _ := rfl
  issued _ _ hentry := by cases hentry
  exclusive _ _ _ _ hentry := by cases hentry
  numbered n := by
    have hnone : ¬(0 ≤ n ∧ n < blank.sequence.nextDeltaNum) := by
      have hzero : blank.sequence.nextDeltaNum = 0 := rfl
      omega
    simpa [blank] using hnone

section Small

variable {b : Book} {sysCn n : Int} {entry : Option (Versioned WriteOperation)}

@[simp] theorem withWrite_counters : (b.withWrite sysCn entry).counters = b.counters := rfl

@[simp] theorem withWrite_hot : (b.withWrite sysCn entry).hot = b.hot := rfl

@[simp] theorem withWrite_ok : (b.withWrite sysCn entry).ok = b.ok := rfl

@[simp] theorem withWrite_sequence : (b.withWrite sysCn entry).sequence = b.sequence := rfl

theorem withWrite_write :
    (b.withWrite sysCn entry).write n = if n = sysCn then entry else b.write n := rfl

@[simp] theorem cleared_counters : b.cleared.counters = b.counters := rfl

@[simp] theorem cleared_hot : b.cleared.hot = none := rfl

@[simp] theorem cleared_ok : b.cleared.ok = b.ok := rfl

@[simp] theorem cleared_write : b.cleared.write n = none := rfl

@[simp] theorem cleared_sequence : b.cleared.sequence = b.sequence := rfl

theorem start_of_closed (hclosed : b.hot = none) : b.start = b.sequence.nextCn := by
  simp [start, hclosed]

theorem start_of_unmarked {hot : Versioned HotDelta} (hhot : b.hot = some hot)
    (hrolling : hot.record.rollingBack = false) : b.start = hot.record.cnFrom := by
  simp [start, hhot, hrolling]

end Small

namespace Valid

variable {b : Book}

theorem counters_of_hot (hvalid : b.Valid) {hot : Versioned HotDelta} (hhot : b.hot = some hot) :
    ∃ counters, b.counters = some counters := by
  cases hcounters : b.counters with
  | none =>
      have hnone := (hvalid.bare hcounters).1
      rw [hhot] at hnone
      cases hnone
  | some counters => exact ⟨counters, rfl⟩

theorem hot_of_write (hvalid : b.Valid) {n : Int} {entry : Versioned WriteOperation}
    (hentry : b.write n = some entry) : ∃ hot, b.hot = some hot := by
  cases hhot : b.hot with
  | none =>
      rw [hvalid.closed hhot n] at hentry
      cases hentry
  | some hot => exact ⟨hot, rfl⟩

theorem fits_of_write (hvalid : b.Valid) {n : Int} {entry : Versioned WriteOperation}
    (hentry : b.write n = some entry) : Decimal.Fits n := by
  obtain ⟨_, hlow, hhigh⟩ := hvalid.issued n entry hentry
  obtain ⟨⟨_, hmax⟩, _⟩ := hvalid.bounded
  constructor <;> omega

theorem write_nextCn (hvalid : b.Valid) : b.write b.sequence.nextCn = none := by
  cases hentry : b.write b.sequence.nextCn with
  | none => rfl
  | some entry =>
      have hissued := (hvalid.issued _ entry hentry).2.2
      exact absurd hissued (Int.lt_irrefl _)

theorem fits_of_ok (hvalid : b.Valid) {n : Int} {ok : Versioned OkDelta}
    (hok : b.ok n = some ok) : Decimal.Fits n := by
  obtain ⟨hlow, hhigh⟩ := (hvalid.numbered n).mp ⟨ok, hok⟩
  unfold Counters.nextDeltaNum at hhigh
  cases hlast : b.sequence.lastDeltaNum with
  | none =>
      rw [hlast] at hhigh
      exact absurd hhigh (Int.not_lt.mpr hlow)
  | some last =>
      rw [hlast] at hhigh
      obtain ⟨_, hmax⟩ := hvalid.bounded.2 last hlast
      dsimp only at hhigh
      constructor <;> omega

theorem start_le (hvalid : b.Valid) : b.start ≤ b.sequence.nextCn := by
  unfold start
  split
  next hot hhot =>
    split
    · exact Int.le_refl _
    next hrolling => exact (hvalid.current hot hhot (by simpa using hrolling)).2
  next => exact Int.le_refl _

end Valid

/-! ## Every move keeps a book valid -/

section Kept

variable {b b' : Book} {m : Move}

theorem sequence_opened (b : Book) : (b.counters.getD ⟨.fresh, 0⟩).record = b.sequence := by
  cases hcounters : b.counters <;> simp [sequence, hcounters]

theorem Valid.opened {now : DateTime} (hvalid : b.Valid) :
    Valid { b with
      counters := some (b.counters.getD ⟨.fresh, 0⟩)
      hot := some ⟨b.sequence.openEpoch now, 0⟩ } := by
  have hsequence : ({ b with
      counters := some (b.counters.getD ⟨.fresh, 0⟩)
      hot := some ⟨b.sequence.openEpoch now, 0⟩ } : Book).sequence = b.sequence :=
    sequence_opened b
  constructor
  case bare => nofun
  case nonneg =>
    rw [hsequence]
    exact hvalid.nonneg
  case bounded =>
    rw [hsequence]
    exact hvalid.bounded
  case last =>
    rw [hsequence]
    exact hvalid.last
  case unwritten =>
    intro hot hhot
    cases hhot
    exact ⟨fun _ => rfl, fun _ => rfl⟩
  case current =>
    intro hot hhot _
    cases hhot
    rw [hsequence]
    exact ⟨rfl, Int.le_refl _⟩
  case closed => nofun
  case issued =>
    rw [hsequence]
    exact hvalid.issued
  case exclusive => exact hvalid.exclusive
  case numbered =>
    rw [hsequence]
    exact hvalid.numbered

/-- A new entry keeps tables exclusive if none is in progress for its table. -/
theorem exclusive_withWrite
    {sysCn m n : Int} {after : Option (Versioned WriteOperation)}
    {entry entry' : Versioned WriteOperation} (hvalid : b.Valid)
    (hfree : ∀ found, after = some found → found.record.status = .inProgress →
      ∀ n entry, b.write n = some entry → entry.record.status = .inProgress →
        entry.record.tableName ≠ found.record.tableName)
    (hentry : (b.withWrite sysCn after).write m = some entry)
    (hentry' : (b.withWrite sysCn after).write n = some entry')
    (hprogress : entry.record.status = .inProgress)
    (hprogress' : entry'.record.status = .inProgress)
    (htable : entry.record.tableName = entry'.record.tableName) : m = n := by
  rw [withWrite_write] at hentry hentry'
  split at hentry
  next hm =>
    split at hentry'
    next hn => rw [hm, hn]
    next => exact absurd htable.symm (hfree entry hentry hprogress n entry' hentry' hprogress')
  next =>
    split at hentry'
    next => exact absurd htable (hfree entry' hentry' hprogress' m entry hentry hprogress)
    next => exact hvalid.exclusive m n entry entry' hentry hentry' hprogress hprogress' htable

theorem Valid.registered
    {datamart : String} {r : Registration}
    {hot : Versioned HotDelta} {counters : Versioned Counters}
    (hvalid : b.Valid) (hhot : b.hot = some hot) (hcounters : b.counters = some counters)
    (hfree : ∀ n entry, b.write n = some entry →
      entry.record.status = .inProgress → entry.record.tableName ≠ r.tableName)
    (hfits : Decimal.Fits (counters.record.nextCn + 1)) :
    Valid ({ b with counters := some ⟨counters.record.issue, counters.version + 1⟩ }.withWrite
      counters.record.nextCn (some ⟨r.entry datamart counters.record.nextCn, 0⟩)) := by
  have hsequence := sequence_of_counters hcounters
  have hnonneg := hvalid.nonneg
  rw [hsequence] at hnonneg
  constructor
  case bare => nofun
  case nonneg =>
    change 0 ≤ counters.record.nextCn + 1 ∧ 0 ≤ counters.record.nextDeltaNum
    omega
  case bounded =>
    have hbounded := hvalid.bounded
    rw [hsequence] at hbounded
    exact ⟨hfits, hbounded.2⟩
  case last =>
    have hlast := hvalid.last
    rw [hsequence] at hlast
    exact hlast
  case unwritten => exact hvalid.unwritten
  case current =>
    intro found hfound hunmarked
    have hcurrent := hvalid.current found hfound hunmarked
    rw [hsequence] at hcurrent
    change found.record.deltaNum = counters.record.nextDeltaNum ∧
      found.record.cnFrom ≤ counters.record.nextCn + 1
    omega
  case closed =>
    intro hclosed
    rw [withWrite_hot] at hclosed
    simp [hhot] at hclosed
  case issued =>
    intro n entry hentry
    change _ ∧ _ ∧ n < counters.record.nextCn + 1
    rw [withWrite_write] at hentry
    split at hentry
    next hn =>
      cases hentry
      subst hn
      exact ⟨rfl, hnonneg.1, by omega⟩
    next =>
      obtain ⟨hown, hlow, hhigh⟩ := hvalid.issued n entry hentry
      rw [hsequence] at hhigh
      exact ⟨hown, hlow, by omega⟩
  case exclusive =>
    intro m n entry entry' hentry hentry'
    refine exclusive_withWrite hvalid ?_ hentry hentry'
    intro found hfound _
    cases hfound
    exact hfree
  case numbered =>
    intro n
    have hnumbered := hvalid.numbered n
    rw [hsequence] at hnumbered
    exact hnumbered

theorem Valid.withWrite
    {sysCn : Int} {entry : Versioned WriteOperation} {after : Option (Versioned WriteOperation)}
    (hvalid : b.Valid) (hentry : b.write sysCn = some entry)
    (hafter : ∀ found, after = some found →
      found.record.sysCn = entry.record.sysCn ∧ found.record.status ≠ .inProgress) :
    (b.withWrite sysCn after).Valid := by
  constructor
  case bare => exact hvalid.bare
  case nonneg => exact hvalid.nonneg
  case bounded => exact hvalid.bounded
  case last => exact hvalid.last
  case unwritten => exact hvalid.unwritten
  case current => exact hvalid.current
  case closed =>
    intro hclosed
    obtain ⟨hot, hhot⟩ := hvalid.hot_of_write hentry
    rw [withWrite_hot, hhot] at hclosed
    cases hclosed
  case issued =>
    intro n found hfound
    rw [withWrite_write] at hfound
    split at hfound
    next hn =>
      subst hn
      rw [(hafter found hfound).1]
      exact hvalid.issued n entry hentry
    next => exact hvalid.issued n found hfound
  case exclusive =>
    intro m n found found' hfound hfound'
    refine exclusive_withWrite hvalid ?_ hfound hfound'
    intro new hnew hprogress
    exact absurd hprogress (hafter new hnew).2
  case numbered => exact hvalid.numbered

theorem Valid.marked
    {view : HotDelta} {sysCn : Int} {hot : Versioned HotDelta} {counters : Versioned Counters}
    (hvalid : b.Valid) (hcounters : b.counters = some counters) :
    Valid { b with hot := some ⟨view.failedAt sysCn, hot.version + 1⟩ } := by
  constructor
  case bare =>
    intro hbare
    rw [hcounters] at hbare
    cases hbare
  case nonneg => exact hvalid.nonneg
  case bounded => exact hvalid.bounded
  case last => exact hvalid.last
  case unwritten =>
    intro found hfound
    cases hfound
    simp [HotDelta.failedAt]
  case current =>
    intro found hfound hunmarked
    cases hfound
    cases hunmarked
  case closed => nofun
  case issued => exact hvalid.issued
  case exclusive => exact hvalid.exclusive
  case numbered => exact hvalid.numbered

theorem Valid.cleared {counters : Versioned Counters} (hvalid : b.Valid)
    (hcounters : b.counters = some counters) : b.cleared.Valid := by
  constructor
  case bare =>
    intro hbare
    rw [cleared_counters, hcounters] at hbare
    cases hbare
  case nonneg => exact hvalid.nonneg
  case bounded => exact hvalid.bounded
  case last => exact hvalid.last
  case unwritten =>
    intro found hfound
    cases hfound
  case current =>
    intro found hfound
    cases hfound
  case closed => exact fun _ _ => rfl
  case issued => nofun
  case exclusive => nofun
  case numbered => exact hvalid.numbered

theorem Valid.promoted
    {view : HotDelta} {date : DateTime} {counters : Versioned Counters}
    (hvalid : b.Valid) (hcounters : b.counters = some counters)
    (hnum : view.deltaNum = counters.record.nextDeltaNum) (hfits : Decimal.Fits view.deltaNum) :
    Valid { b.cleared with
      counters := some ⟨counters.record.afterClose view, counters.version + 1⟩
      ok := fun n =>
        if n = view.deltaNum then some ⟨counters.record.close view date, 0⟩ else b.ok n } := by
  have hsequence := sequence_of_counters hcounters
  have hnonneg := hvalid.nonneg
  rw [hsequence] at hnonneg
  constructor
  case bare => nofun
  case nonneg =>
    change 0 ≤ counters.record.nextCn ∧ 0 ≤ view.deltaNum + 1
    omega
  case bounded =>
    have hbounded := hvalid.bounded
    rw [hsequence] at hbounded
    refine ⟨hbounded.1, ?_⟩
    intro n hlast
    cases hlast
    exact hfits
  case last =>
    intro n hlast
    cases hlast
    omega
  case unwritten =>
    intro found hfound
    cases hfound
  case current =>
    intro found hfound
    cases hfound
  case closed => exact fun _ _ => rfl
  case issued => nofun
  case exclusive => nofun
  case numbered =>
    intro n
    have hnumbered := hvalid.numbered n
    rw [hsequence] at hnumbered
    change (∃ ok, (if n = view.deltaNum then _ else _) = some ok) ↔ 0 ≤ n ∧ n < view.deltaNum + 1
    split
    next hn => exact ⟨fun _ => by omega, fun _ => ⟨_, rfl⟩⟩
    next hn =>
      rw [hnumbered]
      omega

theorem Valid.moves (hvalid : b.Valid) (hmoves : b.Moves m b') : b'.Valid := by
  cases hmoves with
  | opened => exact hvalid.opened
  | registered hhot hcounters _ hfree hfits => exact hvalid.registered hhot hcounters hfree hfits
  | finished _ hentry _ hstatus =>
      apply hvalid.withWrite hentry
      intro found hfound
      cases hfound
      exact ⟨rfl, hstatus⟩
  | withdrawn _ hentry => exact hvalid.withWrite hentry nofun
  | marked _ hcounters => exact hvalid.marked hcounters
  | discarded _ hcounters => exact hvalid.cleared hcounters
  | promoted _ hcounters _ _ hnum _ hfits => exact hvalid.promoted hcounters hnum hfits

end Kept

end Book
end DeltaLedger
