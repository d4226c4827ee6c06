import DeltaLedger.Proofs.KeyOrder

/-!
# What a book tells

The questions about the epochs of a datamart, asked of its book.  A request that runs alone
on a tree gives what the book of its site tells, and no other node of the tree matters.
-/

namespace DeltaLedger

namespace Book

/-- The ok deltas from the oldest to the newest. -/
def oks (b : Book) : List (Versioned OkDelta) :=
  (List.range b.sequence.nextDeltaNum.toNat).filterMap fun k : Nat => b.ok k

section Asking

variable (b : Book) (datamart : String)

def readHot : Except Failure HotDelta :=
  match b.hot with
  | some hot => .ok hot.record
  | none => .error (.noHotDelta datamart)

def readLatest : Except Failure OkDelta :=
  match b.sequence.lastDeltaNum.bind b.ok with
  | some ok => .ok ok.record
  | none => .error (.nothingCommitted datamart)

def readByNumber (n : Int) : Except Failure OkDelta :=
  match b.ok n, b.hot with
  | some ok, _ => .ok ok.record
  | none, some hot =>
    if hot.record.deltaNum = n then .error (.stillHot datamart n)
    else .error (.noOkDelta datamart n)
  | none, none => .error (.noOkDelta datamart n)

/-- The answer of a search through some ok deltas, of which the first in time is taken. -/
def firstBy (oks : List (Versioned OkDelta)) (t : DateTime) : Except Failure OkDelta :=
  match oks.find? fun ok => ok.record.deltaDate ≤ t with
  | some ok => .ok ok.record
  | none => .error (.nothingCommittedBy datamart t)

def readAsOf (t : DateTime) : Except Failure OkDelta :=
  firstBy datamart b.oks.reverse t

end Asking

variable {b : Book}

theorem lastDeltaNum_sequence (b : Book) :
    b.sequence.lastDeltaNum = b.counters.bind fun counters => counters.record.lastDeltaNum := by
  unfold sequence
  cases b.counters <;> rfl

/-- The last number is that of an ok delta. -/
theorem Valid.exists_last (hvalid : b.Valid) {n : Int} (hlast : b.sequence.lastDeltaNum = some n) :
    ∃ ok, b.ok n = some ok := by
  have hnext : b.sequence.nextDeltaNum = n + 1 := by
    rw [Counters.nextDeltaNum, hlast]
  exact (hvalid.numbered n).mpr ⟨hvalid.last n hlast, by omega⟩

theorem Valid.ok_of_negative (hvalid : b.Valid) {n : Int} (hnegative : ¬0 ≤ n) : b.ok n = none := by
  cases hok : b.ok n with
  | none => rfl
  | some ok => exact absurd ((hvalid.numbered n).mp ⟨ok, hok⟩).1 hnegative

end Book

open Program

section Alone

variable {s : Site} {scope : Scope} {time : DateTime} {t : Tree}

/-- The numbers that are read off the names of the ok deltas, backwards, lead to the ok deltas
from the newest to the oldest. -/
theorem Site.filterMap_ok_names (hkept : s.Kept t) (hvalid : (s.book t).Valid) :
    ((s.names .okDeltas t).reverse.filterMap Layout.number?).filterMap (s.book t).ok =
      (s.book t).oks.reverse := by
  rw [List.filterMap_reverse, List.filterMap_reverse, numbers_okDeltas hkept hvalid,
    List.filterMap_map]
  rfl

variable (hlayout : scope.layout = s.layout) (hkept : s.Kept t)

include hlayout hkept

theorem runAlone_readHot :
    scope.readHot.runAlone time t = ((s.book t).readHot scope.datamart, t) := by
  unfold Book.readHot
  cases hhot : (s.book t).hot with
  | some hot => exact runAlone_bind_of_ok (runAlone_hot_of_some hlayout hkept hhot)
  | none => exact runAlone_bind_of_error (runAlone_hot_of_none hlayout hkept hhot)

theorem runAlone_readLatest (hvalid : (s.book t).Valid) :
    scope.readLatest.runAlone time t = ((s.book t).readLatest scope.datamart, t) := by
  have hread := runAlone_read time Site.suits_counters hkept
  change _ = (Except.ok (s.book t).counters, t) at hread
  unfold Scope.readLatest Book.readLatest
  rw [hlayout, Site.layout_counters, runAlone_bind_of_ok hread, ← Book.lastDeltaNum_sequence]
  cases hlast : (s.book t).sequence.lastDeltaNum with
  | none => rfl
  | some n =>
      obtain ⟨ok, hok⟩ := hvalid.exists_last hlast
      dsimp only [Option.bind_some]
      rw [hok, Site.layout_okDelta]
      exact runAlone_bind_of_ok (runAlone_require_of_some (Site.suits_ok n) hkept hok)

variable (time) in
/-- There is no ok delta for a negative number, and nobody looks. -/
theorem runAlone_committed? (hvalid : (s.book t).Valid) (n : Int) :
    (scope.committed? n).runAlone time t = (.ok ((s.book t).ok n), t) := by
  unfold Scope.committed?
  split
  next =>
    rw [hlayout, Site.layout_okDelta]
    exact runAlone_read time (Site.suits_ok n) hkept
  next hnegative =>
    rw [hvalid.ok_of_negative hnegative]
    rfl

theorem runAlone_readByNumber (hvalid : (s.book t).Valid) (n : Int) :
    (scope.readByNumber n).runAlone time t = ((s.book t).readByNumber scope.datamart n, t) := by
  have hlook := runAlone_committed? time hlayout hkept hvalid n
  have hread := runAlone_read time Site.suits_hot hkept
  change _ = (Except.ok (s.book t).hot, t) at hread
  unfold Scope.readByNumber Book.readByNumber
  rw [runAlone_bind_of_ok hlook]
  cases (s.book t).ok n with
  | some ok => rfl
  | none =>
      dsimp only
      rw [hlayout, Site.layout_hot, runAlone_bind_of_ok hread]
      cases (s.book t).hot with
      | none => rfl
      | some hot =>
          dsimp only
          split <;> rfl

theorem runAlone_firstBy (asOf : DateTime) (ns : List Int) :
    (scope.firstBy asOf ns).runAlone time t =
      (Book.firstBy scope.datamart (ns.filterMap (s.book t).ok) asOf, t) := by
  induction ns with
  | nil => rfl
  | cons n ns ih =>
      have hread := runAlone_read time (Site.suits_ok n) hkept
      change _ = (Except.ok ((s.book t).ok n), t) at hread
      unfold Scope.firstBy
      rw [hlayout, Site.layout_okDelta, runAlone_bind_of_ok hread]
      cases hok : (s.book t).ok n with
      | none =>
          rw [List.filterMap_cons_none hok]
          exact ih
      | some ok =>
          rw [List.filterMap_cons_some hok]
          unfold Book.firstBy at ih ⊢
          rw [List.find?_cons]
          dsimp only
          by_cases hdate : ok.record.deltaDate ≤ asOf
          · simp only [if_pos hdate, decide_eq_true hdate]
            rfl
          · simp only [if_neg hdate, decide_eq_false hdate]
            exact ih

theorem runAlone_readAsOf (hvalid : (s.book t).Valid) (asOf : DateTime) :
    (scope.readAsOf asOf).runAlone time t = ((s.book t).readAsOf scope.datamart asOf, t) := by
  unfold Scope.readAsOf Book.readAsOf
  rw [hlayout, Site.layout_okDeltas, runAlone_bind_of_ok runAlone_namesBelow,
    runAlone_firstBy hlayout hkept, Site.filterMap_ok_names hkept hvalid]

variable (time) in
theorem runAlone_readLedger (hvalid : (s.book t).Valid) :
    ∃ entries, (s.book t).Lists entries ∧ scope.readLedger.runAlone time t =
      (.ok ((s.book t).hot.elim [] fun _ =>
        (entries.map Versioned.record).filter fun w => w.status ≠ .success), t) := by
  have hread := runAlone_read time Site.suits_hot hkept
  change _ = (Except.ok (s.book t).hot, t) at hread
  obtain ⟨entries, hlists, hledger⟩ := runAlone_ledger time hlayout hkept hvalid
  refine ⟨entries, hlists, ?_⟩
  unfold Scope.readLedger
  rw [hlayout, Site.layout_hot, runAlone_bind_of_ok hread]
  cases (s.book t).hot with
  | none => rfl
  | some hot => exact runAlone_bind_of_ok hledger

end Alone

end DeltaLedger
