import DeltaLedger.Proofs.MachineSteps
import DeltaLedger.Proofs.ReadsAlone

/-!
# Reads that follow the machine

A book that reflects a machine tells what the machine tells, and a read that runs alone
gives what the book tells.  The ok deltas of the book, from the oldest to the newest, are
the list of the machine.
-/

namespace DeltaLedger

open Program

namespace Book.Reflects

variable {b : Book} {m : Machine} {datamart : String}

theorem filterMap_getElem?_range {α : Type} (l : List α) :
    (List.range l.length).filterMap (fun k => l[k]?) = l := by
  induction l with
  | nil => rfl
  | cons a l ih =>
      have hhead : (a :: l)[0]? = some a := rfl
      rw [List.length_cons, List.range_succ_eq_map, List.filterMap_cons_some hhead,
        List.filterMap_map]
      simpa [Function.comp_def] using ih

theorem oks (h : b.Reflects m) : b.oks.map Versioned.record = m.oks := by
  have hlook : ∀ k : Nat, (b.ok k).map Versioned.record = m.oks[k]? := by
    intro k
    rw [h.ok, Machine.ok?, if_pos (Int.natCast_nonneg k), Int.toNat_natCast]
  unfold Book.oks
  rw [h.sequence, Machine.nextDeltaNum_counters, Int.toNat_natCast, List.map_filterMap]
  simp only [hlook, filterMap_getElem?_range]

theorem readHot (h : b.Reflects m) :
    m.readHot datamart = (b.readHot datamart).map fun hot => (.hotDelta hot, m) := by
  unfold Machine.readHot Book.readHot
  rw [← h.hot]
  cases b.hot <;> rfl

theorem readLatest (h : b.Reflects m) :
    m.readLatest datamart = (b.readLatest datamart).map fun ok => (.okDelta ok, m) := by
  unfold Machine.readLatest Book.readLatest
  rw [← h.last, h.sequence]
  cases m.counters.lastDeltaNum.bind b.ok <;> rfl

theorem readByNumber (h : b.Reflects m) (n : Int) :
    m.readByNumber datamart n =
      (b.readByNumber datamart n).map fun ok => (.okDelta ok, m) := by
  unfold Machine.readByNumber Book.readByNumber
  rw [← h.hot, ← h.ok]
  cases b.ok n with
  | some ok => rfl
  | none =>
      cases b.hot with
      | none => rfl
      | some hot =>
          dsimp only [Option.map_some, Option.map_none]
          split <;> rfl

theorem readAsOf (h : b.Reflects m) (asOf : DateTime) :
    m.readAsOf datamart asOf = (b.readAsOf datamart asOf).map fun ok => (.okDelta ok, m) := by
  unfold Machine.readAsOf Book.readAsOf Book.firstBy
  rw [← h.oks, ← List.map_reverse, List.find?_map, Function.comp_def]
  cases b.oks.reverse.find? fun ok => ok.record.deltaDate ≤ asOf <;> rfl

end Book.Reflects

section Reads

variable {s : Site} {scope : Scope} {time : DateTime} {t : Tree} {m : Machine}

/-- A read gives the answer of the machine and leaves the tree as it is. -/
theorem Site.Represents.follows_read (h : s.Represents t m) {γ : Type} {p : Program Failure γ}
    {told : Except Failure γ} (answer : γ → Response) (hrun : p.runAlone time t = (told, t)) :
    s.Follows t (told.map fun a => (answer a, m)) ((answer <$> p).runAlone time t) := by
  cases told with
  | error e => exact runAlone_map_of_error hrun
  | ok a =>
      rw [runAlone_map_of_ok hrun]
      exact ⟨rfl, h, fun _ _ => rfl⟩

variable (hlayout : scope.layout = s.layout) (h : s.Represents t m)

include hlayout h

theorem follows_readHot :
    s.Follows t (m.readHot scope.datamart) ((scope.perform .readHot).runAlone time t) := by
  rw [h.reflects.readHot]
  exact h.follows_read _ (runAlone_readHot hlayout h.kept)

theorem follows_readLatest :
    s.Follows t (m.readLatest scope.datamart) ((scope.perform .readLatest).runAlone time t) := by
  rw [h.reflects.readLatest]
  exact h.follows_read _ (runAlone_readLatest hlayout h.kept h.valid)

theorem follows_readByNumber (n : Int) :
    s.Follows t (m.readByNumber scope.datamart n)
      ((scope.perform (.readByNumber n)).runAlone time t) := by
  rw [h.reflects.readByNumber]
  exact h.follows_read _ (runAlone_readByNumber hlayout h.kept h.valid n)

theorem follows_readAsOf (asOf : DateTime) :
    s.Follows t (m.readAsOf scope.datamart asOf)
      ((scope.perform (.readAsOf asOf)).runAlone time t) := by
  rw [h.reflects.readAsOf]
  exact h.follows_read _ (runAlone_readAsOf hlayout h.kept h.valid asOf)

theorem follows_readLedger :
    s.Follows t m.readLedger ((scope.perform .readLedger).runAlone time t) := by
  obtain ⟨entries, hlists, hrun⟩ := runAlone_readLedger time hlayout h.kept h.valid
  have htold := h.follows_read .writes hrun
  rw [h.reflects.ledger_eq hlists] at htold
  unfold Machine.readLedger
  rw [← h.reflects.hot]
  cases hhot : (s.book t).hot with
  | none =>
      rw [hhot] at htold
      exact htold
  | some hot =>
      rw [hhot] at htold
      exact htold

end Reads

end DeltaLedger
