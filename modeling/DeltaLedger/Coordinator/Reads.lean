import DeltaLedger.Coordinator.Scope

/-!
# Reads

Questions about the epochs of a datamart. None of them changes anything.
-/

namespace DeltaLedger
namespace Scope

def readHot (s : Scope) : Program Failure HotDelta := do
  let hot ← s.hot
  return hot.record

def readLatest (s : Scope) : Program Failure OkDelta := do
  let found ← read Counters s.layout.counters
  match found.bind fun counters => counters.record.lastDeltaNum with
  | none => .fail (.nothingCommitted s.datamart)
  | some n =>
    let ok ← require OkDelta (s.layout.okDelta n) (.noOkDelta s.datamart n)
    return ok.record

/-- The ok delta of a number; there is none for a negative number. -/
def committed? (s : Scope) (deltaNum : Int) : Program Failure (Option (Versioned OkDelta)) :=
  if 0 ≤ deltaNum then read OkDelta (s.layout.okDelta deltaNum) else return none

/-- The ok delta of a number. The number of the open epoch is told apart from numbers that do not exist. -/
def readByNumber (s : Scope) (deltaNum : Int) : Program Failure OkDelta := do
  match ← s.committed? deltaNum with
  | some ok => return ok.record
  | none =>
    match ← read HotDelta s.layout.hot with
    | some hot =>
      if hot.record.deltaNum = deltaNum then .fail (.stillHot s.datamart deltaNum)
      else .fail (.noOkDelta s.datamart deltaNum)
    | none => .fail (.noOkDelta s.datamart deltaNum)

/-- The first ok delta of the given numbers that was committed by a date-time. -/
def firstBy (s : Scope) (t : DateTime) : List Int → Program Failure OkDelta
  | [] => .fail (.nothingCommittedBy s.datamart t)
  | n :: ns => do
    match ← read OkDelta (s.layout.okDelta n) with
    | some ok => if ok.record.deltaDate ≤ t then return ok.record else s.firstBy t ns
    | none => s.firstBy t ns

/-- The ok delta in effect at a date-time. Dates never fall as numbers grow, so the search goes from the newest ok
delta backwards and ends at the first one that is not too late. -/
def readAsOf (s : Scope) (t : DateTime) : Program Failure OkDelta := do
  let names ← namesBelow s.layout.okDeltas
  s.firstBy t (names.reverse.filterMap Layout.number?)

/-- The ledger without the writes that succeeded; empty while no epoch is open. -/
def readLedger (s : Scope) : Program Failure (List WriteOperation) := do
  match ← read HotDelta s.layout.hot with
  | none => return []
  | some _ =>
    let entries ← s.ledger
    return (entries.map Versioned.record).filter fun w => w.status ≠ .success

end Scope
end DeltaLedger
