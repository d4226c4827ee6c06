import DeltaLedger.Coordinator.Scope

/-!
# Life of an epoch

An epoch is opened, and ends by being committed, with its ledger cleared in the same transaction, or by being discarded.
In between it can be marked as failed, after which only discarding is left.
-/

namespace DeltaLedger
namespace Scope

/-- The steps that open an epoch. The first epoch of a datamart brings the counters and the parents of all
records with it. -/
def openingSteps (s : Scope) (found : Option (Versioned Counters)) (counters : Counters) (hot : HotDelta) :
    Except Failure (List Step) := do
  let before ←
    match found with
    | some existing => pure [Step.checkAt s.layout.counters existing.version]
    | none => do
      let payload ← Stored.encode counters
      pure [Step.create s.layout.counters payload, .create s.layout.okDeltas [], .create s.layout.writes []]
  let payload ← Stored.encode hot
  return before ++ [.create s.layout.hot payload]

def tryOpen (s : Scope) : Program Failure (Option HotDelta) := do
  match ← read HotDelta s.layout.hot with
  | some current => .fail (.alreadyOpen s.datamart current.record.deltaNum)
  | none =>
    let found ← read Counters s.layout.counters
    let counters := (found.map Versioned.record).getD .fresh
    let now ← s.localTime
    let hot := counters.openEpoch now
    let steps ← Program.ofExcept (s.openingSteps found counters hot)
    s.commit steps hot

def openDelta (s : Scope) : Program Failure HotDelta := do
  let hot ← s.persist s.tryOpen
  Program.log (.opened hot.deltaNum hot.cnFrom)
  return hot

def pending (entries : List (Versioned WriteOperation)) : List Int :=
  (entries.filter fun entry => !entry.record.status.isTerminal).map fun entry => entry.record.sysCn

/-- Refuses a commit date before the date of the last ok delta. -/
def checkDate (s : Scope) (counters : Counters) (date : DateTime) : Program Failure Unit :=
  match counters.lastDeltaNum with
  | none => return ()
  | some n => do
    match ← read OkDelta (s.layout.okDelta n) with
    | some last => if date < last.record.deltaDate then .fail (.dateTooEarly date last.record) else return ()
    | none => return ()

/-- The steps that commit an epoch: the counters move on, the ledger and the hot delta go, the ok delta comes. -/
def commitSteps (s : Scope) (hot : Versioned HotDelta) (counters : Versioned Counters)
    (entries : List (Versioned WriteOperation)) (ok : OkDelta) : Except Failure (List Step) := do
  let next ← Stored.encode (counters.record.afterClose hot.record)
  let payload ← Stored.encode ok
  return .writeAt s.layout.counters counters.version next :: s.deletions entries ++
    [.deleteAt s.layout.hot hot.version, .create (s.layout.okDelta ok.deltaNum) payload]

def tryCommit (s : Scope) (date : DateTime) : Program Failure (Option OkDelta) := do
  let hot ← s.hot
  if hot.record.rollingBack then
    .fail (.rollingBack s.datamart hot.record.deltaNum)
  else
    let counters ← s.counters
    let entries ← s.ledger
    if pending entries ≠ [] then
      .fail (.notFinished s.datamart (pending entries))
    else
      s.checkDate counters.record date
      let ok := counters.record.close hot.record date
      let steps ← Program.ofExcept (s.commitSteps hot counters entries ok)
      s.commit steps ok

/-- Commits the open epoch with a date in whole seconds, by default the local time. -/
def commitDelta (s : Scope) (date : Option DateTime) : Program Failure Unit := do
  let date ←
    match date with
    | some t => pure t
    | none => s.localTime
  let ok ← s.persist (s.tryCommit date.wholeSecond)
  Program.log (.committed ok)

def tryFail (s : Scope) (sysCn : Int) : Program Failure (Option HotDelta) := do
  let hot ← s.hot
  let counters ← s.counters
  let failed := hot.record.failedAt sysCn
  let payload ← Program.ofExcept (Stored.encode failed)
  s.commit
    [.checkAt s.layout.counters counters.version, .writeAt s.layout.hot hot.version payload]
    failed

/-- Marks the open epoch as failed at a change number. The ledger stays as it is. -/
def failDelta (s : Scope) (sysCn : Int) : Program Failure Unit := do
  let hot ← s.persist (s.tryFail sysCn)
  Program.log (.markedFailed hot.deltaNum sysCn)

/-- One attempt to discard the open epoch. Gives its number and the size of its ledger. -/
def tryDiscard (s : Scope) : Program Failure (Option (Int × Nat)) := do
  let hot ← s.hot
  let counters ← s.counters
  let entries ← s.ledger
  s.commit
    (.checkAt s.layout.counters counters.version :: s.deletions entries ++ [.deleteAt s.layout.hot hot.version])
    (hot.record.deltaNum, entries.length)

/-- Discards the open epoch and its ledger, finished or not. -/
def discardDelta (s : Scope) : Program Failure Unit := do
  let (deltaNum, writes) ← s.persist s.tryDiscard
  Program.log (.discarded deltaNum writes)

end Scope
end DeltaLedger
