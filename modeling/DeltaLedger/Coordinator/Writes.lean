import DeltaLedger.Coordinator.Scope

/-!
# Write operations

Entries of the open epoch's ledger are registered, finished with success or error, or withdrawn. A table has at most one
entry in progress. Registering issues the change number and creates the entry in one transaction.
-/

namespace DeltaLedger
namespace Scope

def blocking? (entries : List (Versioned WriteOperation)) (table : String) : Option (Versioned WriteOperation) :=
  entries.find? fun entry => entry.record.tableName == table && !entry.record.status.isTerminal

def tryRegister (s : Scope) (r : Registration) : Program Failure (Option Int) := do
  let hot ← require HotDelta s.layout.hot (.noHotDeltaForWrite s.datamart)
  if hot.record.rollingBack then
    .fail (.rollingBack s.datamart hot.record.deltaNum)
  else
    let counters ← s.counters
    let entries ← s.ledger
    match blocking? entries r.tableName with
    | some entry => .fail (.tableBlocked s.datamart r.tableName entry.record.sysCn)
    | none =>
      let sysCn := counters.record.nextCn
      let next ← Program.ofExcept (Stored.encode counters.record.issue)
      let payload ← Program.ofExcept (Stored.encode (r.entry s.datamart sysCn))
      s.commit
        [.writeAt s.layout.counters counters.version next, .checkAt s.layout.hot hot.version,
          .create (s.layout.write sysCn) payload]
        sysCn

def registerWrite (s : Scope) (r : Registration) : Program Failure Int := do
  let sysCn ← s.persist (s.tryRegister r)
  Program.log (.registered r.tableName sysCn)
  return sysCn

/-- One attempt to finish a write. A write that has the status already is left alone. -/
def tryFinish (s : Scope) (sysCn : Int) (status : WriteStatus) : Program Failure (Option Unit) := do
  let hot ← s.hot
  let entry ← s.write sysCn
  if entry.record.status = status then
    return some ()
  else if entry.record.status.isTerminal then
    .fail (.alreadyFinished s.datamart sysCn entry.record.status)
  else
    let payload ← Program.ofExcept (Stored.encode { entry.record with status })
    s.commit [.checkAt s.layout.hot hot.version, .writeAt (s.layout.write sysCn) entry.version payload] ()

def finishWrite (s : Scope) (sysCn : Int) (status : WriteStatus) : Program Failure Unit := do
  s.persist (s.tryFinish sysCn status)
  Program.log (.completed sysCn status)

/-- One attempt to withdraw a write. Gives the table it was for. -/
def tryWithdraw (s : Scope) (sysCn : Int) : Program Failure (Option String) := do
  let hot ← s.hot
  let entry ← s.write sysCn
  s.commit
    [.checkAt s.layout.hot hot.version, .deleteAt (s.layout.write sysCn) entry.version]
    entry.record.tableName

/-- Withdraws a write, finished or not. -/
def withdrawWrite (s : Scope) (sysCn : Int) : Program Failure Unit := do
  let table ← s.persist (s.tryWithdraw sysCn)
  Program.log (.withdrawn sysCn table)

end Scope
end DeltaLedger
