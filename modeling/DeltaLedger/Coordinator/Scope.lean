import DeltaLedger.Coordinator.Settings
import DeltaLedger.Datamart.Root
import DeltaLedger.Epoch.Layout
import DeltaLedger.Epoch.Stored

/-!
# Scopes

A scope is one request at work in its datamart. It reads records together with their versions, and changes them only by
transactions that name the versions they rely on. An attempt whose transaction is aborted lost a race; it is made again
from fresh reads, as often as the coordinator allows.

The version of the counters guards the ledger: registering, committing, discarding and marking as failed all
write or check it, so none of them can commit on an outdated view of the ledger.
-/

namespace DeltaLedger

/-- A record with the version of the node it was read from. -/
structure Versioned (α : Type) where
  record : α
  version : Nat

structure Scope where
  coordinator : Coordinator
  operation : Operation
  datamart : String
  layout : Layout

namespace Scope

/-- Enters a datamart whose root has to exist. -/
def enter (c : Coordinator) (operation : Operation) (datamart : String) : Program Failure Scope :=
  match Datamart.parseRoot c.env datamart with
  | .error e => .fail (.badRequest e.message)
  | .ok root => do
    match ← Program.request (.stat root) .unavailable with
    | some _ => return ⟨c, operation, datamart, .below root⟩
    | none => .fail (.noDatamart datamart)

def localTime (s : Scope) : Program Failure DateTime := do
  let utc ← Program.now
  return (utc.atOffset s.coordinator.zone).wholeSecond

def read (α : Type) [Stored α] (path : String) : Program Failure (Option (Versioned α)) := do
  match ← Program.request (.read path) .unavailable with
  | none => return none
  | some node =>
    let record ← Program.ofExcept (Stored.decode α path node.data)
    return some ⟨record, node.version⟩

def require (α : Type) [Stored α] (path : String) (missing : Failure) : Program Failure (Versioned α) := do
  match ← read α path with
  | some found => return found
  | none => .fail missing

def hot (s : Scope) : Program Failure (Versioned HotDelta) :=
  require HotDelta s.layout.hot (.noHotDelta s.datamart)

def counters (s : Scope) : Program Failure (Versioned Counters) :=
  require Counters s.layout.counters (.noCounters s.datamart)

def write (s : Scope) (sysCn : Int) : Program Failure (Versioned WriteOperation) :=
  require WriteOperation (s.layout.write sysCn) (.noWrite s.datamart sysCn)

/-- The names of a node's children; none if the node does not exist. -/
def namesBelow (path : String) : Program Failure (List String) := do
  match ← Program.reply (.children path) with
  | .ok names => return names
  | .error (.notFound _) => return []
  | .error e => .fail (.unavailable e)

/-- Reads the ledger entries of some change numbers. An entry that another client removed meanwhile is left out. -/
def writesAt (s : Scope) : List Int → Program Failure (List (Versioned WriteOperation))
  | [] => return []
  | n :: ns => do
    let found ← read WriteOperation (s.layout.write n)
    let rest ← s.writesAt ns
    return found.toList ++ rest

def ledger (s : Scope) : Program Failure (List (Versioned WriteOperation)) := do
  let names ← namesBelow s.layout.writes
  let entries ← s.writesAt (names.filterMap Layout.number?)
  return entries.mergeSort fun a b => a.record.sysCn ≤ b.record.sysCn

/-- Steps that delete ledger entries as they were read. -/
def deletions (s : Scope) (entries : List (Versioned WriteOperation)) : List Step :=
  entries.map fun entry => .deleteAt (s.layout.write entry.record.sysCn) entry.version

/-- Submits a transaction. Gives `result` if it was committed and nothing if it lost a race. -/
def commit {α : Type} (s : Scope) (steps : List Step) (result : α) : Program Failure (Option α) := do
  match ← Program.request (.transact steps) .unavailable with
  | .committed => return some result
  | .aborted index path conflict =>
    Program.log (.aborted s.operation index path conflict)
    return none

/-- Makes an attempt until it succeeds, with `left` attempts still allowed. -/
def attempts {α : Type} (s : Scope) (attempt : Program Failure (Option α)) : Nat → Program Failure α
  | 0 => .fail (.lostRaces s.operation s.datamart s.coordinator.attempts)
  | left + 1 => do
    match ← attempt with
    | some a => return a
    | none =>
      Program.notify (.measured (.retried s.operation))
      Program.log (.retrying s.operation (s.coordinator.attempts - left) s.coordinator.attempts)
      s.attempts attempt left

def persist {α : Type} (s : Scope) (attempt : Program Failure (Option α)) : Program Failure α :=
  s.attempts attempt s.coordinator.attempts

end Scope
end DeltaLedger
