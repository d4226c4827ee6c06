import DeltaLedger.Calendar.Notation
import DeltaLedger.Epoch.Operation
import DeltaLedger.Epoch.Record
import DeltaLedger.NodeTree.Error

/-!
# Failures of a request

Why a request was not carried out. Every failure names the condition that did not hold. Only an unreachable store and a
lost race are worth trying again.
-/

namespace DeltaLedger

inductive Failure where
  | alreadyOpen (datamart : String) (deltaNum : Int)
  /-- The epoch is not committed yet. -/
  | notCommitted (message : String)
  | notFinished (datamart : String) (pending : List Int)
  | tableBlocked (datamart table : String) (sysCn : Int)
  | rollingBack (datamart : String) (deltaNum : Int)
  | notFound (message : String)
  /-- The datamart has no root in the tree. -/
  | noDatamart (datamart : String)
  /-- Other clients won every race. -/
  | conflict (message : String)
  | badRequest (message : String)
  | serialization (message : String)
  | unavailable (cause : StoreError)
  deriving DecidableEq, Repr

namespace Failure

/-- The stable name of a failure in logs and measurements. -/
def kind : Failure → String
  | alreadyOpen _ _ => "delta_already_open"
  | notCommitted _ => "delta_not_committed"
  | notFinished _ _ => "delta_not_finished"
  | tableBlocked _ _ _ => "table_blocked"
  | rollingBack _ _ => "delta_rolling_back"
  | notFound _ => "not_found"
  | noDatamart _ => "datamart_not_found"
  | conflict _ => "conflict"
  | badRequest _ => "bad_request"
  | serialization _ => "serialization"
  | unavailable _ => "store_unavailable"

def numbersText (ns : List Int) : String :=
  "[" ++ ", ".intercalate (ns.map Decimal.ofInt) ++ "]"

def message : Failure → String
  | alreadyOpen datamart deltaNum =>
    "delta is not committed: hot delta " ++ Decimal.ofInt deltaNum ++ " is already open in datamart " ++ datamart
  | notCommitted text => "delta is not committed: " ++ text
  | notFinished datamart pending =>
    "delta not finished: datamart " ++ datamart ++ " has write operations in progress " ++ numbersText pending
  | tableBlocked datamart table sysCn =>
    "table blocked: " ++ datamart ++ "." ++ table ++ " has write operation " ++ Decimal.ofInt sysCn ++ " in progress"
  | rollingBack datamart deltaNum =>
    "delta rolling back: hot delta " ++ Decimal.ofInt deltaNum ++ " in datamart " ++ datamart ++ " is marked as failed"
  | notFound text => "not found: " ++ text
  | noDatamart datamart => "datamart not found: " ++ datamart
  | conflict text => "conflict: " ++ text
  | badRequest text => "bad request: " ++ text
  | serialization text => "serialization error: " ++ text
  | unavailable cause => "coordination store unavailable: " ++ cause.message

/-- The same request may succeed when it is made again. -/
def isRetryable : Failure → Bool
  | unavailable _ => true
  | conflict _ => true
  | _ => false

/-- The failure needs attention: it does not follow from what the client asked for. -/
def isAlarming (f : Failure) : Bool :=
  f.isRetryable || f matches .serialization _

def cause? : Failure → Option StoreError
  | unavailable cause => some cause
  | _ => none

def noHotDelta (datamart : String) : Failure :=
  notFound ("no hot delta is open in datamart " ++ datamart)

/-- No epoch is open that could take a registration. -/
def noHotDeltaForWrite (datamart : String) : Failure :=
  notFound ("no hot delta is open in datamart " ++ datamart ++ "; writes require an open delta")

def noCounters (datamart : String) : Failure :=
  notFound ("delta sequence missing in datamart " ++ datamart)

def noWrite (datamart : String) (sysCn : Int) : Failure :=
  notFound ("write operation " ++ Decimal.ofInt sysCn ++ " not found in hot delta of datamart " ++ datamart)

def nothingCommitted (datamart : String) : Failure :=
  notFound ("no committed delta in datamart " ++ datamart)

def noOkDelta (datamart : String) (deltaNum : Int) : Failure :=
  notFound ("ok delta " ++ Decimal.ofInt deltaNum ++ " not found in datamart " ++ datamart)

def nothingCommittedBy (datamart : String) (t : DateTime) : Failure :=
  notFound ("no ok delta committed at or before " ++ t.messageText ++ " in datamart " ++ datamart)

def stillHot (datamart : String) (deltaNum : Int) : Failure :=
  notCommitted ("delta " ++ Decimal.ofInt deltaNum ++ " of datamart " ++ datamart ++ " is still hot")

def alreadyFinished (datamart : String) (sysCn : Int) (status : WriteStatus) : Failure :=
  badRequest ("write operation " ++ Decimal.ofInt sysCn ++ " in datamart " ++ datamart ++
    " is already finished with status " ++ status.text)

def dateTooEarly (date : DateTime) (last : OkDelta) : Failure :=
  badRequest ("delta date " ++ date.messageText ++ " is earlier than delta " ++ Decimal.ofInt last.deltaNum ++
    " date " ++ last.deltaDate.messageText)

def noTableName : Failure :=
  badRequest "table name cannot be empty"

def unknownOperation (name : String) : Failure :=
  badRequest ("unknown delta operation: " ++ name)

def lostRaces (operation : Operation) (datamart : String) (attempts : Nat) : Failure :=
  conflict (operation.name ++ " on datamart " ++ datamart ++ " lost to concurrent writers " ++
    Decimal.ofInt attempts ++ " times")

end Failure

def Operation.parse (name : String) : Except Failure Operation :=
  match ofName? name with
  | some operation => .ok operation
  | none => .error (.unknownOperation name)

end DeltaLedger
