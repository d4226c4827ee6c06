/-!
# Operations

The thirteen operations on the epochs of a datamart, by name.
-/

namespace DeltaLedger

inductive Operation where
  | openDelta
  | commitDelta
  | failDelta
  | discardDelta
  | registerWrite
  | succeedWrite
  | failWrite
  | withdrawWrite
  | readHot
  | readLatest
  | readByNumber
  | readAsOf
  | readLedger
  deriving DecidableEq, Repr

namespace Operation

/-- All operations, those that change something first. -/
def all : List Operation :=
  [openDelta, commitDelta, failDelta, discardDelta, registerWrite, succeedWrite, failWrite, withdrawWrite, readHot,
    readLatest, readByNumber, readAsOf, readLedger]

/-- The name clients use. -/
def name : Operation → String
  | openDelta => "writeNewDeltaHot"
  | commitDelta => "writeDeltaHotSuccess"
  | failDelta => "writeDeltaError"
  | discardDelta => "deleteDeltaHot"
  | registerWrite => "writeNewOperation"
  | succeedWrite => "writeOperationSuccess"
  | failWrite => "writeOperationError"
  | withdrawWrite => "deleteWriteOperation"
  | readHot => "getDeltaHot"
  | readLatest => "getDeltaOk"
  | readByNumber => "getDeltaByNum"
  | readAsOf => "getDeltaByDateTime"
  | readLedger => "getDeltaWriteOperations"

def ofName? (s : String) : Option Operation :=
  all.find? fun operation => operation.name == s

/-- The operation never changes the store. -/
def isReadOnly : Operation → Bool
  | readHot | readLatest | readByNumber | readAsOf | readLedger => true
  | _ => false

end Operation
end DeltaLedger
