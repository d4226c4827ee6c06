import DeltaLedger.Calendar.DateTime

/-!
# Records of an epoch

The writes of a datamart are grouped into epochs. An epoch that is open is a hot delta; one that was committed is an ok
delta and covers the range of change numbers that were issued in it. While an epoch is open, its ledger holds one
write operation for each change number that was registered.
-/

namespace DeltaLedger

/-- The open epoch of a datamart. -/
structure HotDelta where
  /-- The number that the ok delta will have. -/
  deltaNum : Int
  openedAt : DateTime
  /-- The first change number that this epoch can issue. -/
  cnFrom : Int
  /-- The epoch was marked as failed and can only be discarded. -/
  rollingBack : Bool
  /-- The change number at which it was marked. -/
  failedCn : Option Int
  deriving DecidableEq

/-- A committed epoch. -/
structure OkDelta where
  deltaNum : Int
  deltaDate : DateTime
  cnFrom : Int
  /-- The last change number of the epoch; one less than the first when it has none. -/
  cnTo : Int
  deriving DecidableEq

/-- No change number was issued in the epoch. -/
def OkDelta.isEmpty (d : OkDelta) : Bool :=
  d.cnTo < d.cnFrom

inductive WriteStatus where
  | inProgress
  | success
  | error
  deriving DecidableEq, Repr

namespace WriteStatus

def all : List WriteStatus :=
  [inProgress, success, error]

def text : WriteStatus → String
  | inProgress => "IN_PROGRESS"
  | success => "SUCCESS"
  | error => "ERROR"

def ofText? (s : String) : Option WriteStatus :=
  all.find? fun status => status.text == s

def isTerminal : WriteStatus → Bool
  | inProgress => false
  | success => true
  | error => true

end WriteStatus

/-- What a client asks to be registered: a table, its external table, and the text of the statement. -/
structure Registration where
  tableName : String
  tableNameExt : String
  query : String
  deriving DecidableEq, Repr

structure WriteOperation where
  datamart : String
  tableName : String
  tableNameExt : String
  query : String
  sysCn : Int
  status : WriteStatus
  deriving DecidableEq, Repr

/-- The entry that a registration starts with. -/
def Registration.entry (r : Registration) (datamart : String) (sysCn : Int) : WriteOperation :=
  ⟨datamart, r.tableName, r.tableNameExt, r.query, sysCn, .inProgress⟩

/-- The counters of a datamart, from which change numbers and delta numbers are taken. -/
structure Counters where
  /-- The next change number. It never goes back, not even when an epoch is discarded. -/
  nextCn : Int
  /-- The number of the last ok delta. -/
  lastDeltaNum : Option Int
  deriving DecidableEq, Repr

namespace Counters

def fresh : Counters :=
  ⟨0, none⟩

instance : Inhabited Counters := ⟨fresh⟩

def nextDeltaNum (c : Counters) : Int :=
  match c.lastDeltaNum with
  | none => 0
  | some n => n + 1

/-- The last change number issued, or -1. -/
def lastCn (c : Counters) : Int :=
  c.nextCn - 1

def issue (c : Counters) : Counters :=
  { c with nextCn := c.nextCn + 1 }

def openEpoch (c : Counters) (now : DateTime) : HotDelta :=
  ⟨c.nextDeltaNum, now, c.nextCn, false, none⟩

/-- The ok delta that a hot delta becomes. It covers the change numbers from the first of the epoch to the last one
issued. The subtractions are exact, also at the least signed word of 64 bits, where one in such words would overflow. -/
def close (c : Counters) (hot : HotDelta) (date : DateTime) : OkDelta :=
  ⟨hot.deltaNum, date, hot.cnFrom, max c.lastCn (hot.cnFrom - 1)⟩

def afterClose (c : Counters) (hot : HotDelta) : Counters :=
  { c with lastDeltaNum := some hot.deltaNum }

end Counters

def HotDelta.failedAt (hot : HotDelta) (sysCn : Int) : HotDelta :=
  { hot with rollingBack := true, failedCn := some sysCn }

end DeltaLedger
