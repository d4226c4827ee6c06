import DeltaLedger.Epoch.Failure
import DeltaLedger.Json.Record
import DeltaLedger.Json.Value

/-!
# Stored records

How records are kept as payloads of nodes: as JSON with their fields in a fixed order. A record is written only when its
numbers fit 64 bits, and what is read back is the record that was written.
-/

namespace DeltaLedger

open Json

/-- A record that is kept in a node. -/
class Stored (α : Type) where
  /-- What the record is called in messages. -/
  kind : String
  /-- The fields in their written order. A number that is absent is left out. -/
  fields : α → List (String × Scalar)
  /-- The record that a value of JSON is. -/
  read? : Value → Option α

namespace Stored

def fits : Scalar → Bool
  | .integer n => decide (Decimal.Fits n)
  | _ => true

/-- The payload of a record. Counters are kept in signed words of 64 bits, and only an addition can lead out of their range,
where it overflows. The error stands for that overflow and for nothing else: putting a record into words never fails. -/
def encode {α : Type} [Stored α] (record : α) : Except Failure (List UInt8) :=
  if (fields record).all fun field => fits field.2 then .ok (objectBytes (fields record))
  else .error (.serialization ("failed to serialize " ++ kind α))

def decode (α : Type) [Stored α] (path : String) (payload : List UInt8) : Except Failure α :=
  match (Value.parse? payload).bind read? with
  | some record => .ok record
  | none => .error (.serialization ("failed to deserialize " ++ kind α ++ " at " ++ path))

def optionalField (name : String) : Option Int → List (String × Scalar)
  | none => []
  | some n => [(name, .integer n)]

def dateTime? (v : Value) : Option DateTime :=
  v.text?.bind DateTime.parse?

def status? (v : Value) : Option WriteStatus :=
  v.choice?.bind WriteStatus.ofText?

end Stored

open Stored

instance : Stored HotDelta where
  kind := "hot delta"
  fields hot :=
    [("deltaNum", .integer hot.deltaNum), ("openedAt", .text hot.openedAt.recordText),
      ("cnFrom", .integer hot.cnFrom), ("rollingBack", .bool hot.rollingBack)] ++
      optionalField "failedCn" hot.failedCn
  read? v := do
    match ← v.fields? ["deltaNum", "openedAt", "cnFrom", "rollingBack", "failedCn"] with
    | [deltaNum, openedAt, cnFrom, rollingBack, failedCn] =>
      let deltaNum ← required Value.int? deltaNum
      let openedAt ← required dateTime? openedAt
      let cnFrom ← required Value.int? cnFrom
      let rollingBack ← optional Value.bool? false rollingBack
      let failedCn ← optional (Value.optional? Value.int?) none failedCn
      some ⟨deltaNum, openedAt, cnFrom, rollingBack, failedCn⟩
    | _ => none

instance : Stored OkDelta where
  kind := "ok delta"
  fields ok :=
    [("deltaNum", .integer ok.deltaNum), ("deltaDate", .text ok.deltaDate.recordText),
      ("cnFrom", .integer ok.cnFrom), ("cnTo", .integer ok.cnTo)]
  read? v := do
    match ← v.fields? ["deltaNum", "deltaDate", "cnFrom", "cnTo"] with
    | [deltaNum, deltaDate, cnFrom, cnTo] =>
      let deltaNum ← required Value.int? deltaNum
      let deltaDate ← required dateTime? deltaDate
      let cnFrom ← required Value.int? cnFrom
      let cnTo ← required Value.int? cnTo
      some ⟨deltaNum, deltaDate, cnFrom, cnTo⟩
    | _ => none

instance : Stored WriteOperation where
  kind := "write operation"
  fields w :=
    [("datamart", .text w.datamart), ("tableName", .text w.tableName), ("tableNameExt", .text w.tableNameExt),
      ("query", .text w.query), ("sysCn", .integer w.sysCn), ("status", .text w.status.text)]
  read? v := do
    match ← v.fields? ["datamart", "tableName", "tableNameExt", "query", "sysCn", "status"] with
    | [datamart, tableName, tableNameExt, query, sysCn, status] =>
      let datamart ← required Value.text? datamart
      let tableName ← required Value.text? tableName
      let tableNameExt ← required Value.text? tableNameExt
      let query ← required Value.text? query
      let sysCn ← required Value.int? sysCn
      let status ← required status? status
      some ⟨datamart, tableName, tableNameExt, query, sysCn, status⟩
    | _ => none

instance : Stored Counters where
  kind := "delta sequence"
  fields c := ("nextCn", .integer c.nextCn) :: optionalField "lastDeltaNum" c.lastDeltaNum
  read? v := do
    match ← v.fields? ["nextCn", "lastDeltaNum"] with
    | [nextCn, lastDeltaNum] =>
      let nextCn ← required Value.int? nextCn
      let lastDeltaNum ← optional (Value.optional? Value.int?) none lastDeltaNum
      some ⟨nextCn, lastDeltaNum⟩
    | _ => none

end DeltaLedger
