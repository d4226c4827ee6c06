import DeltaLedger.Epoch.Failure
import DeltaLedger.NodeTree.Tree

/-!
# Notices

What a request lets the outside know about while it runs: events for the log, the span they belong to, and
measurements. Notices have no influence on the request.
-/

namespace DeltaLedger

inductive Level where
  | debug
  | info
  | warn
  deriving DecidableEq, Repr

def Level.text : Level → String
  | debug => "DEBUG"
  | info => "INFO"
  | warn => "WARN"

inductive Event where
  | nodeCreated (path : String)
  | opened (deltaNum cnFrom : Int)
  | committed (ok : OkDelta)
  | markedFailed (deltaNum failedCn : Int)
  | discarded (deltaNum : Int) (writes : Nat)
  | registered (table : String) (sysCn : Int)
  | completed (sysCn : Int) (status : WriteStatus)
  | withdrawn (sysCn : Int) (table : String)
  | aborted (operation : Operation) (index : Nat) (path : String) (conflict : Conflict)
  | retrying (operation : Operation) (attempt limit : Nat)
  | rejected (failure : Failure)
  deriving DecidableEq

inductive FieldValue where
  | number (n : Int)
  | text (s : String)
  deriving DecidableEq, Repr

def Conflict.logText : Conflict → String
  | nodeExists => "NodeExists"
  | noNode => "NoNode"
  | badVersion current => "BadVersion \x7b current_version: " ++ Decimal.ofInt current ++ " \x7d"
  | notEmpty => "NotEmpty"

namespace Event

def level : Event → Level
  | nodeCreated _ | registered _ _ | completed _ _ | withdrawn _ _ | aborted _ _ _ _ => .debug
  | opened _ _ | committed _ | markedFailed _ _ | discarded _ _ => .info
  | retrying _ _ _ => .warn
  | rejected failure => if failure.isAlarming then .warn else .debug

def message : Event → String
  | nodeCreated _ => "created namespace node"
  | opened _ _ => "opened hot delta"
  | committed _ => "committed delta"
  | markedFailed _ _ => "marked hot delta as failed"
  | discarded _ _ => "deleted hot delta"
  | registered _ _ => "registered write operation"
  | completed _ _ => "completed write operation"
  | withdrawn _ _ => "deleted write operation"
  | aborted _ _ _ _ => "delta transaction aborted"
  | retrying _ _ _ => "concurrent delta update detected; retrying"
  | rejected failure => if failure.isAlarming then "delta operation failed" else "delta operation rejected"

def fields : Event → List (String × FieldValue)
  | nodeCreated path => [("path", .text path)]
  | opened deltaNum cnFrom => [("delta_num", .number deltaNum), ("cn_from", .number cnFrom)]
  | committed ok =>
    [("delta_num", .number ok.deltaNum), ("cn_from", .number ok.cnFrom), ("cn_to", .number ok.cnTo),
      ("delta_date", .text ok.deltaDate.messageText)]
  | markedFailed deltaNum failedCn => [("delta_num", .number deltaNum), ("failed_cn", .number failedCn)]
  | discarded deltaNum writes => [("delta_num", .number deltaNum), ("discarded_write_ops", .number writes)]
  | registered table sysCn => [("table", .text table), ("sys_cn", .number sysCn)]
  | completed sysCn status => [("sys_cn", .number sysCn), ("status", .text status.text)]
  | withdrawn sysCn table => [("sys_cn", .number sysCn), ("table", .text table)]
  | aborted operation index path conflict =>
    [("operation", .text operation.name), ("index", .number index), ("path", .text path),
      ("conflict", .text conflict.logText)]
  | retrying operation attempt limit =>
    [("operation", .text operation.name), ("attempt", .number attempt), ("max_attempts", .number limit)]
  | rejected failure => [("error", .text failure.message), ("kind", .text failure.kind)]

end Event

structure Span where
  operation : Operation
  environment : String
  datamart : String
  deriving DecidableEq, Repr

inductive Measurement where
  /-- An operation ended, with `ok` or the kind of its failure. -/
  | finished (operation : Operation) (outcome : String)
  /-- An attempt of an operation lost its race. -/
  | retried (operation : Operation)
  deriving DecidableEq, Repr

inductive Notice where
  | entered (span : Span)
  | left
  | event (e : Event)
  | measured (m : Measurement)
  deriving DecidableEq

end DeltaLedger
