import DeltaLedger.Coordinator.Lifecycle
import DeltaLedger.Coordinator.Reads
import DeltaLedger.Coordinator.Writes
import DeltaLedger.Text.Blank

/-!
# Requests

A request names a datamart and a command. Serving it is a program that carries the command out and accounts for it: its
events belong to one span, a failure is logged, and its end is measured once.
-/

namespace DeltaLedger

inductive Command where
  | openDelta
  /-- The commit date is the local time unless it is given. -/
  | commitDelta (date : Option DateTime)
  | failDelta (sysCn : Int)
  | discardDelta
  | registerWrite (r : Registration)
  | succeedWrite (sysCn : Int)
  | failWrite (sysCn : Int)
  | withdrawWrite (sysCn : Int)
  | readHot
  | readLatest
  | readByNumber (deltaNum : Int)
  | readAsOf (t : DateTime)
  | readLedger
  deriving DecidableEq

/-- The operation that a command is an instance of. -/
def Command.operation : Command → Operation
  | openDelta => .openDelta
  | commitDelta _ => .commitDelta
  | failDelta _ => .failDelta
  | discardDelta => .discardDelta
  | registerWrite _ => .registerWrite
  | succeedWrite _ => .succeedWrite
  | failWrite _ => .failWrite
  | withdrawWrite _ => .withdrawWrite
  | readHot => .readHot
  | readLatest => .readLatest
  | readByNumber _ => .readByNumber
  | readAsOf _ => .readAsOf
  | readLedger => .readLedger

structure Request where
  datamart : String
  command : Command
  deriving DecidableEq

def Request.operation (r : Request) : Operation :=
  r.command.operation

inductive Response where
  | hotDelta (hot : HotDelta)
  | okDelta (ok : OkDelta)
  | sysCn (n : Int)
  | writes (entries : List WriteOperation)
  | done
  deriving DecidableEq

namespace Scope

def perform (s : Scope) : Command → Program Failure Response
  | .openDelta => Response.hotDelta <$> s.openDelta
  | .commitDelta date => (fun _ => .done) <$> s.commitDelta date
  | .failDelta sysCn => (fun _ => .done) <$> s.failDelta sysCn
  | .discardDelta => (fun _ => .done) <$> s.discardDelta
  | .registerWrite r => .sysCn <$> s.registerWrite r
  | .succeedWrite sysCn => (fun _ => .done) <$> s.finishWrite sysCn .success
  | .failWrite sysCn => (fun _ => .done) <$> s.finishWrite sysCn .error
  | .withdrawWrite sysCn => (fun _ => .done) <$> s.withdrawWrite sysCn
  | .readHot => .hotDelta <$> s.readHot
  | .readLatest => .okDelta <$> s.readLatest
  | .readByNumber deltaNum => .okDelta <$> s.readByNumber deltaNum
  | .readAsOf t => .okDelta <$> s.readAsOf t
  | .readLedger => .writes <$> s.readLedger

end Scope

namespace Command

/-- Why a command is refused without a look at the store. -/
def fault? : Command → Option Failure
  | registerWrite r => if Text.trim r.tableName = "" then some .noTableName else none
  | _ => none

end Command

namespace Coordinator

def execute (c : Coordinator) (r : Request) : Program Failure Response :=
  match r.command.fault? with
  | some failure => .fail failure
  | none => do
    let scope ← Scope.enter c r.operation r.datamart
    scope.perform r.command

def span (c : Coordinator) (r : Request) : Span :=
  ⟨r.operation, c.env.text, r.datamart⟩

def conclude (r : Request) (result : Except Failure Response) : Program Failure Response :=
  match result with
  | .ok _ =>
    .note .left <| .note (.measured (.finished r.operation "ok")) <| .done result
  | .error failure =>
    .note (.event (.rejected failure)) <| .note .left <|
      .note (.measured (.finished r.operation failure.kind)) <| .done result

def serve (c : Coordinator) (r : Request) : Program Failure Response :=
  .note (.entered (c.span r)) <| (c.execute r).andThen (conclude r)

end Coordinator
end DeltaLedger
