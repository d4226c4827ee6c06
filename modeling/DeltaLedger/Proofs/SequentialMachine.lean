import DeltaLedger.Proofs.Places
import DeltaLedger.Coordinator.Request

/-!
# The machine of a datamart

What a datamart is to clients that take turns: the open epoch, its ledger in the order
of change numbers, the next change number, and the ok deltas, of which the delta number
is the place in the list.  The machine knows nothing of nodes, versions or attempts.
-/

namespace DeltaLedger

structure Machine where
  hot : Option HotDelta
  ledger : List WriteOperation
  nextCn : Int
  oks : List OkDelta
  deriving DecidableEq

namespace Machine

def initial : Machine :=
  ⟨none, [], 0, []⟩

/-- An answer and the machine after it, or a failure that leaves the machine as it is. -/
abbrev Outcome :=
  Except Failure (Response × Machine)

/-- Why a command is refused whatever the machine: a registration has to name a table. -/
def refusal? : Command → Option Failure
  | .registerWrite r => if r.tableName.toList.all Text.isBlank then some .noTableName else none
  | _ => none

section Commands

variable (m : Machine) (datamart : String)

def entry? (n : Int) : Option WriteOperation :=
  m.ledger.find? fun w => w.sysCn = n

def busy? (table : String) : Option WriteOperation :=
  m.ledger.find? fun w => w.tableName = table ∧ w.status = .inProgress

def pending : List Int :=
  (m.ledger.filter fun w => w.status = .inProgress).map WriteOperation.sysCn

def openDelta (now : DateTime) : Outcome :=
  match m.hot with
  | some hot => .error (.alreadyOpen datamart hot.deltaNum)
  | none =>
    let hot : HotDelta := ⟨m.oks.length, now, m.nextCn, false, none⟩
    .ok (.hotDelta hot, { m with hot := some hot })

def committed (hot : HotDelta) (date : DateTime) : Machine :=
  { m with
    hot := none
    ledger := []
    oks := m.oks ++ [⟨hot.deltaNum, date, hot.cnFrom, max (m.nextCn - 1) (hot.cnFrom - 1)⟩] }

def commitDelta (date : DateTime) : Outcome :=
  match m.hot with
  | none => .error (.noHotDelta datamart)
  | some hot =>
    if hot.rollingBack then .error (.rollingBack datamart hot.deltaNum)
    else if m.pending ≠ [] then .error (.notFinished datamart m.pending)
    else
      match m.oks.getLast? with
      | none => .ok (.done, m.committed hot date)
      | some last =>
        if date < last.deltaDate then .error (.dateTooEarly date last)
        else .ok (.done, m.committed hot date)

def failDelta (n : Int) : Outcome :=
  match m.hot with
  | none => .error (.noHotDelta datamart)
  | some hot => .ok (.done, { m with hot := some { hot with rollingBack := true, failedCn := some n } })

def discardDelta : Outcome :=
  match m.hot with
  | none => .error (.noHotDelta datamart)
  | some _ => .ok (.done, { m with hot := none, ledger := [] })

def registered (r : Registration) : Machine :=
  { m with
    ledger := m.ledger ++
      [⟨datamart, r.tableName, r.tableNameExt, r.query, m.nextCn, .inProgress⟩]
    nextCn := m.nextCn + 1 }

def registerWrite (r : Registration) : Outcome :=
  match m.hot with
  | none => .error (.noHotDeltaForWrite datamart)
  | some hot =>
    if hot.rollingBack then .error (.rollingBack datamart hot.deltaNum)
    else
      match m.busy? r.tableName with
      | some w => .error (.tableBlocked datamart r.tableName w.sysCn)
      | none => .ok (.sysCn m.nextCn, m.registered datamart r)

def finished (n : Int) (status : WriteStatus) : Machine :=
  { m with ledger := m.ledger.map fun w => if w.sysCn = n then { w with status } else w }

def finishWrite (n : Int) (status : WriteStatus) : Outcome :=
  match m.hot, m.entry? n with
  | none, _ => .error (.noHotDelta datamart)
  | some _, none => .error (.noWrite datamart n)
  | some _, some w =>
    if w.status = status then .ok (.done, m)
    else if w.status ≠ .inProgress then .error (.alreadyFinished datamart n w.status)
    else .ok (.done, m.finished n status)

def withdrawn (n : Int) : Machine :=
  { m with ledger := m.ledger.filter fun w => w.sysCn ≠ n }

def withdrawWrite (n : Int) : Outcome :=
  match m.hot, m.entry? n with
  | none, _ => .error (.noHotDelta datamart)
  | some _, none => .error (.noWrite datamart n)
  | some _, some _ => .ok (.done, m.withdrawn n)

def readHot : Outcome :=
  match m.hot with
  | none => .error (.noHotDelta datamart)
  | some hot => .ok (.hotDelta hot, m)

def readLatest : Outcome :=
  match m.oks.getLast? with
  | none => .error (.nothingCommitted datamart)
  | some ok => .ok (.okDelta ok, m)

/-- The ok delta of a number; there is none for a negative number. -/
def ok? (n : Int) : Option OkDelta :=
  if 0 ≤ n then m.oks[n.toNat]? else none

def readByNumber (n : Int) : Outcome :=
  match m.ok? n, m.hot with
  | some ok, _ => .ok (.okDelta ok, m)
  | none, none => .error (.noOkDelta datamart n)
  | none, some hot =>
    if hot.deltaNum = n then .error (.stillHot datamart n) else .error (.noOkDelta datamart n)

def readAsOf (t : DateTime) : Outcome :=
  match m.oks.reverse.find? fun ok => ok.deltaDate ≤ t with
  | none => .error (.nothingCommittedBy datamart t)
  | some ok => .ok (.okDelta ok, m)

def readLedger : Outcome :=
  match m.hot with
  | none => .ok (.writes [], m)
  | some _ => .ok (.writes (m.ledger.filter fun w => w.status ≠ .success), m)

/-- Carries out a command; `now` is the local time. -/
def perform (now : DateTime) : Command → Outcome
  | .openDelta => m.openDelta datamart now
  | .commitDelta date => m.commitDelta datamart (date.getD now).wholeSecond
  | .failDelta n => m.failDelta datamart n
  | .discardDelta => m.discardDelta datamart
  | .registerWrite r => m.registerWrite datamart r
  | .succeedWrite n => m.finishWrite datamart n .success
  | .failWrite n => m.finishWrite datamart n .error
  | .withdrawWrite n => m.withdrawWrite datamart n
  | .readHot => m.readHot datamart
  | .readLatest => m.readLatest datamart
  | .readByNumber n => m.readByNumber datamart n
  | .readAsOf t => m.readAsOf datamart t
  | .readLedger => m.readLedger

end Commands

/-- The counters are below the end of their range. -/
def Fits (m : Machine) : Prop :=
  Decimal.Fits (m.nextCn + 1) ∧ Decimal.Fits m.oks.length

instance (m : Machine) : Decidable m.Fits :=
  inferInstanceAs (Decidable (_ ∧ _))

end Machine

/-- The change number that a command writes into the hot delta. -/
def Command.failedCn? : Command → Option Int
  | .failDelta n => some n
  | _ => none

/-- The change number that a command writes fits its field. -/
def Command.Fits (command : Command) : Prop :=
  ∀ n ∈ command.failedCn?, Decimal.Fits n

instance (command : Command) : Decidable command.Fits :=
  inferInstanceAs (Decidable (∀ n ∈ command.failedCn?, Decimal.Fits n))

/-! ## Many datamarts -/

/-- A request with the coordinator that serves it and the time that the clock shows. -/
structure Errand where
  coordinator : Coordinator
  request : Request
  time : DateTime

namespace Errand

/-- The local time of the coordinator in whole seconds. -/
def now (v : Errand) : DateTime :=
  (v.time.atOffset v.coordinator.zone).wholeSecond

end Errand

/-- The machines of all datamarts that have a root. -/
abbrev World :=
  Site → Option Machine

namespace World

/-- What an outcome of the machine of a datamart is to the whole. -/
def after (w : World) (s : Site) : Machine.Outcome → Except Failure Response × World
  | .error failure => (.error failure, w)
  | .ok (response, m) => (.ok response, Function.update w s (some m))

/-- Carries out a request in the machine of its datamart. -/
def serve (w : World) (v : Errand) : Except Failure Response × World :=
  match Machine.refusal? v.request.command, Datamart.parseName v.request.datamart with
  | some failure, _ => (.error failure, w)
  | none, .error e => (.error (.badRequest e.message), w)
  | none, .ok name =>
    match w ⟨v.coordinator.env, name⟩ with
    | none => (.error (.noDatamart v.request.datamart), w)
    | some m =>
      w.after ⟨v.coordinator.env, name⟩ (m.perform v.request.datamart v.now v.request.command)

def serveAll (w : World) : List Errand → List (Except Failure Response) × World
  | [] => ([], w)
  | v :: vs => ((w.serve v).1 :: ((w.serve v).2.serveAll vs).1, ((w.serve v).2.serveAll vs).2)

/-- The machine of the datamart that a request names. -/
def machine? (w : World) (v : Errand) : Option Machine :=
  match Datamart.parseName v.request.datamart with
  | .ok name => w ⟨v.coordinator.env, name⟩
  | .error _ => none

/-- Before every request, the counters of its datamart are below their limits. -/
def Within (w : World) : List Errand → Prop
  | [] => True
  | v :: vs =>
    v.request.command.Fits ∧ (∀ m ∈ w.machine? v, m.Fits) ∧ (w.serve v).2.Within vs

instance Within.decide (w : World) : (vs : List Errand) → Decidable (w.Within vs)
  | [] => .isTrue trivial
  | v :: vs =>
    have := Within.decide (w.serve v).2 vs
    inferInstanceAs (Decidable (_ ∧ _ ∧ _))

/-- The machines of the datamarts that have a root in a tree, without epochs. -/
def start (t : Tree) : World :=
  fun s => if t.has s.root then some .initial else none

end World

/-- Serves requests one after another, each of them alone. -/
def Tree.serveAll (t : Tree) : List Errand → List (Except Failure Response) × Tree
  | [] => ([], t)
  | v :: vs =>
    let (result, t') := (v.coordinator.serve v.request).runAlone v.time t
    (result :: (t'.serveAll vs).1, (t'.serveAll vs).2)

end DeltaLedger
