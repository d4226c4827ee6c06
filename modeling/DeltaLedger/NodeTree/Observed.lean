import DeltaLedger.NodeTree.Call

/-!
# Observed trees

A tree under observation keeps a log of the calls it served and can be told to fail: every call that touches a path
with a given beginning, or a number of transactions to come. A call that fails this way leaves the tree and the log as
they were.
-/

namespace DeltaLedger

inductive Served where
  | stat (path : String)
  | read (path : String)
  | create (path : String)
  | write (path : String) (expected : Option Int)
  | delete (path : String)
  | children (path : String)
  | transact (paths : List String) (committed : Bool)
  deriving DecidableEq, Repr

/-- What a call that was let through adds to the log. A transaction without a result adds nothing. -/
def Call.served : (c : Call) → c.Reply → List Served
  | .stat path, _ => [.stat path]
  | .read path, _ => [.read path]
  | .create path _, _ => [.create path]
  | .write path _ expected, _ => [.write path expected]
  | .delete path _, _ => [.delete path]
  | .children path, _ => [.children path]
  | .transact steps, .ok outcome => [.transact (steps.map Step.path) (outcome == .committed)]
  | .transact _, .error _ => []

def Call.isTransaction : Call → Bool
  | .transact _ => true
  | _ => false

/-- A tree with its log, the newest entry first, and the failures it was told to produce. -/
structure ObservedTree where
  tree : Tree
  recent : List Served
  failingPaths : List String
  failingTransactions : Nat

namespace ObservedTree

def new : ObservedTree :=
  ⟨Tree.empty, [], [], 0⟩

instance : Inhabited ObservedTree := ⟨new⟩

def log (s : ObservedTree) : List Served :=
  s.recent.reverse

def transactions (s : ObservedTree) : List Served :=
  s.log.filter fun
    | .transact _ _ => true
    | _ => false

def clearLog (s : ObservedTree) : ObservedTree :=
  { s with recent := [] }

/-- Makes every call fail that touches a path with the given beginning. -/
def failAt (s : ObservedTree) (start : String) : ObservedTree :=
  { s with failingPaths := s.failingPaths ++ [start] }

/-- Makes the given number of transactions fail from now on. -/
def failTransactions (s : ObservedTree) (count : Nat) : ObservedTree :=
  { s with failingTransactions := count }

def clearFailures (s : ObservedTree) : ObservedTree :=
  { s with failingPaths := [], failingTransactions := 0 }

def failsAt (s : ObservedTree) (path : String) : Bool :=
  s.failingPaths.any fun start => start.toList.isPrefixOf path.toList

def failure? (s : ObservedTree) (c : Call) : Option StoreError :=
  if c.isTransaction && 0 < s.failingTransactions then
    some (.storage "injected transaction failure")
  else
    (c.paths.find? s.failsAt).map fun path => .storage ("injected failure for path: " ++ path)

def afterFailure (s : ObservedTree) (c : Call) : ObservedTree :=
  if c.isTransaction then { s with failingTransactions := s.failingTransactions - 1 } else s

def answer (s : ObservedTree) (c : Call) : c.Reply × ObservedTree :=
  match s.failure? c with
  | some e => (.error e, s.afterFailure c)
  | none =>
    let result := s.tree.answer c
    (result.1, { s with tree := result.2, recent := c.served result.1 ++ s.recent })

end ObservedTree
end DeltaLedger
