import DeltaLedger.NodeTree.Tree

/-!
# Store calls

The calls a client can make and the kind of result each of them has. A tree answers every call at once; clients that
share a tree interleave at calls and nowhere else.
-/

namespace DeltaLedger

inductive Call where
  | stat (path : String)
  | read (path : String)
  | create (path : String) (data : List UInt8)
  | write (path : String) (data : List UInt8) (expected : Option Int)
  | delete (path : String) (expected : Option Int)
  | children (path : String)
  | transact (steps : List Step)
  deriving DecidableEq, Repr

namespace Call

def paths : Call → List String
  | stat path => [path]
  | read path => [path]
  | create path _ => [path]
  | write path _ _ => [path]
  | delete path _ => [path]
  | children path => [path]
  | transact steps => steps.map Step.path

abbrev Result : Call → Type
  | stat _ => Option Stat
  | read _ => Option Node
  | create _ _ => WriteOutcome
  | write _ _ _ => WriteOutcome
  | delete _ _ => WriteOutcome
  | children _ => List String
  | transact _ => Outcome

abbrev Reply (c : Call) : Type :=
  Except StoreError c.Result

end Call

namespace Tree

/-- What `f` makes of a path given as text. -/
def atPath {α : Type} (path : String) (f : Path → Except StoreError α) : Except StoreError α :=
  match Path.parse path with
  | .error fault => .error (.badPath fault)
  | .ok p => f p

def answer (t : Tree) : (c : Call) → c.Reply × Tree
  | .stat path => (atPath path fun p => .ok ((t.find? p).map (Node.stat path)), t)
  | .read path => (atPath path fun p => .ok (t.find? p), t)
  | .create path data => t.alter ⟨path, .create data⟩
  | .write path data expected => t.alter ⟨path, .write data expected⟩
  | .delete path expected => t.alter ⟨path, .delete expected⟩
  | .children path =>
    (atPath path fun p => if t.has p then .ok (t.childNames p) else .error (.nodeMissing path), t)
  | .transact steps => t.transact steps

end Tree
end DeltaLedger
