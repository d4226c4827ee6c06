import DeltaLedger.NodeTree.Error

/-!
# Trees of versioned nodes

A tree keeps one node per path, with a payload and a version that counts the writes since the node was created. The root
is always there, empty and unwritten, and is not stored. A change of one node either gives the tree after it or names
the conflict that kept it from happening; a transaction is a list of changes, each on the tree left by those before it.
-/

namespace DeltaLedger

/-- A node: its payload, and how often it was written since it was created. A store keeps the version in a signed word of
32 bits; here it has no limit, so a tree stands for such a store only while every node is written fewer than 2^31 times. -/
structure Node where
  data : List UInt8
  version : Nat
  deriving DecidableEq, Repr

/-- What a store tells about a node without its payload. -/
structure Stat where
  path : String
  version : Nat
  size : Nat
  /-- The node is the root, which nobody created. -/
  implicit : Bool
  deriving DecidableEq, Repr

def Node.stat (path : String) (node : Node) : Stat :=
  ⟨path, node.version, node.data.length, path == "/"⟩

/-- A change of one node. An expected version that is left out is not compared. -/
inductive Change where
  | create (data : List UInt8)
  | write (data : List UInt8) (expected : Option Int)
  | delete (expected : Option Int)
  | check (expected : Int)
  deriving DecidableEq, Repr

inductive Conflict where
  | nodeExists
  | noNode
  | badVersion (current : Nat)
  | notEmpty
  deriving DecidableEq, Repr

structure Step where
  path : String
  change : Change
  deriving DecidableEq, Repr

namespace Step

def create (path : String) (data : List UInt8) : Step :=
  ⟨path, .create data⟩

def writeAt (path : String) (version : Nat) (data : List UInt8) : Step :=
  ⟨path, .write data (some version)⟩

def deleteAt (path : String) (version : Nat) : Step :=
  ⟨path, .delete (some version)⟩

def checkAt (path : String) (version : Nat) : Step :=
  ⟨path, .check version⟩

end Step

inductive Refusal where
  | badPath (fault : Path.Fault)
  | conflict (conflict : Conflict)
  deriving DecidableEq, Repr

structure Stop where
  index : Nat
  path : String
  refusal : Refusal
  deriving DecidableEq, Repr

inductive Outcome where
  | committed
  | aborted (index : Nat) (path : String) (conflict : Conflict)
  deriving DecidableEq, Repr

inductive WriteOutcome where
  /-- It happened; the version is the one after a write or before a removal. -/
  | done (version : Nat)
  /-- It did not happen; the version is the present one, if the node exists. -/
  | refused (current : Option Nat)
  deriving DecidableEq, Repr

structure Tree where
  nodes : Std.ExtTreeMap Path Node

namespace Tree

def empty : Tree :=
  ⟨∅⟩

instance : Inhabited Tree := ⟨empty⟩

/-- The node at a path, the root included. -/
def find? (t : Tree) (p : Path) : Option Node :=
  t.nodes[p]? <|> if p = Path.root then some ⟨[], 0⟩ else none

def has (t : Tree) (p : Path) : Bool :=
  (t.find? p).isSome

def childNames (t : Tree) (p : Path) : List String :=
  t.nodes.keys.filterMap p.childName?

def hasBelow (t : Tree) (p : Path) : Bool :=
  t.nodes.keys.any p.isAbove

def put (t : Tree) (p : Path) (node : Node) : Tree :=
  ⟨t.nodes.insert p node⟩

def drop (t : Tree) (p : Path) : Tree :=
  ⟨t.nodes.erase p⟩

theorem getElem?_put (t : Tree) (p q : Path) (node : Node) :
    (t.put p node).nodes[q]? = if p = q then some node else t.nodes[q]? := by
  simp [put, Std.ExtTreeMap.getElem?_insert]

theorem getElem?_drop (t : Tree) (p q : Path) :
    (t.drop p).nodes[q]? = if p = q then none else t.nodes[q]? := by
  simp [drop, Std.ExtTreeMap.getElem?_erase]

def meets (expected : Option Int) (version : Nat) : Bool :=
  expected.all (· == (version : Int))

/-- Changes one node. Gives the node's version, after a write or before a removal, and the tree. -/
def change (t : Tree) (p : Path) : Change → Except Conflict (Nat × Tree)
  | .create data =>
    if t.has p then .error .nodeExists
    else if p.parent?.any t.has then .ok (0, t.put p ⟨data, 0⟩)
    else .error .noNode
  | .write data expected =>
    match t.nodes[p]? with
    | none => .error .noNode
    | some node =>
      if meets expected node.version then .ok (node.version + 1, t.put p ⟨data, node.version + 1⟩)
      else .error (.badVersion node.version)
  | .delete expected =>
    match t.nodes[p]? with
    | none => .error .noNode
    | some node =>
      if meets expected node.version then
        if t.hasBelow p then .error .notEmpty else .ok (node.version, t.drop p)
      else .error (.badVersion node.version)
  | .check expected =>
    match t.find? p with
    | none => .error .noNode
    | some node =>
      if expected = node.version then .ok (node.version, t) else .error (.badVersion node.version)

def step (t : Tree) (s : Step) : Except Refusal (Nat × Tree) :=
  match Path.parse s.path with
  | .error fault => .error (.badPath fault)
  | .ok p =>
    match t.change p s.change with
    | .error conflict => .error (.conflict conflict)
    | .ok result => .ok result

/-- Takes steps one after another; the first of them has the given index. -/
def stepsFrom (index : Nat) (t : Tree) : List Step → Except Stop Tree
  | [] => .ok t
  | s :: steps =>
    match t.step s with
    | .error refusal => .error ⟨index, s.path, refusal⟩
    | .ok (_, t) => stepsFrom (index + 1) t steps

def transact (t : Tree) (steps : List Step) : Except StoreError Outcome × Tree :=
  match t.stepsFrom 0 steps with
  | .ok t => (.ok .committed, t)
  | .error ⟨_, _, .badPath fault⟩ => (.error (.badPath fault), t)
  | .error ⟨index, path, .conflict conflict⟩ => (.ok (.aborted index path conflict), t)

def version? (t : Tree) (path : String) : Option Nat :=
  match Path.parse path with
  | .error _ => none
  | .ok p => (t.find? p).map Node.version

/-- What a single change answers when a conflict kept it from happening. -/
def afterConflict (t : Tree) (s : Step) : Conflict → Except StoreError WriteOutcome
  | .noNode =>
    match s.change with
    | .create _ => .error (.parentMissing s.path)
    | _ => .ok (.refused (t.version? s.path))
  | .notEmpty => .error (.nodeHasChildren s.path)
  | _ => .ok (.refused (t.version? s.path))

def alter (t : Tree) (s : Step) : Except StoreError WriteOutcome × Tree :=
  match t.step s with
  | .ok (version, t) => (.ok (.done version), t)
  | .error (.badPath fault) => (.error (.badPath fault), t)
  | .error (.conflict conflict) => (t.afterConflict s conflict, t)

end Tree
end DeltaLedger
