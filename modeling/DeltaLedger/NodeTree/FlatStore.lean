import DeltaLedger.NodeTree.Call

/-!
# Flat stores

The nodes of a tree in one map, from the texts of their paths and in the order of the texts. What lies below a path is
found by the beginning that the texts share: the children by a scan from that beginning to the first text without it,
and whether there is anything at all by a look at the first text of the scan. Versions are signed words of 32 bits: a
write that would lead past the greatest of them overflows, and a call that comes to such a write has no answer here.
-/

namespace DeltaLedger

structure FlatStore where
  nodes : Std.ExtTreeMap String Node

namespace FlatStore

def empty : FlatStore :=
  ⟨∅⟩

/-- The greatest version: the last signed word of 32 bits. -/
def lastVersion : Nat := 2_147_483_647

/-- The version after one more write, unless it overflows. -/
def nextVersion? (version : Nat) : Option Nat :=
  if version < lastVersion then some (version + 1) else none

/-- The node at a path, the root included. -/
def find? (f : FlatStore) (path : String) : Option Node :=
  f.nodes[path]? <|> if path = "/" then some ⟨[], 0⟩ else none

def has (f : FlatStore) (path : String) : Bool :=
  path == "/" || f.nodes.contains path

def put (f : FlatStore) (path : String) (node : Node) : FlatStore :=
  ⟨f.nodes.insert path node⟩

def drop (f : FlatStore) (path : String) : FlatStore :=
  ⟨f.nodes.erase path⟩

theorem getElem?_put (f : FlatStore) (path key : String) (node : Node) :
    (f.put path node).nodes[key]? = if path = key then some node else f.nodes[key]? := by
  simp [put, Std.ExtTreeMap.getElem?_insert]

theorem getElem?_drop (f : FlatStore) (path key : String) :
    (f.drop path).nodes[key]? = if path = key then none else f.nodes[key]? := by
  simp [drop, Std.ExtTreeMap.getElem?_erase]

/-! ## Scans -/

/-- What the text of everything below a path begins with. -/
def childStart (path : String) : String :=
  if path = "/" then "/" else path ++ "/"

def startsWith (start key : String) : Bool :=
  start.toList.isPrefixOf key.toList

/-- The keys from a text on, in their order. -/
def keysFrom (f : FlatStore) (start : String) : List String :=
  f.nodes.keys.filter fun key => (compare start key).isLE

/-- What is left of a key behind a beginning, if it is a single name. -/
def nameBehind? (start key : String) : Option String :=
  let rest := key.toList.drop start.toList.length
  if '/' ∈ rest then none else some (String.ofList rest)

def childNames (f : FlatStore) (path : String) : List String :=
  let start := childStart path
  ((f.keysFrom start).takeWhile (startsWith start)).filterMap (nameBehind? start)

def hasChildren (f : FlatStore) (path : String) : Bool :=
  let start := childStart path
  (f.keysFrom start).head?.any (startsWith start)

/-! ## Changes -/

/-- Changes one node. Gives the node's version, after a write or before a removal, and the store. -/
def change (f : FlatStore) (path : String) : Change → Option (Except Conflict (Nat × FlatStore))
  | .create data =>
    if f.has path then some (.error .nodeExists)
    else if (Path.parentText? path).any f.has then some (.ok (0, f.put path ⟨data, 0⟩))
    else some (.error .noNode)
  | .write data expected =>
    match f.nodes[path]? with
    | none => some (.error .noNode)
    | some node =>
      if Tree.meets expected node.version then
        (nextVersion? node.version).map fun version => .ok (version, f.put path ⟨data, version⟩)
      else some (.error (.badVersion node.version))
  | .delete expected =>
    match f.nodes[path]? with
    | none => some (.error .noNode)
    | some node =>
      if Tree.meets expected node.version then
        if f.hasChildren path then some (.error .notEmpty) else some (.ok (node.version, f.drop path))
      else some (.error (.badVersion node.version))
  | .check expected =>
    match f.find? path with
    | none => some (.error .noNode)
    | some node =>
      if expected = node.version then some (.ok (node.version, f))
      else some (.error (.badVersion node.version))

def step (f : FlatStore) (s : Step) : Option (Except Refusal (Nat × FlatStore)) :=
  match Path.parse s.path with
  | .error fault => some (.error (.badPath fault))
  | .ok _ =>
    match f.change s.path s.change with
    | none => none
    | some (.error conflict) => some (.error (.conflict conflict))
    | some (.ok result) => some (.ok result)

/-- Takes steps one after another; the first of them has the given index. -/
def stepsFrom (index : Nat) (f : FlatStore) : List Step → Option (Except Stop FlatStore)
  | [] => some (.ok f)
  | s :: steps =>
    match f.step s with
    | none => none
    | some (.error refusal) => some (.error ⟨index, s.path, refusal⟩)
    | some (.ok (_, f)) => stepsFrom (index + 1) f steps

/-- Takes steps on a copy that replaces the store if none of them is refused. -/
def transact (f : FlatStore) (steps : List Step) : Option (Except StoreError Outcome × FlatStore) :=
  match f.stepsFrom 0 steps with
  | none => none
  | some (.ok f) => some (.ok .committed, f)
  | some (.error ⟨_, _, .badPath fault⟩) => some (.error (.badPath fault), f)
  | some (.error ⟨index, path, .conflict conflict⟩) => some (.ok (.aborted index path conflict), f)

def version? (f : FlatStore) (path : String) : Option Nat :=
  (f.find? path).map Node.version

/-- What a single change answers when a conflict kept it from happening. -/
def afterConflict (f : FlatStore) (s : Step) : Conflict → Except StoreError WriteOutcome
  | .noNode =>
    match s.change with
    | .create _ => .error (.parentMissing s.path)
    | _ => .ok (.refused (f.version? s.path))
  | .notEmpty => .error (.nodeHasChildren s.path)
  | _ => .ok (.refused (f.version? s.path))

def alter (f : FlatStore) (s : Step) : Option (Except StoreError WriteOutcome × FlatStore) :=
  match f.step s with
  | none => none
  | some (.ok (version, f)) => some (.ok (.done version), f)
  | some (.error (.badPath fault)) => some (.error (.badPath fault), f)
  | some (.error (.conflict conflict)) => some (f.afterConflict s conflict, f)

/-! ## Calls -/

def stat (f : FlatStore) (path : String) : Except StoreError (Option Stat) :=
  Tree.atPath path fun _ => .ok ((f.find? path).map (Node.stat path))

def read (f : FlatStore) (path : String) : Except StoreError (Option Node) :=
  Tree.atPath path fun _ => .ok (f.find? path)

def children (f : FlatStore) (path : String) : Except StoreError (List String) :=
  Tree.atPath path fun _ =>
    if f.has path then .ok (f.childNames path) else .error (.nodeMissing path)

def answer (f : FlatStore) : (c : Call) → Option (c.Reply × FlatStore)
  | .stat path => some (f.stat path, f)
  | .read path => some (f.read path, f)
  | .create path data => f.alter ⟨path, .create data⟩
  | .write path data expected => f.alter ⟨path, .write data expected⟩
  | .delete path expected => f.alter ⟨path, .delete expected⟩
  | .children path => some (f.children path, f)
  | .transact steps => f.transact steps

end FlatStore
end DeltaLedger
