import DeltaLedger.Datamart.Name
import DeltaLedger.Program.Basic

/-!
# Roots of datamarts

Every environment has a node below the root of the tree, and every datamart one below its environment. A datamart takes
part only when its root exists; making the root twice, or by two clients at once, is harmless.
-/

namespace DeltaLedger
namespace Datamart

def envPath (env : Name) : String :=
  Path.join "/" env.text

def rootPath (env datamart : Name) : String :=
  Path.join (envPath env) datamart.text

def parseName (datamart : String) : Except StoreError Name :=
  Name.parseField "datamart" datamart

def parseRoot (env : Name) (datamart : String) : Except StoreError String :=
  match parseName datamart with
  | .ok name => .ok (rootPath env name)
  | .error e => .error e

def rootExists (env : Name) (datamart : String) : Program StoreError Bool := do
  let root ← Program.ofExcept (parseRoot env datamart)
  let stat ← Program.request (.stat root) id
  return stat.isSome

/-- Creates an empty node unless there is one. -/
def ensureNode (path : String) : Program StoreError Unit := do
  match ← Program.request (.create path []) id with
  | .done _ => Program.log (.nodeCreated path)
  | .refused _ => return ()

/-- Creates the root of a datamart and its environment, as far as they are missing. Gives the path of the root. -/
def ensureRoot (env : Name) (datamart : String) : Program StoreError String := do
  let root ← Program.ofExcept (parseRoot env datamart)
  ensureNode (envPath env)
  ensureNode root
  return root

end Datamart
end DeltaLedger
