import DeltaLedger.NodeTree.Path

/-!
# Errors of a store

What a store answers when it cannot give a result. A precondition that does not hold is a result and no error.
Only a storage error leaves open whether the call had an effect.
-/

namespace DeltaLedger

inductive StoreError where
  | storage (message : String)
  | storageDueTo (message : String) (cause : StoreError)
  | notFound (message : String)
  | invalidInput (message : String)
  | serialization (message : String)
  | internal (message : String)
  deriving DecidableEq, Repr

namespace StoreError

def message : StoreError → String
  | storage text => "storage error: " ++ text
  | storageDueTo text _ => "storage error: " ++ text
  | notFound text => "not found: " ++ text
  | invalidInput text => "invalid input: " ++ text
  | serialization text => "serialization error: " ++ text
  | internal text => "internal error: " ++ text

def cause? : StoreError → Option StoreError
  | storageDueTo _ cause => some cause
  | _ => none

/-- The store was unreachable, so that the effect of the call is unknown. -/
def isUnavailable : StoreError → Bool
  | storage _ => true
  | storageDueTo _ _ => true
  | _ => false

def badPath (fault : Path.Fault) : StoreError :=
  invalidInput fault.message

def nodeMissing (path : String) : StoreError :=
  notFound ("node not found: " ++ path)

def parentMissing (path : String) : StoreError :=
  notFound ("parent node missing for " ++ path)

def nodeHasChildren (path : String) : StoreError :=
  invalidInput ("cannot delete " ++ path ++ ": node has children")

end StoreError
end DeltaLedger
