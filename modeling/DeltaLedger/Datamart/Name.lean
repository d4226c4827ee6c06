import DeltaLedger.NodeTree.Error
import DeltaLedger.Text.Quoted

/-!
# Names of environments and datamarts

Names consist of lower-case letters, digits, underscores and hyphens, so a name is always a legal name of a node and
never adds a level to a path.
-/

namespace DeltaLedger

def Name.allows (c : Char) : Bool :=
  c.isLower || c.isDigit || c == '_' || c == '-'

structure Name where
  text : String
  nonempty : text ≠ ""
  allowed : ∀ c ∈ text.toList, Name.allows c
  deriving DecidableEq

namespace Name

inductive Fault where
  | empty
  | badCharacter (c : Char) (text : String)
  deriving DecidableEq, Repr

def Fault.message (field : String) : Fault → String
  | .empty => field ++ " cannot be empty"
  | .badCharacter c text => field ++ " contains invalid character " ++ Text.quotedChar c ++ ": " ++ text

/-- Reads a name. The first character that is not allowed is the one reported. -/
def parse (s : String) : Except Fault Name :=
  if h : s = "" then .error .empty
  else
    match hf : s.toList.find? fun c => !allows c with
    | some c => .error (.badCharacter c s)
    | none => .ok ⟨s, h, fun c hc => by simpa using List.find?_eq_none.1 hf c hc⟩

def parseField (field s : String) : Except StoreError Name :=
  match parse s with
  | .ok name => .ok name
  | .error fault => .error (.invalidInput (fault.message field))

/-- Every name is a legal name of a node. -/
theorem legal (name : Name) : LegalName name.text := by
  refine ⟨name.nonempty, fun h => ?_, fun h => ?_, fun h => ?_⟩
  · exact absurd (name.allowed _ h) (by decide)
  · exact absurd (name.allowed '.' (by simp [h])) (by decide)
  · exact absurd (name.allowed '.' (by simp [h])) (by decide)

end Name
end DeltaLedger
