import DeltaLedger.Calendar.Offset
import DeltaLedger.Datamart.Name
import DeltaLedger.Json.Record
import DeltaLedger.Json.Value

/-!
# Settings

What a coordinator is told at its start: the environment, the time zone of dates, and how often it attempts a
change before it gives up. Settings come from environment variables or from JSON; settings that pass their check
make a coordinator.
-/

namespace DeltaLedger

structure Settings where
  envName : String
  zone : Offset
  attempts : Nat
  deriving DecidableEq

structure Coordinator where
  env : Name
  zone : Offset
  attempts : Nat
  attempts_pos : 0 < attempts
  deriving DecidableEq

namespace Settings

def standard : Settings :=
  ⟨"dev", .utc, 16⟩

instance : Inhabited Settings := ⟨standard⟩

inductive CountFault where
  | badDigit
  | tooLarge
  deriving DecidableEq, Repr

def CountFault.message : CountFault → String
  | .badDigit => "invalid digit found in string"
  | .tooLarge => "number too large to fit in target type"

/-- Reads digits behind a number below 2^64, up to the first one that is wrong or too much. -/
def countFrom (n : Nat) : List Char → Except CountFault Nat
  | [] => .ok n
  | c :: cs =>
    match Offset.digit? c with
    | none => .error .badDigit
    | some d => if 10 * n + d < UInt64.size then countFrom (10 * n + d) cs else .error .tooLarge

/-- Reads a count below 2^64, which may have a plus sign. -/
def parseCount (cs : List Char) : Except CountFault Nat :=
  match cs with
  | [] => .error .badDigit
  | ['+'] => .error .badDigit
  | '+' :: cs => countFrom 0 cs
  | cs => countFrom 0 cs

inductive Fault where
  | badName (fault : Name.Fault)
  | badZone (fault : Offset.Fault)
  | badCount (fault : CountFault)
  | noAttempts
  deriving DecidableEq, Repr

def nameVariable : String := "DTM_ENV_NAME"

def zoneVariable : String := "DTM_TIME_ZONE"

def attemptsVariable : String := "DTM_DELTA_MAX_CAS_RETRIES"

def Fault.message : Fault → String
  | .badName fault => fault.message nameVariable
  | .badZone fault => zoneVariable ++ " must be a UTC offset such as +03:00: " ++ fault.message
  | .badCount fault => attemptsVariable ++ " must be a usize: " ++ fault.message
  | .noAttempts => attemptsVariable ++ " must be at least 1"

def Fault.error (fault : Fault) : StoreError :=
  .invalidInput fault.message

def coordinator (s : Settings) : Except Fault Coordinator :=
  match Name.parse s.envName with
  | .error fault => .error (.badName fault)
  | .ok env => if h : 0 < s.attempts then .ok ⟨env, s.zone, s.attempts, h⟩ else .error .noAttempts

/-- The value of an environment variable without blanks around it. A variable that is blank or not text counts as
unset. -/
def given? (value : Option (List UInt8)) : Option String := do
  let s ← Json.ofUtf8? (← value)
  let s := Text.trim s
  if s = "" then none else some s

def readZone (fallback : Offset) (value : Option String) : Except Fault Offset :=
  match value with
  | none => .ok fallback
  | some s =>
    match Offset.parse s with
    | .ok zone => .ok zone
    | .error fault => .error (.badZone fault)

def readAttempts (fallback : Nat) (value : Option String) : Except Fault Nat :=
  match value with
  | none => .ok fallback
  | some s =>
    match parseCount s.toList with
    | .ok n => .ok n
    | .error fault => .error (.badCount fault)

/-- Settings from the environment, which have to pass the check. -/
def ofEnvironment (lookup : String → Option (List UInt8)) : Except Fault Settings := do
  let envName := (given? (lookup nameVariable)).getD standard.envName
  let zone ← readZone standard.zone (given? (lookup zoneVariable))
  let attempts ← readAttempts standard.attempts (given? (lookup attemptsVariable))
  let s : Settings := ⟨envName, zone, attempts⟩
  let _ ← s.coordinator
  return s

def bytes (s : Settings) : List UInt8 :=
  Json.objectBytes
    [("env_name", .text s.envName), ("time_zone", .text s.zone.text), ("max_cas_retries", .integer s.attempts)]

def zone? (v : Json.Value) : Option Offset :=
  v.text?.bind fun s => (Offset.parse s).toOption

/-- Reads written settings, without checking them further. -/
def parse? (s : List UInt8) : Option Settings := do
  let v ← Json.Value.parse? s
  match ← v.fields? ["env_name", "time_zone", "max_cas_retries"] with
  | [envName, zone, attempts] =>
    let envName ← Json.required Json.Value.text? envName
    let zone ← Json.required zone? zone
    let attempts ← Json.required Json.Value.count? attempts
    some ⟨envName, zone, attempts⟩
  | _ => none

end Settings
end DeltaLedger
