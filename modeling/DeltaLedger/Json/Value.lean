import DeltaLedger.Json.Token

/-!
# Values of JSON

A value is built from tokens with a stack of the brackets that are still open, so any depth of nesting is read
in one pass over the tokens. String literals stay undecoded inside a value: a value that nobody looks into is only
checked for its syntax.
-/

namespace DeltaLedger
namespace Json

inductive Value where
  | null
  | bool (b : Bool)
  | integer (negative : Bool) (digits : List Char)
  | fractional
  | string (parts : List Part)
  | array (items : List Value)
  | object (members : List (List Part × Value))

/-- A bracket that is still open, with what was read behind it, the newest first. -/
inductive Open where
  | array (items : List Value)
  | object (members : List (List Part × Value)) (key : List Part)

mutual

/-- Reads a value where one is due. -/
def readValue (stack : List Open) : List Token → Option Value
  | .null :: ts => readAfter stack .null ts
  | .bool b :: ts => readAfter stack (.bool b) ts
  | .integer negative digits :: ts => readAfter stack (.integer negative digits) ts
  | .fractional :: ts => readAfter stack .fractional ts
  | .string parts :: ts => readAfter stack (.string parts) ts
  | .openArray :: .closeArray :: ts => readAfter stack (.array []) ts
  | .openArray :: ts => readValue (.array [] :: stack) ts
  | .openObject :: .closeObject :: ts => readAfter stack (.object []) ts
  | .openObject :: .string key :: .colon :: ts => readValue (.object [] key :: stack) ts
  | _ => none

/-- Goes on after a finished value: closes brackets around it or starts its next sibling. -/
def readAfter (stack : List Open) (v : Value) : List Token → Option Value
  | [] => if stack.isEmpty then some v else none
  | .comma :: ts =>
    match stack, ts with
    | .array items :: stack, ts => readValue (.array (v :: items) :: stack) ts
    | .object members key :: stack, .string next :: .colon :: ts =>
      readValue (.object ((key, v) :: members) next :: stack) ts
    | _, _ => none
  | .closeArray :: ts =>
    match stack with
    | .array items :: stack => readAfter stack (.array (v :: items).reverse) ts
    | _ => none
  | .closeObject :: ts =>
    match stack with
    | .object members key :: stack => readAfter stack (.object ((key, v) :: members).reverse) ts
    | _ => none
  | _ => none

end

def Value.parse? (s : List UInt8) : Option Value :=
  (tokens? s).bind (readValue [])

namespace Value

/-- The whole number that a value is. Minus zero is not one. -/
def whole? : Value → Option Int
  | .integer negative digits =>
    let n := Nat.ofDigitChars 10 digits 0
    if negative then if n = 0 then none else some (-(n : Int)) else some n
  | _ => none

/-- The signed 64-bit number that a value is. -/
def int? (v : Value) : Option Int :=
  v.whole?.bind Decimal.fitting?

/-- The unsigned 64-bit number that a value is. -/
def count? (v : Value) : Option Nat :=
  v.whole?.bind fun n => if 0 ≤ n ∧ n.toNat < UInt64.size then some n.toNat else none

def bool? : Value → Option Bool
  | .bool b => some b
  | _ => none

def text? : Value → Option String
  | .string parts => textOf? parts
  | _ => none

/-- What `read` makes of a value, where null stands for nothing. -/
def optional? {α : Type} (read : Value → Option α) : Value → Option (Option α)
  | .null => some none
  | v => (read v).map some

/-- The name of a choice without data: its name alone, or an object whose one member has that name and holds
null. -/
def choice? : Value → Option String
  | .string parts => textOf? parts
  | .object [(key, .null)] => textOf? key
  | _ => none

/-- The members of an object with decoded keys; none if a key has no text. -/
def namedMembers? : List (List Part × Value) → Option (List (String × Value))
  | [] => some []
  | (key, v) :: members => do
    let name ← textOf? key
    let rest ← namedMembers? members
    some ((name, v) :: rest)

/-- The one member of a name, if there is one; none when the name is repeated. -/
def uniqueMember? (members : List (String × Value)) (name : String) : Option (Option Value) :=
  match members.filter fun m => m.1 == name with
  | [] => some none
  | [m] => some (some m.2)
  | _ => none

/-- The fields of a record, in the order of their names. An object gives them by name and may hold other
members; an array gives them by position and may stop early. -/
def fields? (names : List String) : Value → Option (List (Option Value))
  | .object members => do
    let members ← namedMembers? members
    names.mapM (uniqueMember? members)
  | .array items =>
    if items.length ≤ names.length then
      some (items.map some ++ List.replicate (names.length - items.length) none)
    else none
  | _ => none

end Value

def required {α : Type} (read : Value → Option α) (v : Option Value) : Option α :=
  v.bind read

def optional {α : Type} (read : Value → Option α) (default : α) : Option Value → Option α
  | none => some default
  | some v => read v

end Json
end DeltaLedger
