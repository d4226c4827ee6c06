import DeltaLedger.Json.Literal
import DeltaLedger.Text.Decimal

/-!
# Written records

A record is written as one object without blanks, its fields in a fixed order.
-/

namespace DeltaLedger
namespace Json

/-- What the field of a record can hold. -/
inductive Scalar where
  | integer (n : Int)
  | bool (b : Bool)
  | text (s : String)
  deriving DecidableEq, Repr

def Scalar.bytes : Scalar → List UInt8
  | .integer n => ascii (Decimal.signed n)
  | .bool true => ascii ['t', 'r', 'u', 'e']
  | .bool false => ascii ['f', 'a', 'l', 's', 'e']
  | .text s => literal s

def fieldBytes (field : String × Scalar) : List UInt8 :=
  literal field.1 ++ byteOf ':' :: field.2.bytes

/-- An object with the given fields. -/
def objectBytes (fields : List (String × Scalar)) : List UInt8 :=
  byteOf '\x7b' :: List.intercalate [byteOf ','] (fields.map fieldBytes) ++ [byteOf '\x7d']

end Json
end DeltaLedger
