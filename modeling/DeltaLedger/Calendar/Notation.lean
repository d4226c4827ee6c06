import DeltaLedger.Calendar.DateTime

/-!
# Written date-times

A date-time is written as `YYYY-MM-DD`, a separator, and `HH:MM:SS` with as few groups of three decimals as are exact.
Years outside 0 to 9999 carry a sign. Reading takes blanks in front of numbers and marks, shorter numbers, and more than
nine decimals, of which the first nine count.
-/

namespace DeltaLedger
namespace DateTime

def yearText (year : Int) : List Char :=
  if year < 0 then '-' :: Decimal.padded 4 year.natAbs
  else if year ≤ 9999 then Decimal.padded 4 year.natAbs
  else '+' :: Decimal.padded 4 year.natAbs

def fractionText (nanos : Nat) : List Char :=
  if nanos = 0 then []
  else if nanos % 1000000 = 0 then '.' :: Decimal.padded 3 (nanos / 1000000)
  else if nanos % 1000 = 0 then '.' :: Decimal.padded 6 (nanos / 1000)
  else '.' :: Decimal.padded 9 nanos

def chars (separator : Char) (t : DateTime) : List Char :=
  yearText t.date.year ++ '-' :: Decimal.padded 2 t.date.month ++ '-' :: Decimal.padded 2 t.date.day ++
    separator :: Decimal.padded 2 t.time.hour ++ ':' :: Decimal.padded 2 t.time.minute ++
    ':' :: Decimal.padded 2 t.time.second ++ fractionText t.time.nanos

def recordText (t : DateTime) : String :=
  String.ofList (t.chars 'T')

def messageText (t : DateTime) : String :=
  String.ofList (t.chars ' ')

/-- A number of one to `limit` digits. -/
def readNumber (limit : Nat) (cs : List Char) : Option (Nat × List Char) :=
  let (run, rest) := Decimal.takeDigits limit cs
  (Decimal.value? run).map (·, rest)

/-- A year: any number of digits behind a sign, and at most four without one. -/
def readYear (cs : List Char) : Option (Int × List Char) :=
  match Text.skipBlanks cs with
  | '-' :: cs => (readNumber cs.length cs).map fun r => (-(r.1 : Int), r.2)
  | '+' :: cs => (readNumber cs.length cs).map fun r => ((r.1 : Int), r.2)
  | cs => (readNumber 4 cs).map fun r => ((r.1 : Int), r.2)

/-- A number of one or two digits after a mark. -/
def readAfter (mark : Char) (cs : List Char) : Option (Nat × List Char) :=
  match Text.skipBlanks cs with
  | c :: cs => if c = mark then readNumber 2 (Text.skipBlanks cs) else none
  | [] => none

/-- Billionths of a second from the decimals of a fraction, of which the first nine count. -/
def nanosOf (run : List Char) : Nat :=
  Nat.ofDigitChars 10 ((run.take 9).rightpad 9 '0') 0

/-- A fraction right behind the seconds, if there is one. -/
def readFraction (cs : List Char) : Option (Nat × List Char) :=
  match cs with
  | '.' :: cs =>
    let (run, rest) := Decimal.takeDigits cs.length cs
    if run.isEmpty then none else some (nanosOf run, rest)
  | cs => some (0, cs)

def ofChars? (cs : List Char) : Option DateTime := do
  let (year, cs) ← readYear cs
  let (month, cs) ← readAfter '-' cs
  let (day, cs) ← readAfter '-' cs
  let (hour, cs) ← readAfter 'T' cs
  let (minute, cs) ← readAfter ':' cs
  let (second, cs) ← readAfter ':' cs
  let (nanos, cs) ← readFraction cs
  if (Text.skipBlanks cs).isEmpty then
    let date ← Date.of? year month day
    let time ← TimeOfDay.of? hour minute second nanos
    some ⟨date, time⟩
  else none

def parse? (s : String) : Option DateTime :=
  ofChars? s.toList

end DateTime
end DeltaLedger
