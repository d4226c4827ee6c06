import DeltaLedger.Text.Blank
import DeltaLedger.Text.Decimal

/-!
# Offsets from UTC

A fixed distance of local time from UTC in whole seconds, always less than a day. Offsets are written as a sign,
hours and minutes, and seconds only when there are some. Reading is more generous than writing: it takes
several signs of minus, any separator of colons and blanks, and ignores what follows the minutes.
-/

namespace DeltaLedger

/-- Seconds in a day without a leap second. -/
def secondsPerDay : Int := 86400

/-- Local time minus UTC, in seconds. -/
structure Offset where
  seconds : Int
  lower : -secondsPerDay < seconds
  upper : seconds < secondsPerDay
  deriving DecidableEq

namespace Offset

def utc : Offset :=
  ⟨0, by decide, by decide⟩

instance : Inhabited Offset := ⟨utc⟩

/-- The offset of a number of seconds, if it is less than a day. -/
def ofSeconds? (n : Int) : Option Offset :=
  if h : -secondsPerDay < n ∧ n < secondsPerDay then some ⟨n, h.1, h.2⟩ else none

/-- Two digits after a colon, or nothing for zero seconds. -/
def secondsText (n : Nat) : List Char :=
  if n = 0 then [] else ':' :: Decimal.padded 2 n

def text (o : Offset) : String :=
  let n := o.seconds.natAbs
  String.ofList <|
    (if o.seconds < 0 then '-' else '+') :: Decimal.padded 2 (n / 3600) ++
      ':' :: Decimal.padded 2 (n / 60 % 60) ++ secondsText (n % 60)

inductive Fault where
  | tooShort
  | badCharacter
  | outOfRange
  deriving DecidableEq, Repr

def Fault.message : Fault → String
  | .tooShort => "premature end of input"
  | .badCharacter => "input contains invalid characters"
  | .outOfRange => "input is out of range"

/-- The first two characters of a text that has at least two bytes. -/
def firstTwo (cs : List Char) : Except Fault (Char × Char) :=
  match cs with
  | [] => .error .tooShort
  | [c] => .error (if c.utf8Size < 2 then .tooShort else .badCharacter)
  | c :: d :: _ => .ok (c, d)

def digit? (c : Char) : Option Nat :=
  if c.isDigit then some (c.toNat - '0'.toNat) else none

def twoDigits (cs : List Char) : Except Fault Nat := do
  let (c, d) ← firstTwo cs
  match digit? c, digit? d with
  | some m, some n => .ok (10 * m + n)
  | _, _ => .error .badCharacter

def isSeparator (c : Char) : Bool :=
  c == ':' || Text.isBlank c

def distance (cs : List Char) : Except Fault Nat := do
  let hours ← twoDigits cs
  let minutes ← twoDigits ((cs.drop 2).dropWhile isSeparator)
  if minutes < 60 then .ok (hours * 3600 + minutes * 60) else .error .outOfRange

def isNegative (cs : List Char) : Except Fault (Bool × List Char) :=
  match cs with
  | [] => .error .tooShort
  | c :: cs =>
    if c = '+' then .ok (false, cs)
    else if c = '-' ∨ c = '\u2212' then .ok (true, cs)
    else .error .badCharacter

def ofSigned (cs : List Char) : Except Fault Offset := do
  let (negative, cs) ← isNegative cs
  let n ← distance cs
  match ofSeconds? (if negative then -(n : Int) else n) with
  | some o => .ok o
  | none => .error .outOfRange

/-- Reads an offset. The name of UTC may have letters of either case, its abbreviation may not. -/
def parse (s : String) : Except Fault Offset :=
  if s.toList.map Char.toLower = ['u', 't', 'c'] ∨ s = "Z" then .ok utc else ofSigned s.toList

end Offset
end DeltaLedger
