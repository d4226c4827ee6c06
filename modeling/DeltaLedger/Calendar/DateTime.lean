import DeltaLedger.Calendar.Offset

/-!
# Dates and times of day

Calendar dates of the proleptic Gregorian calendar, which has a year zero, and times of day to the nanosecond. Every
minute may have a second 60, so that a leap second can be kept; it comes after all of second 59 and before the next
minute. The order of date-times is the order of one number, their rank.
-/

namespace DeltaLedger

/-- A year with a 29th of February. -/
def isLeapYear (year : Int) : Bool :=
  year % 4 = 0 && (year % 100 ≠ 0 || year % 400 = 0)

def daysInMonth (year : Int) (month : Nat) : Nat :=
  if month = 2 then if isLeapYear year then 29 else 28
  else if month = 4 ∨ month = 6 ∨ month = 9 ∨ month = 11 then 30
  else 31

/-- The days of the calendar, from 1 January -262143 to 31 December 262142. -/
def Date.Valid (year : Int) (month day : Nat) : Prop :=
  -262143 ≤ year ∧ year ≤ 262142 ∧ 1 ≤ month ∧ month ≤ 12 ∧ 1 ≤ day ∧ day ≤ daysInMonth year month

instance (year : Int) (month day : Nat) : Decidable (Date.Valid year month day) :=
  inferInstanceAs (Decidable (_ ∧ _))

structure Date where
  year : Int
  month : Nat
  day : Nat
  valid : Date.Valid year month day
  deriving DecidableEq

namespace Date

def of? (year : Int) (month day : Nat) : Option Date :=
  if h : Valid year month day then some ⟨year, month, day, h⟩ else none

/-- The day after, or the same day at the end of the calendar. -/
def next (d : Date) : Date :=
  ((of? d.year d.month (d.day + 1) <|> of? d.year (d.month + 1) 1) <|> of? (d.year + 1) 1 1).getD d

/-- The day before, or the same day at the start of the calendar. -/
def previous (d : Date) : Date :=
  ((of? d.year d.month (d.day - 1) <|> of? d.year (d.month - 1) (daysInMonth d.year (d.month - 1))) <|>
    of? (d.year - 1) 12 31).getD d

end Date

/-- The times of a day. Second 60 is a leap second. -/
def TimeOfDay.Valid (hour minute second nanos : Nat) : Prop :=
  hour < 24 ∧ minute < 60 ∧ second ≤ 60 ∧ nanos < 1_000_000_000

instance (hour minute second nanos : Nat) : Decidable (TimeOfDay.Valid hour minute second nanos) :=
  inferInstanceAs (Decidable (_ ∧ _))

structure TimeOfDay where
  hour : Nat
  minute : Nat
  second : Nat
  nanos : Nat
  valid : TimeOfDay.Valid hour minute second nanos
  deriving DecidableEq

namespace TimeOfDay

def of? (hour minute second nanos : Nat) : Option TimeOfDay :=
  if h : Valid hour minute second nanos then some ⟨hour, minute, second, nanos, h⟩ else none

def wholeSecond (t : TimeOfDay) : TimeOfDay :=
  ⟨t.hour, t.minute, t.second, 0, t.valid.1, t.valid.2.1, t.valid.2.2.1, by decide⟩

/-- The time a number of whole seconds after midnight, with a fraction. -/
def ofSeconds (n nanos : Nat) (hn : n < 86400) (hnanos : nanos < 1_000_000_000) : TimeOfDay :=
  ⟨n / 3600, n / 60 % 60, n % 60, nanos, by omega, by omega, by omega, hnanos⟩

end TimeOfDay

/-- A date with a time of day, in no particular time zone. -/
structure DateTime where
  date : Date
  time : TimeOfDay
  deriving DecidableEq

namespace DateTime

/-- The position of a date-time in the order of all date-times. -/
def rank (t : DateTime) : Int :=
  (((((t.date.year * 13 + t.date.month) * 32 + t.date.day) * 24 + t.time.hour) * 60 + t.time.minute) * 61 +
    t.time.second) * 1_000_000_000 + t.time.nanos

instance : LE DateTime := ⟨fun s t => s.rank ≤ t.rank⟩

instance : LT DateTime := ⟨fun s t => s.rank < t.rank⟩

instance (s t : DateTime) : Decidable (s ≤ t) :=
  inferInstanceAs (Decidable (s.rank ≤ t.rank))

instance (s t : DateTime) : Decidable (s < t) :=
  inferInstanceAs (Decidable (s.rank < t.rank))

def wholeSecond (t : DateTime) : DateTime :=
  ⟨t.date, t.time.wholeSecond⟩

/-- Seconds since midnight at an offset, counted from the UTC day, so that it may be negative or exceed a day. -/
def localSeconds (utc : DateTime) (o : Offset) : Int :=
  utc.time.hour * 3600 + utc.time.minute * 60 + utc.time.second + o.seconds

def localDate (utc : DateTime) (o : Offset) : Date :=
  let n := utc.localSeconds o
  if n < 0 then utc.date.previous else if n < secondsPerDay then utc.date else utc.date.next

def atOffset (utc : DateTime) (o : Offset) : DateTime :=
  ⟨utc.localDate o,
    .ofSeconds (utc.localSeconds o % secondsPerDay).toNat utc.time.nanos (by unfold secondsPerDay; omega)
      utc.time.valid.2.2.2⟩

/-- The rank tells date-times apart. -/
theorem rank_injective {s t : DateTime} (h : s.rank = t.rank) : s = t := by
  obtain ⟨⟨y, mo, d, hd⟩, ⟨ho, mi, se, na, ht⟩⟩ := s
  obtain ⟨⟨y', mo', d', hd'⟩, ⟨ho', mi', se', na', ht'⟩⟩ := t
  have days : ∀ y m, daysInMonth y m ≤ 31 := by
    intro y m
    unfold daysInMonth
    repeat' split
    all_goals omega
  have hle := days y mo
  have hle' := days y' mo'
  simp only [rank] at h
  unfold Date.Valid at hd hd'
  unfold TimeOfDay.Valid at ht ht'
  have e : y = y' ∧ mo = mo' ∧ d = d' ∧ ho = ho' ∧ mi = mi' ∧ se = se' ∧ na = na' := by omega
  obtain ⟨rfl, rfl, rfl, rfl, rfl, rfl, rfl⟩ := e
  rfl

end DateTime
end DeltaLedger
