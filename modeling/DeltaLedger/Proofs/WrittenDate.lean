import DeltaLedger.Calendar.Notation
import Mathlib.Algebra.Group.Nat.Even

/-!
# Reading back a written date-time

The written form of a date-time is read as the same date-time.  Every field but
the year and the fraction has exactly two digits, so its end does not depend on
what follows; a year with a sign ends at the hyphen behind it.
-/

namespace DeltaLedger

/-! ## Runs of digits -/

namespace Decimal

theorem isDigit_of_mem_padded {width n : Nat} {c : Char} (hc : c ∈ padded width n) :
    c.isDigit = true :=
  List.all_eq_true.mp (all_isDigit_padded width n) c hc

theorem length_padded {width n : Nat} (hwidth : 0 < width) (hn : n < 10 ^ width) :
    (padded width n).length = width := by
  have hle : (digits n).length ≤ width :=
    (Nat.length_toDigits_le_iff (by decide) hwidth).mpr hn
  simp only [padded, List.leftpad, List.length_append, List.length_replicate]
  omega

theorem padded_ne_nil (width n : Nat) : padded width n ≠ [] := by
  simp [padded, List.leftpad, digits_ne_nil]

/-- A run of digits is taken whole when the limit or what follows ends it. -/
theorem takeDigits_append
    {limit : Nat} {run rest : List Char}
    (hrun : ∀ c ∈ run, c.isDigit = true)
    (hlen : run.length ≤ limit)
    (hend : run.length = limit ∨ ∀ c, rest.head? = some c → c.isDigit = false) :
    takeDigits limit (run ++ rest) = (run, rest) := by
  have hstop : (rest.take (limit - run.length)).takeWhile Char.isDigit = [] := by
    rcases hend with hfull | hnext
    · simp [hfull]
    · cases rest with
      | nil => simp
      | cons c rest =>
          have hc := hnext c rfl
          cases limit - run.length with
          | zero => simp
          | succ k => simp [hc]
  have htaken : ((run ++ rest).take limit).takeWhile Char.isDigit = run := by
    rw [List.take_append, List.take_of_length_le hlen, List.takeWhile_append_of_pos hrun, hstop,
      List.append_nil]
  simp only [takeDigits, htaken, List.drop_left]

end Decimal

namespace DateTime

open Text (skipBlanks isBlank)

theorem readNumber_padded
    {limit width n : Nat} {rest : List Char}
    (hlen : (Decimal.padded width n).length ≤ limit)
    (hend : (Decimal.padded width n).length = limit ∨
      ∀ c, rest.head? = some c → c.isDigit = false) :
    readNumber limit (Decimal.padded width n ++ rest) = some (n, rest) := by
  have htake := Decimal.takeDigits_append
    (fun c hc => Decimal.isDigit_of_mem_padded hc) hlen hend
  simp [readNumber, htake]

theorem isBlank_of_isDigit {c : Char} (hc : c.isDigit = true) : isBlank c = false := by
  have hrange : 48 ≤ c.toNat ∧ c.toNat ≤ 57 := by
    simpa [Char.isDigit, UInt32.le_iff_toNat_le] using hc
  simp only [isBlank, Bool.or_eq_false_iff, Bool.and_eq_false_iff, decide_eq_false_iff_not,
    beq_eq_false_iff_ne]
  omega

theorem skipBlanks_cons {c : Char} (hc : isBlank c = false) (cs : List Char) :
    skipBlanks (c :: cs) = c :: cs := by
  simp [skipBlanks, hc]

theorem skipBlanks_padded (width n : Nat) (rest : List Char) :
    skipBlanks (Decimal.padded width n ++ rest) = Decimal.padded width n ++ rest := by
  obtain ⟨c, cs, hcs⟩ := List.exists_cons_of_ne_nil (Decimal.padded_ne_nil width n)
  have hc : c.isDigit = true := Decimal.isDigit_of_mem_padded (by rw [hcs]; simp)
  rw [hcs, List.cons_append]
  exact skipBlanks_cons (isBlank_of_isDigit hc) (cs ++ rest)

/-- A field of two digits behind its mark. -/
theorem readAfter_padded
    {mark : Char} (hmark : isBlank mark = false) {n : Nat} (hn : n < 100) (rest : List Char) :
    readAfter mark (mark :: (Decimal.padded 2 n ++ rest)) = some (n, rest) := by
  have hlen : (Decimal.padded 2 n).length = 2 := Decimal.length_padded (by decide) hn
  rw [readAfter, skipBlanks_cons hmark]
  simp only [if_true, skipBlanks_padded]
  exact readNumber_padded (Nat.le_of_eq hlen) (.inl hlen)

theorem readYear_signed
    (n : Nat) (rest : List Char) :
    readYear ('-' :: (Decimal.padded 4 n ++ '-' :: rest)) = some (-(n : Int), '-' :: rest) ∧
      readYear ('+' :: (Decimal.padded 4 n ++ '-' :: rest)) = some ((n : Int), '-' :: rest) := by
  have hread : readNumber (Decimal.padded 4 n ++ '-' :: rest).length
      (Decimal.padded 4 n ++ '-' :: rest) = some (n, '-' :: rest) := by
    apply readNumber_padded
    · simp
    · exact .inr fun c hc => by
        cases hc
        rfl
  constructor
  · rw [readYear, skipBlanks_cons (by decide)]
    exact congrArg (Option.map fun r => (-(r.1 : Int), r.2)) hread
  · rw [readYear, skipBlanks_cons (by decide)]
    exact congrArg (Option.map fun r => ((r.1 : Int), r.2)) hread

theorem readYear_plain {n : Nat} (hn : n < 10000) (rest : List Char) :
    readYear (Decimal.padded 4 n ++ rest) = some ((n : Int), rest) := by
  have hlen : (Decimal.padded 4 n).length = 4 := Decimal.length_padded (by decide) hn
  have hread : readNumber 4 (Decimal.padded 4 n ++ rest) = some (n, rest) :=
    readNumber_padded (Nat.le_of_eq hlen) (.inl hlen)
  obtain ⟨c, cs, hcs⟩ := List.exists_cons_of_ne_nil (Decimal.padded_ne_nil 4 n)
  have hc : c.isDigit = true := Decimal.isDigit_of_mem_padded (by rw [hcs]; simp)
  have hminus : c ≠ '-' := by rintro rfl; simp at hc
  have hplus : c ≠ '+' := by rintro rfl; simp at hc
  rw [readYear, skipBlanks_padded]
  rw [hcs, List.cons_append] at hread ⊢
  split
  next heq => exact absurd (List.cons.inj heq).1 hminus
  next heq => exact absurd (List.cons.inj heq).1 hplus
  next => simp [hread]

theorem readYear_yearText (year : Int) (rest : List Char) :
    readYear (yearText year ++ '-' :: rest) = some (year, '-' :: rest) := by
  unfold yearText
  split
  next hneg =>
    have hread := (readYear_signed year.natAbs rest).1
    rw [List.cons_append, hread]
    simp only [Option.some.injEq, Prod.mk.injEq, and_true]
    omega
  next hnonneg =>
    split
    next hsmall =>
      have hread := readYear_plain (n := year.natAbs) (by omega) ('-' :: rest)
      rw [hread]
      simp only [Option.some.injEq, Prod.mk.injEq, and_true]
      omega
    next =>
      have hread := (readYear_signed year.natAbs rest).2
      rw [List.cons_append, hread]
      simp only [Option.some.injEq, Prod.mk.injEq, and_true]
      omega

/-! ## Fractions -/

theorem nanosOf_padded {width n : Nat} (hwidth : 0 < width) (hle : width ≤ 9) (hn : n < 10 ^ width) :
    nanosOf (Decimal.padded width n) = 10 ^ (9 - width) * n := by
  have hlen := Decimal.length_padded hwidth hn
  have hvalue : Nat.ofDigitChars 10 (Decimal.padded width n) 0 = n := by
    have hread := Decimal.value?_padded width n
    simpa [Decimal.value?, Decimal.padded_ne_nil, Decimal.all_isDigit_padded] using hread
  unfold nanosOf
  rw [List.take_of_length_le (by omega), List.rightpad, hlen, Nat.ofDigitChars_append, hvalue,
    Nat.ofDigitChars_replicate_zero]

theorem readFraction_padded (width n : Nat) :
    readFraction ('.' :: Decimal.padded width n) =
      some (nanosOf (Decimal.padded width n), []) := by
  have htake : Decimal.takeDigits (Decimal.padded width n).length (Decimal.padded width n) =
      (Decimal.padded width n, []) := by
    have happend := Decimal.takeDigits_append
      (fun c hc => Decimal.isDigit_of_mem_padded hc) (Nat.le_refl (Decimal.padded width n).length)
      (.inl rfl : _ ∨ ∀ c, ([] : List Char).head? = some c → c.isDigit = false)
    rwa [List.append_nil] at happend
  simp [readFraction, htake, Decimal.padded_ne_nil]

theorem readFraction_fractionText {nanos : Nat} (hnanos : nanos < 1_000_000_000) :
    readFraction (fractionText nanos) = some (nanos, []) := by
  unfold fractionText
  split
  next hzero => simp [hzero, readFraction]
  next =>
    split
    next hmilli =>
      rw [readFraction_padded, nanosOf_padded (by decide) (by decide) (by omega)]
      simp only [Option.some.injEq, Prod.mk.injEq, and_true]
      omega
    next =>
      split
      next hmicro =>
        rw [readFraction_padded, nanosOf_padded (by decide) (by decide) (by omega)]
        simp only [Option.some.injEq, Prod.mk.injEq, and_true]
        omega
      next =>
        rw [readFraction_padded, nanosOf_padded (by decide) (by decide) (by omega)]
        simp

/-! ## Date-times -/

theorem daysInMonth_lt (year : Int) (month : Nat) : daysInMonth year month < 100 := by
  unfold daysInMonth
  repeat' split
  all_goals omega

/-- A date-time is read back from the form that records hold. -/
@[simp] theorem parse?_recordText (t : DateTime) : parse? t.recordText = some t := by
  obtain ⟨⟨year, month, day, hdate⟩, ⟨hour, minute, second, nanos, htime⟩⟩ := t
  obtain ⟨-, -, -, hmonth, -, hday⟩ := id hdate
  obtain ⟨hhour, hminute, hsecond, hnanos⟩ := id htime
  have hdays := daysInMonth_lt year month
  unfold parse? recordText
  rw [String.toList_ofList]
  unfold ofChars? chars
  simp only [List.append_assoc, List.cons_append, readYear_yearText,
    readAfter_padded (show isBlank '-' = false by decide) (show month < 100 by omega),
    readAfter_padded (show isBlank '-' = false by decide) (show day < 100 by omega),
    readAfter_padded (show isBlank 'T' = false by decide) (show hour < 100 by omega),
    readAfter_padded (show isBlank ':' = false by decide) (show minute < 100 by omega),
    readAfter_padded (show isBlank ':' = false by decide) (show second < 100 by omega),
    readFraction_fractionText hnanos, Option.bind_eq_bind, Option.bind_some]
  simp [skipBlanks, Date.of?, TimeOfDay.of?, hdate, htime]

end DateTime
end DeltaLedger
