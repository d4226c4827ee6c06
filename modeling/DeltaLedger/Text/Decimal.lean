/-!
# Decimal text

Whole numbers written in base ten and read back. Every number in this library is written through
`digits`, so padding and sign are the only choices left to the formats that use it.
-/

namespace DeltaLedger
namespace Decimal

def digits (n : Nat) : List Char :=
  Nat.toDigits 10 n

/-- The digits of a number, led by zeros up to a width. -/
def padded (width n : Nat) : List Char :=
  (digits n).leftpad width '0'

def signed (n : Int) : List Char :=
  if n < 0 then '-' :: digits n.natAbs else digits n.natAbs

/-- An integer led by zeros up to a width that counts its minus sign. -/
def signedPadded (width : Nat) (n : Int) : List Char :=
  if n < 0 then '-' :: padded (width - 1) n.natAbs else padded width n.natAbs

def ofInt (n : Int) : String :=
  String.ofList (signed n)

/-- The number a non-empty run of digits stands for. -/
def value? (cs : List Char) : Option Nat :=
  if cs ≠ [] ∧ cs.all Char.isDigit then some (Nat.ofDigitChars 10 cs 0) else none

/-- The number a run of digits stands for, after at most one sign. -/
def signedValue? : List Char → Option Int
  | '+' :: cs => (value? cs).map Int.ofNat
  | '-' :: cs => (value? cs).map fun n : Nat => -(n : Int)
  | cs => (value? cs).map Int.ofNat

/-- The digits a text starts with, at most `limit` of them, and what follows. -/
def takeDigits (limit : Nat) (cs : List Char) : List Char × List Char :=
  let run := (cs.take limit).takeWhile Char.isDigit
  (run, cs.drop run.length)

/-- The range of signed 64-bit words, which every stored counter keeps to. -/
def Fits (n : Int) : Prop :=
  -9_223_372_036_854_775_808 ≤ n ∧ n ≤ 9_223_372_036_854_775_807

instance (n : Int) : Decidable (Fits n) :=
  inferInstanceAs (Decidable (_ ∧ _))

/-- A number of a range as it is, and none outside the range. -/
def fitting? (n : Int) : Option Int :=
  if Fits n then some n else none

/-! ## Reading what was written -/

theorem isDigit_of_mem_digits {n : Nat} {c : Char} (h : c ∈ digits n) : c.isDigit = true :=
  Nat.isDigit_of_mem_toDigits (by decide) (by decide) h

theorem digits_ne_nil (n : Nat) : digits n ≠ [] :=
  Nat.toDigits_ne_nil

theorem all_isDigit_padded (width n : Nat) : (padded width n).all Char.isDigit = true := by
  simp only [padded, List.leftpad, List.all_append, List.all_replicate, Bool.and_eq_true]
  refine ⟨?_, List.all_eq_true.2 fun c h => isDigit_of_mem_digits h⟩
  split <;> simp [Char.isDigit]

@[simp] theorem value?_padded (width n : Nat) : value? (padded width n) = some n := by
  have hne : padded width n ≠ [] := by
    simp [padded, List.leftpad, digits_ne_nil]
  have hval : Nat.ofDigitChars 10 (padded width n) 0 = n := by
    simp [padded, List.leftpad, Nat.ofDigitChars_append, Nat.ofDigitChars_replicate_zero, digits,
      Nat.ofDigitChars_toDigits]
  rw [value?, if_pos ⟨hne, all_isDigit_padded width n⟩, hval]

theorem signedValue?_of_isDigit {cs : List Char} (h : cs.all Char.isDigit = true) :
    signedValue? cs = (value? cs).map Int.ofNat := by
  unfold signedValue?
  split
  · simp [Char.isDigit] at h
  · simp [Char.isDigit] at h
  · rfl

@[simp] theorem signedValue?_signedPadded (width : Nat) (n : Int) :
    signedValue? (signedPadded width n) = some n := by
  unfold signedPadded
  split
  · have hn : -(n.natAbs : Int) = n := by omega
    rw [signedValue?, value?_padded, Option.map_some, hn]
  · rw [signedValue?_of_isDigit (all_isDigit_padded ..), value?_padded]
    simp only [Option.map_some, Option.some.injEq, Int.ofNat_eq_natCast]
    omega

end Decimal
end DeltaLedger
