import DeltaLedger.Json.Literal
import DeltaLedger.Text.Decimal

/-!
# Tokens of JSON

A text is first cut into tokens; blanks between them are dropped. A number keeps its digits only when it is a
whole numeral, since no record holds any other number, and is otherwise checked and forgotten.
-/

namespace DeltaLedger
namespace Json

inductive Token where
  | openObject
  | closeObject
  | openArray
  | closeArray
  | comma
  | colon
  | null
  | bool (b : Bool)
  /-- A numeral without fraction and exponent. -/
  | integer (negative : Bool) (digits : List Char)
  /-- A numeral with a fraction or an exponent. -/
  | fractional
  | string (parts : List Part)
  deriving DecidableEq, Repr

/-- The four blanks that may stand between tokens. -/
def isSpace (b : UInt8) : Bool :=
  b == 0x20 || b == 0x09 || b == 0x0a || b == 0x0d

def isDigit (b : UInt8) : Bool :=
  byteOf '0' ≤ b && b ≤ byteOf '9'

/-- Skips a fraction, if one begins; none when it lacks digits. -/
def skipFraction (s : List UInt8) : Option (List UInt8) :=
  match s with
  | b :: rest =>
    if b = byteOf '.' then
      if (rest.takeWhile isDigit).isEmpty then none else some (rest.dropWhile isDigit)
    else some s
  | [] => some s

def skipSign (s : List UInt8) : List UInt8 :=
  match s with
  | b :: rest => if b = byteOf '+' ∨ b = byteOf '-' then rest else s
  | [] => s

/-- Skips an exponent, if one begins; none when it lacks digits. -/
def skipExponent (s : List UInt8) : Option (List UInt8) :=
  match s with
  | b :: rest =>
    if b = byteOf 'e' ∨ b = byteOf 'E' then
      let rest := skipSign rest
      if (rest.takeWhile isDigit).isEmpty then none else some (rest.dropWhile isDigit)
    else some s
  | [] => some s

/-- The digits in front of a fraction: a lone zero, or a run that does not start with zero. -/
def readWhole (s : List UInt8) : Option (List UInt8 × List UInt8) :=
  match s with
  | b :: rest =>
    if b = byteOf '0' then some ([b], rest)
    else if isDigit b then some (b :: rest.takeWhile isDigit, rest.dropWhile isDigit)
    else none
  | [] => none

/-- A numeral, after its minus sign. -/
def readNumber (negative : Bool) (s : List UInt8) : Option (Token × List UInt8) := do
  let (digits, rest) ← readWhole s
  let tail ← (skipFraction rest).bind skipExponent
  if tail.length = rest.length then
    some (.integer negative (digits.map fun b => Char.ofUInt8 b), rest)
  else some (.fractional, tail)

def dropWord? (word : List Char) (s : List UInt8) : Option (List UInt8) :=
  if (ascii word).isPrefixOf s then some (s.drop word.length) else none

def mark? (b : UInt8) : Option Token :=
  if b = byteOf '\x7b' then some .openObject
  else if b = byteOf '\x7d' then some .closeObject
  else if b = byteOf '[' then some .openArray
  else if b = byteOf ']' then some .closeArray
  else if b = byteOf ',' then some .comma
  else if b = byteOf ':' then some .colon
  else none

/-- The token that starts at a byte that is not blank, and what follows it. -/
def readToken (b : UInt8) (rest : List UInt8) : Option (Token × List UInt8) :=
  match mark? b with
  | some t => some (t, rest)
  | none =>
    if b = byteOf '"' then (readParts rest).map fun r => (.string r.1, r.2)
    else if b = byteOf 'n' then (dropWord? ['u', 'l', 'l'] rest).map (.null, ·)
    else if b = byteOf 't' then (dropWord? ['r', 'u', 'e'] rest).map (.bool true, ·)
    else if b = byteOf 'f' then (dropWord? ['a', 'l', 's', 'e'] rest).map (.bool false, ·)
    else if b = byteOf '-' then readNumber true rest
    else readNumber false (b :: rest)

theorem length_dropWhile_isDigit_le (s : List UInt8) : (s.dropWhile isDigit).length ≤ s.length :=
  (List.dropWhile_sublist _).length_le

theorem length_le_of_skipFraction {s rest : List UInt8} (h : skipFraction s = some rest) :
    rest.length ≤ s.length := by
  unfold skipFraction at h
  repeat' split at h
  all_goals simp only [Option.some.injEq, reduceCtorEq] at h
  all_goals subst h
  · exact Nat.le_succ_of_le (length_dropWhile_isDigit_le _)
  · exact Nat.le_refl _
  · exact Nat.le_refl _

theorem length_skipSign_le (s : List UInt8) : (skipSign s).length ≤ s.length := by
  unfold skipSign
  repeat' split
  all_goals simp

theorem length_le_of_skipExponent {s rest : List UInt8} (h : skipExponent s = some rest) :
    rest.length ≤ s.length := by
  unfold skipExponent at h
  dsimp only at h
  repeat' split at h
  all_goals simp only [Option.some.injEq, reduceCtorEq] at h
  all_goals subst h
  · exact Nat.le_succ_of_le (Nat.le_trans (length_dropWhile_isDigit_le _) (length_skipSign_le _))
  · exact Nat.le_refl _
  · exact Nat.le_refl _

theorem length_lt_of_readWhole {s digits rest : List UInt8} (h : readWhole s = some (digits, rest)) :
    rest.length < s.length := by
  unfold readWhole at h
  repeat' split at h
  all_goals simp only [Option.some.injEq, Prod.mk.injEq, reduceCtorEq] at h
  · exact h.2 ▸ Nat.lt_succ_self _
  · exact h.2 ▸ Nat.lt_succ_of_le (length_dropWhile_isDigit_le _)

/-- A numeral uses up at least one digit. -/
theorem length_lt_of_readNumber
    {negative : Bool} {s rest : List UInt8} {t : Token}
    (h : readNumber negative s = some (t, rest)) :
    rest.length < s.length := by
  simp only [readNumber, bind, Option.bind_eq_some_iff] at h
  obtain ⟨⟨digits, middle⟩, hw, tail, ⟨fraction, hf, he⟩, h⟩ := h
  have h₁ : middle.length < s.length := length_lt_of_readWhole hw
  have h₂ : fraction.length ≤ middle.length := length_le_of_skipFraction hf
  have h₃ : tail.length ≤ fraction.length := length_le_of_skipExponent he
  dsimp only at h
  split at h
  · simp only [Option.some.injEq, Prod.mk.injEq] at h
    exact h.2 ▸ h₁
  · simp only [Option.some.injEq, Prod.mk.injEq] at h
    rw [← h.2]
    omega

theorem length_le_of_dropWord {word : List Char} {s rest : List UInt8} (h : dropWord? word s = some rest) :
    rest.length ≤ s.length := by
  unfold dropWord? at h
  split at h <;> simp only [Option.some.injEq, reduceCtorEq] at h
  rw [← h, List.length_drop]
  exact Nat.sub_le ..

/-- A token uses up at least the byte it starts at. -/
theorem length_le_of_readToken
    {b : UInt8} {s rest : List UInt8} {t : Token}
    (h : readToken b s = some (t, rest)) :
    rest.length ≤ s.length := by
  unfold readToken at h
  split at h
  · simp only [Option.some.injEq, Prod.mk.injEq] at h
    exact h.2 ▸ Nat.le_refl _
  · repeat' split at h
    all_goals try simp only [Option.map_eq_some_iff, Prod.mk.injEq] at h
    · obtain ⟨_, hr, _, rfl⟩ := h
      exact Nat.le_of_lt (length_lt_of_readParts hr)
    · obtain ⟨_, hr, _, rfl⟩ := h
      exact length_le_of_dropWord hr
    · obtain ⟨_, hr, _, rfl⟩ := h
      exact length_le_of_dropWord hr
    · obtain ⟨_, hr, _, rfl⟩ := h
      exact length_le_of_dropWord hr
    · exact Nat.le_of_lt (length_lt_of_readNumber h)
    · exact Nat.le_of_lt_succ (length_lt_of_readNumber h)

def tokens? : List UInt8 → Option (List Token)
  | [] => some []
  | b :: rest =>
    if isSpace b then tokens? rest
    else
      match h : readToken b rest with
      | none => none
      | some (t, after) =>
        have : after.length < rest.length + 1 := Nat.lt_succ_of_le (length_le_of_readToken h)
        (tokens? after).map (t :: ·)
  termination_by s => s.length

end Json
end DeltaLedger
