/-!
# String literals of JSON

A string literal is written byte by byte: quotes, backslashes and control bytes are escaped and every other
byte of the UTF-8 form stands for itself. Reading has two steps. The first one finds the end of the literal and
looks at its escapes alone; this is all that a skipped literal has to pass. The second one joins what the escapes
stand for and asks for well-formed UTF-8; a literal whose text is needed has to pass both. A written
literal passes both and gives its text back.
-/

namespace DeltaLedger
namespace Json

abbrev byteOf (c : Char) : UInt8 :=
  c.toUInt8

def ascii (cs : List Char) : List UInt8 :=
  cs.map byteOf

def hexDigit (n : Nat) : UInt8 :=
  byteOf n.digitChar

def letter? (b : UInt8) : Option UInt8 :=
  if b = byteOf '"' ∨ b = byteOf '\\' then some b
  else if b = 0x08 then some (byteOf 'b')
  else if b = 0x09 then some (byteOf 't')
  else if b = 0x0a then some (byteOf 'n')
  else if b = 0x0c then some (byteOf 'f')
  else if b = 0x0d then some (byteOf 'r')
  else none

/-- How one byte of a text is written inside a literal. -/
def escapeByte (b : UInt8) : List UInt8 :=
  match letter? b with
  | some e => [byteOf '\\', e]
  | none =>
    if b < 0x20 then ascii ['\\', 'u', '0', '0'] ++ [hexDigit (b.toNat / 16), hexDigit (b.toNat % 16)]
    else [b]

def utf8 (s : String) : List UInt8 :=
  s.toByteArray.data.toList

/-- The text that a sequence of bytes is the UTF-8 form of. -/
def ofUtf8? (bytes : List UInt8) : Option String :=
  String.fromUTF8? ⟨bytes.toArray⟩

def literal (s : String) : List UInt8 :=
  byteOf '"' :: (utf8 s).flatMap escapeByte ++ [byteOf '"']

/-- One step of a literal's content: a byte, or the sixteen bits that a `\u` escape names. -/
inductive Part where
  | byte (b : UInt8)
  | unit (n : Nat)
  deriving DecidableEq, Repr

/-- The value of a hexadecimal digit of either case. -/
def hexValue? (b : UInt8) : Option Nat :=
  let n := b.toNat
  if 0x30 ≤ n ∧ n ≤ 0x39 then some (n - 0x30)
  else if 0x41 ≤ n ∧ n ≤ 0x46 then some (n - 0x41 + 10)
  else if 0x61 ≤ n ∧ n ≤ 0x66 then some (n - 0x61 + 10)
  else none

def unit? (a b c d : UInt8) : Option Nat := do
  let a ← hexValue? a
  let b ← hexValue? b
  let c ← hexValue? c
  let d ← hexValue? d
  some (((a * 16 + b) * 16 + c) * 16 + d)

def escaped? (b : UInt8) : Option UInt8 :=
  if b = byteOf '"' ∨ b = byteOf '\\' ∨ b = byteOf '/' then some b
  else if b = byteOf 'b' then some 0x08
  else if b = byteOf 't' then some 0x09
  else if b = byteOf 'n' then some 0x0a
  else if b = byteOf 'f' then some 0x0c
  else if b = byteOf 'r' then some 0x0d
  else none

/-- The content of a literal from behind its opening quote, and what follows its closing quote. -/
def readParts : List UInt8 → Option (List Part × List UInt8)
  | [] => none
  | b :: rest =>
    if b = byteOf '"' then some ([], rest)
    else if b < 0x20 then none
    else if b = byteOf '\\' then
      match rest with
      | [] => none
      | e :: rest =>
        if e = byteOf 'u' then
          match rest with
          | h₁ :: h₂ :: h₃ :: h₄ :: rest => do
            let n ← unit? h₁ h₂ h₃ h₄
            let (parts, rest) ← readParts rest
            some (.unit n :: parts, rest)
          | _ => none
        else do
          let e ← escaped? e
          let (parts, rest) ← readParts rest
          some (.byte e :: parts, rest)
    else do
      let (parts, rest) ← readParts rest
      some (.byte b :: parts, rest)

/-- Sixteen bits that open a surrogate pair. -/
def isHigh (n : Nat) : Bool :=
  0xd800 ≤ n && n ≤ 0xdbff

/-- Sixteen bits that close a surrogate pair. -/
def isLow (n : Nat) : Bool :=
  0xdc00 ≤ n && n ≤ 0xdfff

/-- The bytes of a literal's content. Surrogates count only as a pair. -/
def joinParts? : List Part → Option (List UInt8)
  | [] => some []
  | .byte b :: parts => (joinParts? parts).map (b :: ·)
  | .unit n :: parts =>
    if isHigh n then
      match parts with
      | .unit m :: parts =>
        if isLow m then
          (joinParts? parts).map
            (String.utf8EncodeChar (Char.ofNat (0x10000 + (n - 0xd800) * 0x400 + (m - 0xdc00))) ++ ·)
        else none
      | _ => none
    else if isLow n then none
    else (joinParts? parts).map (String.utf8EncodeChar (Char.ofNat n) ++ ·)

def textOf? (parts : List Part) : Option String :=
  (joinParts? parts).bind ofUtf8?

/-- Reading a literal uses up at least its closing quote. -/
theorem length_lt_of_readParts
    {s rest : List UInt8} {parts : List Part}
    (h : readParts s = some (parts, rest)) :
    rest.length < s.length := by
  fun_induction readParts s generalizing parts rest with
  | case1 => simp at h
  | case2 =>
    simp only [Option.some.injEq, Prod.mk.injEq] at h
    simp [h.2]
  | case3 => simp at h
  | case4 => simp at h
  | case5 _ _ _ _ _ _ _ ih =>
    simp only [bind, Option.bind_eq_some_iff] at h
    obtain ⟨_, _, ⟨parts', rest'⟩, hr, he⟩ := h
    have := ih hr
    simp only [Option.some.injEq, Prod.mk.injEq] at he
    simp only [List.length_cons, ← he.2]
    omega
  | case6 => simp at h
  | case7 _ _ _ _ _ ih =>
    simp only [bind, Option.bind_eq_some_iff] at h
    obtain ⟨_, _, ⟨parts', rest'⟩, hr, he⟩ := h
    have := ih hr
    simp only [Option.some.injEq, Prod.mk.injEq] at he
    simp only [List.length_cons, ← he.2]
    omega
  | case8 _ _ _ _ _ ih =>
    simp only [bind, Option.bind_eq_some_iff] at h
    obtain ⟨⟨parts', rest'⟩, hr, he⟩ := h
    have := ih hr
    simp only [Option.some.injEq, Prod.mk.injEq] at he
    simp only [List.length_cons, ← he.2]
    omega

/-! ## Reading what was written -/

/-- The part that a written byte is read back as: a control byte without a letter comes back as sixteen bits. -/
def partOf (b : UInt8) : Part :=
  match letter? b with
  | some _ => .byte b
  | none => if b < 0x20 then .unit b.toNat else .byte b

theorem letter?_eq_some {b e : UInt8} (h : letter? b = some e) : e ≠ byteOf 'u' ∧ escaped? e = some b := by
  unfold letter? at h
  repeat' split at h
  all_goals simp only [Option.some.injEq, reduceCtorEq] at h
  all_goals subst h
  · next hb => rcases hb with rfl | rfl <;> decide
  all_goals
    subst b
    decide

theorem letter?_eq_none {b : UInt8} (h : letter? b = none) : b ≠ byteOf '"' ∧ b ≠ byteOf '\\' := by
  unfold letter? at h
  split at h
  · cases h
  · next hb => exact not_or.1 hb

theorem unit?_control {b : UInt8} (h : b < 0x20) :
    unit? (byteOf '0') (byteOf '0') (hexDigit (b.toNat / 16)) (hexDigit (b.toNat % 16)) = some b.toNat := by
  have small : ∀ n < 32, unit? (byteOf '0') (byteOf '0') (hexDigit (n / 16)) (hexDigit (n % 16)) = some n := by
    decide
  exact small b.toNat (UInt8.lt_iff_toNat_lt.1 h)

theorem readParts_quote (rest : List UInt8) : readParts (byteOf '"' :: rest) = some ([], rest) := by
  rw [readParts.eq_def]
  simp

theorem readParts_escaped
    {e b : UInt8} (hu : e ≠ byteOf 'u') (h : escaped? e = some b) (rest : List UInt8) :
    readParts (byteOf '\\' :: e :: rest) =
      (readParts rest).map fun r => (.byte b :: r.1, r.2) := by
  rw [readParts.eq_def]
  simp only [if_neg hu, h]
  rw [if_neg (by decide), if_neg (by decide), if_pos trivial]
  cases readParts rest <;> rfl

theorem readParts_unit
    {h₁ h₂ h₃ h₄ : UInt8} {n : Nat} (h : unit? h₁ h₂ h₃ h₄ = some n) (rest : List UInt8) :
    readParts (byteOf '\\' :: byteOf 'u' :: h₁ :: h₂ :: h₃ :: h₄ :: rest) =
      (readParts rest).map fun r => (.unit n :: r.1, r.2) := by
  rw [readParts.eq_def]
  simp only [h]
  rw [if_neg (by decide), if_neg (by decide), if_pos trivial, if_pos trivial]
  cases readParts rest <;> rfl

theorem readParts_plain
    {b : UInt8} (hq : b ≠ byteOf '"') (hb : b ≠ byteOf '\\') (hc : ¬b < 0x20) (rest : List UInt8) :
    readParts (b :: rest) = (readParts rest).map fun r => (.byte b :: r.1, r.2) := by
  rw [readParts.eq_def]
  simp only [if_neg hq, if_neg hb, if_neg hc]
  cases readParts rest <;> rfl

theorem readParts_escapeByte (b : UInt8) (rest : List UInt8) :
    readParts (escapeByte b ++ rest) = (readParts rest).map fun r => (partOf b :: r.1, r.2) := by
  unfold escapeByte partOf
  cases h : letter? b with
  | some e =>
    have he := letter?_eq_some h
    exact readParts_escaped he.1 he.2 rest
  | none =>
    have hb := letter?_eq_none h
    by_cases hc : b < 0x20
    · simpa [if_pos hc, ascii] using readParts_unit (unit?_control hc) rest
    · simpa [if_neg hc] using readParts_plain hb.1 hb.2 hc rest

/-- A written literal ends at its own closing quote. -/
theorem readParts_escape (bytes rest : List UInt8) :
    readParts (bytes.flatMap escapeByte ++ byteOf '"' :: rest) = some (bytes.map partOf, rest) := by
  induction bytes with
  | nil => exact readParts_quote rest
  | cons b bytes ih =>
    rw [List.flatMap_cons, List.append_assoc, readParts_escapeByte, ih]
    rfl

theorem joinParts?_partOf (b : UInt8) (parts : List Part) :
    joinParts? (partOf b :: parts) = (joinParts? parts).map (b :: ·) := by
  have control : ∀ n < 32, isHigh n = false ∧ isLow n = false ∧
      String.utf8EncodeChar (Char.ofNat n) = [UInt8.ofNat n] := by decide
  unfold partOf
  cases letter? b with
  | some e => rfl
  | none =>
    by_cases hc : b < 0x20
    · obtain ⟨hh, hl, he⟩ := control b.toNat (UInt8.lt_iff_toNat_lt.1 hc)
      rw [joinParts?.eq_def]
      simp [if_pos hc, hh, hl, he]
    · simp [if_neg hc, joinParts?]

@[simp] theorem joinParts?_map_partOf (bytes : List UInt8) : joinParts? (bytes.map partOf) = some bytes := by
  induction bytes with
  | nil => rfl
  | cons b bytes ih => rw [List.map_cons, joinParts?_partOf, ih, Option.map_some]

@[simp] theorem ofUtf8?_utf8 (s : String) : ofUtf8? (utf8 s) = some s := by
  have h : ByteArray.mk (utf8 s).toArray = s.toByteArray := by simp [utf8]
  rw [ofUtf8?, h, String.fromUTF8?, dif_pos s.isValidUTF8]
  rfl

@[simp] theorem textOf?_partOf (s : String) : textOf? ((utf8 s).map partOf) = some s := by
  rw [textOf?, joinParts?_map_partOf, Option.bind_some, ofUtf8?_utf8]

end Json
end DeltaLedger
