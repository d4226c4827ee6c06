import DeltaLedger.Json.Record
import DeltaLedger.Json.Value

/-!
# Reading back a written object

A written object is cut into the tokens it was made of, and these tokens are
read as the value it stands for.  The only token whose end depends on what
follows is a numeral: in an object it is always followed by a comma or a
closing brace, and neither of them can extend it.
-/

namespace DeltaLedger
namespace Json

/-- The token that a scalar is written as. -/
def Scalar.token : Scalar → Token
  | .integer n => .integer (decide (n < 0)) (Decimal.digits n.natAbs)
  | .bool b => .bool b
  | .text s => .string ((utf8 s).map partOf)

/-- The value that a scalar is read as. -/
def Scalar.value : Scalar → Value
  | .integer n => .integer (decide (n < 0)) (Decimal.digits n.natAbs)
  | .bool b => .bool b
  | .text s => .string ((utf8 s).map partOf)

/-- A byte that ends a numeral. -/
def EndsNumeral (b : UInt8) : Prop :=
  isDigit b = false ∧ b ≠ byteOf '.' ∧ b ≠ byteOf 'e' ∧ b ≠ byteOf 'E'

theorem endsNumeral_comma : EndsNumeral (byteOf ',') := by
  unfold EndsNumeral
  decide

theorem endsNumeral_brace : EndsNumeral (byteOf '\x7d') := by
  unfold EndsNumeral
  decide

/-! ## Tokens -/

theorem tokens?_cons
    {b : UInt8} {rest after : List UInt8} {t : Token}
    (hspace : isSpace b = false) (htoken : readToken b rest = some (t, after)) :
    tokens? (b :: rest) = (tokens? after).map (t :: ·) := by
  rw [tokens?, if_neg (by simp [hspace])]
  split
  next hnone => simp [htoken] at hnone
  next t' after' hsome =>
    rw [htoken] at hsome
    simp only [Option.some.injEq, Prod.mk.injEq] at hsome
    obtain ⟨rfl, rfl⟩ := hsome
    rfl

theorem tokens?_mark
    {b : UInt8} {t : Token} (hspace : isSpace b = false) (hmark : mark? b = some t)
    (rest : List UInt8) :
    tokens? (b :: rest) = (tokens? rest).map (t :: ·) := by
  apply tokens?_cons hspace
  simp [readToken, hmark]

theorem readToken_quote (s : String) (rest : List UInt8) :
    readToken (byteOf '"') ((utf8 s).flatMap escapeByte ++ byteOf '"' :: rest) =
      some (.string ((utf8 s).map partOf), rest) := by
  rw [readToken, show mark? (byteOf '"') = none by decide]
  simp [readParts_escape]

theorem tokens?_literal (s : String) (rest : List UInt8) :
    tokens? (literal s ++ rest) =
      (tokens? rest).map (.string ((utf8 s).map partOf) :: ·) := by
  have hshape : literal s ++ rest =
      byteOf '"' :: ((utf8 s).flatMap escapeByte ++ byteOf '"' :: rest) := by
    simp [literal]
  rw [hshape]
  exact tokens?_cons (by decide) (readToken_quote s rest)

/-! ## Numerals -/

theorem toNat_byteOf {c : Char} (hc : c.isDigit = true) :
    (byteOf c).toNat = c.toNat ∧ 48 ≤ c.toNat ∧ c.toNat ≤ 57 := by
  have hrange : 48 ≤ c.toNat ∧ c.toNat ≤ 57 := by
    simpa [Char.isDigit, UInt32.le_iff_toNat_le] using hc
  refine ⟨?_, hrange⟩
  have hval : c.val.toNat = c.toNat := rfl
  simp only [byteOf, Char.toUInt8, UInt32.toNat_toUInt8]
  omega

theorem isDigit_byteOf {c : Char} (hc : c.isDigit = true) : isDigit (byteOf c) = true := by
  obtain ⟨hbyte, hrange⟩ := toNat_byteOf hc
  simp only [isDigit, Bool.and_eq_true, decide_eq_true_eq, UInt8.le_iff_toNat_le, hbyte]
  exact hrange

theorem ofUInt8_byteOf {c : Char} (hc : c.isDigit = true) : Char.ofUInt8 (byteOf c) = c := by
  apply Char.ext
  apply UInt32.toNat_inj.1
  change (byteOf c).toUInt32.toNat = c.toNat
  rw [UInt8.toNat_toUInt32]
  exact (toNat_byteOf hc).1

theorem map_ofUInt8_ascii {cs : List Char} (hcs : ∀ c ∈ cs, c.isDigit = true) :
    (ascii cs).map (fun b => Char.ofUInt8 b) = cs := by
  unfold ascii
  rw [List.map_map]
  calc
    cs.map ((fun b => Char.ofUInt8 b) ∘ byteOf) = cs.map id :=
      List.map_congr_left fun c hc => ofUInt8_byteOf (hcs c hc)
    _ = cs := List.map_id cs

theorem span_ascii
    {cs : List Char} (hcs : ∀ c ∈ cs, c.isDigit = true)
    {b : UInt8} (hb : isDigit b = false) (rest : List UInt8) :
    (ascii cs ++ b :: rest).takeWhile isDigit = ascii cs ∧
      (ascii cs ++ b :: rest).dropWhile isDigit = b :: rest := by
  have hall : ∀ d ∈ ascii cs, isDigit d = true := by
    intro d hd
    obtain ⟨c, hc, rfl⟩ := List.mem_map.mp hd
    exact isDigit_byteOf (hcs c hc)
  rw [List.takeWhile_append_of_pos hall, List.dropWhile_append_of_pos hall]
  simp [hb]

theorem digits_leading (n : Nat) :
    Decimal.digits n = ['0'] ∨ ∃ c cs, Decimal.digits n = c :: cs ∧ c ≠ '0' := by
  induction n using Nat.strongRecOn with
  | ind n ih =>
    unfold Decimal.digits at ih ⊢
    rw [Nat.toDigits_eq_if (by decide)]
    split
    next hlt =>
      have hsmall : ∀ m < 10, [Nat.digitChar m] = ['0'] ∨
          ∃ c cs, [Nat.digitChar m] = c :: cs ∧ c ≠ '0' := by
        intro m hm
        by_cases hzero : m = 0
        · subst hzero
          exact .inl rfl
        · refine .inr ⟨_, _, rfl, ?_⟩
          have : ∀ k < 10, k ≠ 0 → Nat.digitChar k ≠ '0' := by decide
          exact this m hm hzero
      exact hsmall n hlt
    next hge =>
      rcases ih (n / 10) (by omega) with hzero | ⟨c, cs, hcs, hc⟩
      · have hvalue : Nat.ofDigitChars 10 (Nat.toDigits 10 (n / 10)) 0 = n / 10 :=
          Nat.ofDigitChars_ten_toDigits
        rw [hzero] at hvalue
        have hnil : Nat.ofDigitChars 10 ['0'] 0 = 0 := rfl
        omega
      · exact .inr ⟨c, cs ++ [_], by rw [hcs]; rfl, hc⟩

theorem readWhole_digits
    (n : Nat) {b : UInt8} (hb : isDigit b = false) (rest : List UInt8) :
    readWhole (ascii (Decimal.digits n) ++ b :: rest) =
      some (ascii (Decimal.digits n), b :: rest) := by
  have hdigits : ∀ c ∈ Decimal.digits n, c.isDigit = true :=
    fun c hc => Decimal.isDigit_of_mem_digits hc
  rcases digits_leading n with hzero | ⟨c, cs, hcs, hc⟩
  · rw [hzero]
    simp [ascii, readWhole]
  · rw [hcs] at hdigits ⊢
    have hfirst := hdigits c (by simp)
    have hlead : byteOf c ≠ byteOf '0' := by
      intro heq
      have hchar := congrArg (fun d => Char.ofUInt8 d) heq
      simp only [ofUInt8_byteOf hfirst, ofUInt8_byteOf (c := '0') (by decide)] at hchar
      exact hc hchar
    have hspan := span_ascii (fun d hd => hdigits d (List.mem_cons_of_mem c hd)) hb rest
    have hcons : ascii (c :: cs) ++ b :: rest = byteOf c :: (ascii cs ++ b :: rest) := rfl
    rw [hcons, readWhole, if_neg hlead, if_pos (isDigit_byteOf hfirst), hspan.1, hspan.2]
    rfl

theorem readNumber_digits
    (negative : Bool) (n : Nat) {b : UInt8} (hb : EndsNumeral b) (rest : List UInt8) :
    readNumber negative (ascii (Decimal.digits n) ++ b :: rest) =
      some (.integer negative (Decimal.digits n), b :: rest) := by
  obtain ⟨hdigit, hpoint, hlower, hupper⟩ := hb
  have hfraction : skipFraction (b :: rest) = some (b :: rest) := by
    simp [skipFraction, hpoint]
  have hexponent : skipExponent (b :: rest) = some (b :: rest) := by
    simp [skipExponent, hlower, hupper]
  have hchars := map_ofUInt8_ascii fun c hc => Decimal.isDigit_of_mem_digits (n := n) hc
  simp [readNumber, readWhole_digits n hdigit, hfraction, hexponent, hchars]

/-- A digit is no blank and starts no token but a numeral. -/
theorem digit_starts_numeral {c : Char} (hc : c.isDigit = true) :
    isSpace (byteOf c) = false ∧
      ∀ rest, readToken (byteOf c) rest = readNumber false (byteOf c :: rest) := by
  have hall : ∀ n < 58, 48 ≤ n →
      isSpace (UInt8.ofNat n) = false ∧ mark? (UInt8.ofNat n) = none ∧
        UInt8.ofNat n ≠ byteOf '"' ∧ UInt8.ofNat n ≠ byteOf 'n' ∧ UInt8.ofNat n ≠ byteOf 't' ∧
          UInt8.ofNat n ≠ byteOf 'f' ∧ UInt8.ofNat n ≠ byteOf '-' := by decide
  obtain ⟨hbyte, hlow, hhigh⟩ := toNat_byteOf hc
  have hof : byteOf c = UInt8.ofNat c.toNat := by
    apply UInt8.toNat_inj.1
    rw [hbyte, UInt8.toNat_ofNat']
    omega
  obtain ⟨hspace, hmark, hquote, hn, ht, hf, hminus⟩ := hall c.toNat (by omega) hlow
  rw [← hof] at hspace hmark hquote hn ht hf hminus
  refine ⟨hspace, fun rest => ?_⟩
  simp [readToken, hmark, hquote, hn, ht, hf, hminus]

theorem readToken_minus (rest : List UInt8) :
    readToken (byteOf '-') rest = readNumber true rest := by
  rfl

theorem tokens?_numeral
    (n : Int) {b : UInt8} (hb : EndsNumeral b) (rest : List UInt8) :
    tokens? (ascii (Decimal.signed n) ++ b :: rest) =
      (tokens? (b :: rest)).map ((Scalar.integer n).token :: ·) := by
  by_cases hneg : n < 0
  · have hshape : ascii (Decimal.signed n) ++ b :: rest =
        byteOf '-' :: (ascii (Decimal.digits n.natAbs) ++ b :: rest) := by
      simp [Decimal.signed, hneg, ascii]
    have htoken : readToken (byteOf '-') (ascii (Decimal.digits n.natAbs) ++ b :: rest) =
        some ((Scalar.integer n).token, b :: rest) := by
      rw [readToken_minus, readNumber_digits true n.natAbs hb rest]
      simp [Scalar.token, hneg]
    rw [hshape]
    exact tokens?_cons (by decide) htoken
  · obtain ⟨c, cs, hcs⟩ := List.exists_cons_of_ne_nil (Decimal.digits_ne_nil n.natAbs)
    have hc : c.isDigit = true := Decimal.isDigit_of_mem_digits (n := n.natAbs) (by simp [hcs])
    have hshape : ascii (Decimal.signed n) ++ b :: rest =
        byteOf c :: (ascii cs ++ b :: rest) := by
      simp [Decimal.signed, hneg, ascii, hcs]
    have hstart := digit_starts_numeral hc
    have htoken : readToken (byteOf c) (ascii cs ++ b :: rest) =
        some ((Scalar.integer n).token, b :: rest) := by
      rw [hstart.2]
      have hread := readNumber_digits false n.natAbs hb rest
      simpa [Scalar.token, hneg, hcs, ascii] using hread
    rw [hshape]
    exact tokens?_cons hstart.1 htoken

/-! ## Objects -/

theorem tokens?_scalar
    (v : Scalar) {b : UInt8} (hb : EndsNumeral b) (rest : List UInt8) :
    tokens? (v.bytes ++ b :: rest) = (tokens? (b :: rest)).map (v.token :: ·) := by
  cases v with
  | integer n => exact tokens?_numeral n hb rest
  | bool flag =>
      cases flag with
      | true => exact tokens?_cons (by decide) rfl
      | false => exact tokens?_cons (by decide) rfl
  | text s => exact tokens?_literal s (b :: rest)

/-- The tokens of one field. -/
def fieldTokens (field : String × Scalar) : List Token :=
  [.string ((utf8 field.1).map partOf), .colon, field.2.token]

theorem tokens?_field
    (field : String × Scalar) {b : UInt8} (hb : EndsNumeral b) (rest : List UInt8) :
    tokens? (fieldBytes field ++ b :: rest) =
      (tokens? (b :: rest)).map (fieldTokens field ++ ·) := by
  have hshape : fieldBytes field ++ b :: rest =
      literal field.1 ++ byteOf ':' :: (field.2.bytes ++ b :: rest) := by
    simp [fieldBytes]
  rw [hshape, tokens?_literal, tokens?_mark (t := .colon) (by decide) (by decide),
    tokens?_scalar field.2 hb]
  simp [fieldTokens, Function.comp_def]

/-- The tokens behind the first field of an object. -/
def tailTokens (fields : List (String × Scalar)) : List Token :=
  fields.flatMap (fun field => .comma :: fieldTokens field) ++ [.closeObject]

/-- The bytes behind the first field of an object. -/
def tailBytes (fields : List (String × Scalar)) : List UInt8 :=
  fields.flatMap (fun field => byteOf ',' :: fieldBytes field) ++ [byteOf '\x7d']

theorem objectBytes_cons (field : String × Scalar) (fields : List (String × Scalar)) :
    objectBytes (field :: fields) =
      byteOf '\x7b' :: (fieldBytes field ++ tailBytes fields) := by
  have hjoin : List.intercalate [byteOf ','] ((field :: fields).map fieldBytes) =
      fieldBytes field ++ fields.flatMap (fun f => byteOf ',' :: fieldBytes f) := by
    induction fields generalizing field with
    | nil => simp
    | cons next fields ih =>
        have hnext := ih next
        simp only [List.map_cons, List.flatMap_cons] at hnext ⊢
        rw [List.intercalate_cons_cons, hnext]
        simp
  unfold objectBytes tailBytes
  rw [hjoin]
  simp

theorem tailBytes_endsNumeral (fields : List (String × Scalar)) :
    ∃ b rest, tailBytes fields = b :: rest ∧ EndsNumeral b := by
  cases fields with
  | nil => exact ⟨_, _, rfl, endsNumeral_brace⟩
  | cons field fields => exact ⟨_, _, rfl, endsNumeral_comma⟩

theorem tokens?_field_tail (field : String × Scalar) (fields : List (String × Scalar)) :
    tokens? (fieldBytes field ++ tailBytes fields) =
      (tokens? (tailBytes fields)).map (fieldTokens field ++ ·) := by
  obtain ⟨b, rest, hshape, hends⟩ := tailBytes_endsNumeral fields
  rw [hshape]
  exact tokens?_field field hends rest

theorem tokens?_tail (fields : List (String × Scalar)) :
    tokens? (tailBytes fields) = some (tailTokens fields) := by
  induction fields with
  | nil =>
      have hclose :=
        tokens?_mark (b := byteOf '\x7d') (t := .closeObject) (by decide) (by decide) []
      simpa [tailBytes, tailTokens, tokens?] using hclose
  | cons field fields ih =>
      have hshape : tailBytes (field :: fields) =
          byteOf ',' :: (fieldBytes field ++ tailBytes fields) := by
        simp [tailBytes]
      rw [hshape, tokens?_mark (t := .comma) (by decide) (by decide), tokens?_field_tail, ih]
      simp [tailTokens]

theorem tokens?_objectBytes (field : String × Scalar) (fields : List (String × Scalar)) :
    tokens? (objectBytes (field :: fields)) =
      some (.openObject :: (fieldTokens field ++ tailTokens fields)) := by
  rw [objectBytes_cons, tokens?_mark (t := .openObject) (by decide) (by decide),
    tokens?_field_tail, tokens?_tail]
  rfl

/-- The members that fields are read as. -/
def members (fields : List (String × Scalar)) : List (List Part × Value) :=
  fields.map fun field => ((utf8 field.1).map partOf, field.2.value)

theorem readValue_scalar (stack : List Open) (v : Scalar) (ts : List Token) :
    readValue stack (v.token :: ts) = readAfter stack v.value ts := by
  cases v <;> simp [Scalar.token, Scalar.value, readValue]

theorem readAfter_tail
    (before : List (List Part × Value)) (key : List Part) (v : Value)
    (fields : List (String × Scalar)) :
    readAfter [.object before key] v (tailTokens fields) =
      some (.object (((key, v) :: before).reverse ++ members fields)) := by
  induction fields generalizing before key v with
  | nil => simp [tailTokens, members, readAfter]
  | cons field fields ih =>
      have hshape : tailTokens (field :: fields) =
          .comma :: .string ((utf8 field.1).map partOf) :: .colon ::
            field.2.token :: tailTokens fields := by
        simp [tailTokens, fieldTokens]
      rw [hshape, readAfter, readValue_scalar, ih]
      simp [members]

theorem parse?_objectBytes (field : String × Scalar) (fields : List (String × Scalar)) :
    Value.parse? (objectBytes (field :: fields)) = some (.object (members (field :: fields))) := by
  rw [Value.parse?, tokens?_objectBytes, Option.bind_some]
  have hshape : Token.openObject :: (fieldTokens field ++ tailTokens fields) =
      .openObject :: .string ((utf8 field.1).map partOf) :: .colon ::
        field.2.token :: tailTokens fields := by
    simp [fieldTokens]
  rw [hshape, readValue, readValue_scalar, readAfter_tail]
  simp [members]

theorem namedMembers?_members (fields : List (String × Scalar)) :
    Value.namedMembers? (members fields) =
      some (fields.map fun field => (field.1, field.2.value)) := by
  induction fields with
  | nil => rfl
  | cons field fields ih =>
      simp only [members, List.map_cons] at ih ⊢
      simp [Value.namedMembers?, ih]

/-! ## Scalars -/

theorem whole?_integer (n : Int) : (Scalar.integer n).value.whole? = some n := by
  have hvalue : Nat.ofDigitChars 10 (Decimal.digits n.natAbs) 0 = n.natAbs :=
    Nat.ofDigitChars_ten_toDigits
  by_cases hneg : n < 0
  · have hne : n.natAbs ≠ 0 := by omega
    simp only [Scalar.value, Value.whole?, hneg, decide_true, if_true, hvalue, if_neg hne,
      Option.some.injEq]
    omega
  · simp only [Scalar.value, Value.whole?, hneg, decide_false, hvalue, Bool.false_eq_true, if_false,
      Option.some.injEq]
    omega

@[simp] theorem int?_integer {n : Int} (hn : Decimal.Fits n) :
    (Scalar.integer n).value.int? = some n := by
  simp [Value.int?, whole?_integer, Decimal.fitting?, hn]

@[simp] theorem count?_integer {n : Nat} (hn : n < UInt64.size) :
    (Scalar.integer n).value.count? = some n := by
  have hrange : 0 ≤ (n : Int) ∧ (n : Int).toNat < UInt64.size := ⟨Int.natCast_nonneg n, hn⟩
  rw [Value.count?, whole?_integer, Option.bind_some, if_pos hrange, Int.toNat_natCast]

@[simp] theorem bool?_bool (b : Bool) : (Scalar.bool b).value.bool? = some b := rfl

@[simp] theorem text?_text (s : String) : (Scalar.text s).value.text? = some s :=
  textOf?_partOf s

@[simp] theorem choice?_text (s : String) : (Scalar.text s).value.choice? = some s :=
  textOf?_partOf s

theorem optional?_int?_integer {n : Int} (hn : Decimal.Fits n) :
    (Scalar.integer n).value.optional? Value.int? = some (some n) := by
  have hread := int?_integer hn
  simp only [Scalar.value] at hread ⊢
  simp [Value.optional?, hread]

end Json
end DeltaLedger
