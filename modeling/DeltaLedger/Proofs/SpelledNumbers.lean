import DeltaLedger.Proofs.KeyOrder

/-!
# Names that spell numbers

A name of twenty bytes is read as a number if it is the key of the number.  It is also read if it
has a plus sign before the digits, or a minus sign before nothing but zeros, though no number has
such a key.
-/

namespace DeltaLedger

/-! ## Runs of digits -/

namespace Decimal

variable {cs ds : List Char} {n : Nat}

theorem ofDigitChars_lt_pow (hcs : ∀ c ∈ cs, c.isDigit = true) (n : Nat) :
    Nat.ofDigitChars 10 cs n < (n + 1) * 10 ^ cs.length := by
  induction cs generalizing n with
  | nil => simp
  | cons c cs ih =>
      have hdigit := digit_le_nine (hcs c List.mem_cons_self)
      rw [Nat.ofDigitChars_cons, List.length_cons]
      calc Nat.ofDigitChars 10 cs (10 * n + (c.toNat - '0'.toNat))
          < (10 * n + (c.toNat - '0'.toNat) + 1) * 10 ^ cs.length :=
            ih (fun c' hc' => hcs c' (List.mem_cons_of_mem _ hc')) _
        _ ≤ ((n + 1) * 10) * 10 ^ cs.length := Nat.mul_le_mul_right _ (by omega)
        _ = (n + 1) * 10 ^ (cs.length + 1) := by rw [Nat.pow_succ, Nat.mul_assoc, Nat.mul_comm 10]

/-- Of the runs of digits of one length, no two stand for the same number. -/
theorem eq_of_value?_eq (hlength : cs.length = ds.length) (hcs : value? cs = some n)
    (hds : value? ds = some n) : cs = ds := by
  obtain ⟨_, hdigits, hvalue⟩ := value?_eq_some_iff.mp hcs
  obtain ⟨_, hdigits', hvalue'⟩ := value?_eq_some_iff.mp hds
  rcases Std.lt_trichotomy cs ds with hlt | hsame | hgt
  · have hless := ofDigitChars_lt (n := 0) hdigits hlength hlt
    omega
  · exact hsame
  · have hless := ofDigitChars_lt (n := 0) hdigits' hlength.symm hgt
    omega

/-- A run of digits is the padded form of its number. -/
theorem eq_padded_of_value? (hvalue : value? cs = some n) : cs = padded cs.length n := by
  obtain ⟨hne, hdigits, hnumber⟩ := value?_eq_some_iff.mp hvalue
  have hbound := ofDigitChars_lt_pow hdigits 0
  rw [hnumber, Nat.zero_add, Nat.one_mul] at hbound
  have hlength := length_padded (List.length_pos_iff.mpr hne) hbound
  exact eq_of_value?_eq hlength.symm hvalue (value?_padded _ n)

end Decimal

namespace Layout

/-- How a name can spell a number: it is the key, or a sign takes the place of the first zero. -/
inductive Spells : String → Int → Prop where
  | key (n : Int) : Spells (key n) n
  | plus {n : Int} (hn : 0 ≤ n) : Spells (String.ofList ('+' :: Decimal.padded 19 n.natAbs)) n
  | minus : Spells (String.ofList ('-' :: Decimal.padded 19 0)) 0

variable {name : String} {n : Int}

theorem key_of_neg (hn : n < 0) : key n = String.ofList ('-' :: Decimal.padded 19 n.natAbs) := by
  rw [key, Decimal.signedPadded, if_pos hn]

/-- A name of twenty bytes that ends in digits is known from what is before them and from their
number. -/
theorem eq_ofList_padded (before : List Char) {ds : List Char} {m : Nat}
    (hsize : name.utf8ByteSize = 20) (hname : name.toList = before ++ ds) (hbefore : ∀ c ∈ before, c.utf8Size = 1)
    (hvalue : Decimal.value? ds = some m) :
    name = String.ofList (before ++ Decimal.padded (20 - before.length) m) := by
  obtain ⟨_, hdigits, _⟩ := Decimal.value?_eq_some_iff.mp hvalue
  have hbytes : ∀ c ∈ before ++ ds, c.utf8Size = 1 := by
    intro c hc
    rcases List.mem_append.mp hc with hc | hc
    · exact hbefore c hc
    · exact utf8Size_of_ascii (.inr (hdigits c hc))
  have hlength : before.length + ds.length = 20 := by
    rw [← List.length_append, ← utf8ByteSize_ofList hbytes, ← hname, String.ofList_toList, hsize]
  have hwidth : ds.length = 20 - before.length := by omega
  have hpadded := Decimal.eq_padded_of_value? hvalue
  rw [← String.ofList_toList (s := name), hname, ← hwidth, ← hpadded]

theorem spells_of_number? (hnumber : number? name = some n) : Decimal.Fits n ∧ Spells name n := by
  unfold number? at hnumber
  split at hnumber
  next hsize =>
    obtain ⟨z, hspelled, hfitting⟩ := Option.bind_eq_some_iff.mp hnumber
    obtain ⟨hfits, rfl⟩ : Decimal.Fits z ∧ z = n := by
      simpa [Decimal.fitting?] using hfitting
    refine ⟨hfits, ?_⟩
    unfold Decimal.signedValue? at hspelled
    split at hspelled
    next ds hname =>
      obtain ⟨m, hvalue, rfl⟩ := Option.map_eq_some_iff.mp hspelled
      rw [eq_ofList_padded ['+'] hsize hname (List.forall_mem_singleton.mpr rfl) hvalue]
      have hplus := Spells.plus (Int.natCast_nonneg m)
      rw [Int.natAbs_natCast] at hplus
      exact hplus
    next ds hname =>
      obtain ⟨m, hvalue, rfl⟩ := Option.map_eq_some_iff.mp hspelled
      rw [eq_ofList_padded ['-'] hsize hname (List.forall_mem_singleton.mpr rfl) hvalue]
      cases m with
      | zero => exact .minus
      | succ m =>
          have hkey := key_of_neg (n := -((m + 1 : Nat) : Int)) (by omega)
          rw [Int.natAbs_neg, Int.natAbs_natCast] at hkey
          exact hkey ▸ .key _
    next =>
      obtain ⟨m, hvalue, rfl⟩ := Option.map_eq_some_iff.mp hspelled
      rw [eq_ofList_padded [] hsize rfl (List.forall_mem_nil _) hvalue]
      exact key_of_nonneg (Int.natCast_nonneg m) ▸ .key _
  next => cases hnumber

/-- A name is read as a number exactly if it spells it and the number has 64 bits. -/
theorem number?_eq_some_iff : number? name = some n ↔ Decimal.Fits n ∧ Spells name n := by
  constructor
  · exact spells_of_number?
  · rintro ⟨hfits, hspells⟩
    cases hspells with
    | key => exact number?_key hfits
    | minus => decide
    | plus hn =>
        have hbytes : ∀ c ∈ '+' :: Decimal.padded 19 n.natAbs, c.utf8Size = 1 := by
          refine List.forall_mem_cons.mpr ⟨rfl, fun c hc => ?_⟩
          exact utf8Size_of_ascii (.inr (Decimal.isDigit_of_mem_padded hc))
        have hlength : (Decimal.padded 19 n.natAbs).length = 19 :=
          Decimal.length_padded (by decide) (by have := hfits.2; omega)
        rw [number?, if_pos (by rw [utf8ByteSize_ofList hbytes, List.length_cons, hlength]),
          String.toList_ofList, Decimal.signedValue?, Decimal.value?_padded]
        simp [Decimal.fitting?, Int.natAbs_of_nonneg hn, hfits]

end Layout
end DeltaLedger
