import DeltaLedger.Json.Literal

/-!
# The order of texts and of their bytes

Texts are ordered by their characters.  The UTF-8 form keeps that order: of two different characters
the smaller one has the smaller bytes, at the first byte where they differ, whatever follows them.
-/

namespace DeltaLedger
namespace Json

theorem ofNat_cons_lt_iff {m n : Nat} (hm : m < 256) (hn : n < 256) {x y : List UInt8} :
    UInt8.ofNat m :: x < UInt8.ofNat n :: y ↔ m < n ∨ m = n ∧ x < y := by
  have hvalue : ∀ k < 256, (UInt8.ofNat k).toNat = k := by
    intro k hk
    rw [UInt8.toNat_ofNat', Nat.mod_eq_of_lt hk]
  rw [List.cons_lt_cons_iff, UInt8.lt_iff_toNat_lt, ← UInt8.toNat_inj, hvalue m hm, hvalue n hn]

/-- Neither character's bytes begin the other's, so what follows them does not count. -/
theorem utf8EncodeChar_append_lt {c d : Char} (hlt : c < d) (x y : List UInt8) :
    String.utf8EncodeChar c ++ x < String.utf8EncodeChar d ++ y := by
  have hless : c.val.toNat < d.val.toNat := UInt32.lt_iff_toNat_lt.mp hlt
  have hbound : d.val.toNat < 1114112 := by
    rcases d.valid with hlow | hhigh
    · exact Nat.lt_trans hlow (by decide)
    · exact hhigh.2
  unfold String.utf8EncodeChar
  generalize c.val.toNat = m at hless
  generalize d.val.toNat = n at hless hbound
  -- Three steps in base 64 compare the numbers digit by digit, and omega need not.
  have hdigits : ∀ j k : Nat, j < k → j / 64 < k / 64 ∨ j / 64 = k / 64 ∧ j % 64 < k % 64 := by
    intro j k hjk
    omega
  have hquotients : ∀ k : Nat, k / 4096 = k / 64 / 64 ∧ k / 262144 = k / 64 / 64 / 64 := by
    intro k
    omega
  have hlast := hdigits m n hless
  have hthird := hdigits (m / 64) (n / 64)
  have hsecond := hdigits (m / 64 / 64) (n / 64 / 64)
  simp only [hquotients]
  repeat' split
  all_goals
    simp (disch := omega) only [List.cons_append, List.nil_append, ofNat_cons_lt_iff]
    omega

theorem utf8_eq_flatMap (s : String) : utf8 s = s.toList.flatMap String.utf8EncodeChar := by
  unfold utf8
  rw [← String.utf8Encode_toList, List.utf8Encode]
  simp

/-- Texts are ordered as their bytes are. -/
theorem utf8_lt_utf8 {s t : String} (hlt : s < t) : utf8 s < utf8 t := by
  rw [String.lt_iff] at hlt
  rw [utf8_eq_flatMap, utf8_eq_flatMap]
  generalize s.toList = cs at hlt ⊢
  generalize t.toList = ds at hlt ⊢
  induction cs generalizing ds with
  | nil =>
      cases ds with
      | nil => exact absurd hlt (List.lt_irrefl _)
      | cons d ds =>
          obtain ⟨b, bs, hbytes⟩ := List.exists_cons_of_ne_nil (String.utf8EncodeChar_ne_nil (c := d))
          rw [List.flatMap_nil, List.flatMap_cons, hbytes]
          exact List.nil_lt_cons _ _
  | cons c cs ih =>
      cases ds with
      | nil => cases hlt
      | cons d ds =>
          rw [List.flatMap_cons, List.flatMap_cons]
          rcases List.cons_lt_cons_iff.mp hlt with hhead | ⟨rfl, htail⟩
          · exact utf8EncodeChar_append_lt hhead _ _
          · exact List.append_left_lt (ih ds htail)

end Json
end DeltaLedger
