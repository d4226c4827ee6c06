import DeltaLedger.Proofs.ByteOrder
import DeltaLedger.Proofs.KeyOrder

/-!
# Keys and paths of a layout

Every number of 64 bits has a key of twenty bytes, from which it is read back, and the keys of
numbers that are not negative are ordered as the numbers are, byte by byte.  Below any path, the
layout gives every place a path of its own.
-/

namespace DeltaLedger
namespace Layout

/-! ## The order of keys in bytes -/

section Order

variable {m n : Int}

theorem key_lt_of_lt (hm : 0 ≤ m) (hn : 0 ≤ n) (hfits : Decimal.Fits m) (hfits' : Decimal.Fits n)
    (hlt : m < n) : key m < key n := by
  rcases Std.lt_trichotomy (key m) (key n) with hless | hsame | hgreater
  · exact hless
  · exact absurd (key_injective hsame) (Int.ne_of_lt hlt)
  · exact absurd (lt_of_key_lt hn hm hfits' hfits hgreater) (Int.lt_asymm hlt)

theorem lt_iff_utf8_key_lt (hm : 0 ≤ m) (hn : 0 ≤ n) (hfits : Decimal.Fits m)
    (hfits' : Decimal.Fits n) : m < n ↔ Json.utf8 (key m) < Json.utf8 (key n) := by
  constructor
  · exact fun hlt => Json.utf8_lt_utf8 (key_lt_of_lt hm hn hfits hfits' hlt)
  · intro hbytes
    rcases Int.lt_trichotomy m n with hless | rfl | hgreater
    · exact hless
    · exact absurd hbytes (List.lt_irrefl _)
    · have hreverse := Json.utf8_lt_utf8 (key_lt_of_lt hn hm hfits' hfits hgreater)
      exact absurd hbytes (List.lt_asymm hreverse)

end Order

/-- Keys have twenty bytes, are read back and keep the order of the numbers that are not negative.
Below any path that can be read, all places of the layout have paths that can be read, and no two
of them have the same. -/
theorem keys_and_places :
    (∀ n, Decimal.Fits n → (key n).utf8ByteSize = 20 ∧ number? (key n) = some n) ∧
    (∀ m n, 0 ≤ m → 0 ≤ n → Decimal.Fits m → Decimal.Fits n →
      (m < n ↔ Json.utf8 (key m) < Json.utf8 (key n))) ∧
    ∀ root p, Path.parse root = .ok p →
      (∀ place, ∃ q, Path.parse ((below root).pathOf place) = .ok q) ∧
      ∀ place place', (below root).pathOf place = (below root).pathOf place' → place = place' := by
  refine ⟨fun n hfits => ⟨utf8ByteSize_key hfits, number?_key hfits⟩,
    fun m n hm hn hfits hfits' => lt_iff_utf8_key_lt hm hn hfits hfits', ?_⟩
  intro root p hparse
  rw [← Path.text_of_parse hparse]
  constructor
  · intro place
    rw [pathOf_below]
    exact ⟨p.below place, Path.parse_text _⟩
  · intro place place' hsame
    rw [pathOf_below, pathOf_below] at hsame
    exact Path.below_injective (text_injective hsame)

/-- The least number of 64 bits, a step from one digit to two, and the root of a tree. -/
theorem keys_and_places_limits :
    Decimal.Fits (-9_223_372_036_854_775_808) ∧
      number? (key (-9_223_372_036_854_775_808)) = some (-9_223_372_036_854_775_808) ∧
      Json.utf8 (key 9) < Json.utf8 (key 10) ∧
      ∃ q, Path.parse ((below "/").pathOf (.ok (-1))) = .ok q := by
  obtain ⟨hkeys, horder, hplaces⟩ := keys_and_places
  exact ⟨by decide, (hkeys _ (by decide)).2,
    (horder 9 10 (by decide) (by decide) (by decide) (by decide)).mp (by decide),
    (hplaces "/" Path.root rfl).1 _⟩

end Layout
end DeltaLedger
