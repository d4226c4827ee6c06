import DeltaLedger.Coordinator.Settings
import DeltaLedger.Proofs.StoredRecord
import Mathlib.Data.List.Basic

/-!
# Reading back written settings

The name and the count of written settings are read as they were.  The offset is written down to its
seconds, but reading stops behind the minutes.  So it comes back as its whole minutes, and the settings
come back as they were exactly when the offset has no seconds besides.
-/

namespace DeltaLedger

/-! ## Offsets -/

namespace Offset

theorem tdiv_sixty (n : Int) :
    n.tdiv 60 = if n < 0 then -((n.natAbs / 60 : Nat) : Int) else (n.natAbs / 60 : Nat) := by
  rw [Int.tdiv_eq_ediv, show Int.sign 60 = 1 by decide]
  split <;> split <;> omega

/-- The part of an offset that is whole minutes, on the same side of UTC. -/
def wholeMinutes (o : Offset) : Offset where
  seconds := 60 * o.seconds.tdiv 60
  lower := by
    have hlower := o.lower
    simp only [secondsPerDay, tdiv_sixty] at hlower ⊢
    split <;> omega
  upper := by
    have hupper := o.upper
    simp only [secondsPerDay, tdiv_sixty] at hupper ⊢
    split <;> omega

theorem wholeMinutes_eq_iff {o : Offset} : o.wholeMinutes = o ↔ 60 ∣ o.seconds := by
  obtain ⟨n, hlower, hupper⟩ := o
  simp only [wholeMinutes, mk.injEq, tdiv_sixty]
  split <;> omega

theorem twoDigits_padded {n : Nat} (hn : n < 100) (rest : List Char) :
    twoDigits (Decimal.padded 2 n ++ rest) = .ok n := by
  have hlen : (Decimal.padded 2 n).length = 2 := Decimal.length_padded (by decide) hn
  obtain ⟨c, d, hpadded⟩ := List.length_eq_two.mp hlen
  have hdigits := Decimal.all_isDigit_padded 2 n
  have hvalue := Decimal.value?_padded 2 n
  rw [hpadded] at hdigits hvalue ⊢
  simp only [List.all_cons, List.all_nil, Bool.and_true, Bool.and_eq_true] at hdigits
  simp [Decimal.value?, hdigits, Nat.ofDigitChars] at hvalue
  simp [twoDigits, firstTwo, digit?, hdigits, hvalue, bind, Except.bind]

/-- A separator ends where the digits begin. -/
theorem dropWhile_isSeparator_padded (width n : Nat) (rest : List Char) :
    (':' :: (Decimal.padded width n ++ rest)).dropWhile isSeparator =
      Decimal.padded width n ++ rest := by
  obtain ⟨c, cs, hpadded⟩ := List.exists_cons_of_ne_nil (Decimal.padded_ne_nil width n)
  have hdigit : c.isDigit = true := Decimal.isDigit_of_mem_padded (by rw [hpadded]; simp)
  have hcolon : c ≠ ':' := by rintro rfl; simp at hdigit
  have hdigits : isSeparator c = false := by
    simp [isSeparator, hcolon, DateTime.isBlank_of_isDigit hdigit]
  rw [List.dropWhile_cons_of_pos (by decide), hpadded, List.cons_append,
    List.dropWhile_cons_of_neg (by simp [hdigits])]

/-- Nothing behind the minutes is read. -/
theorem distance_padded {h m : Nat} (hhours : h < 100) (hminutes : m < 60) (rest : List Char) :
    distance (Decimal.padded 2 h ++ ':' :: (Decimal.padded 2 m ++ rest)) =
      .ok (h * 3600 + m * 60) := by
  have hlen : (Decimal.padded 2 h).length = 2 := Decimal.length_padded (by decide) hhours
  simp only [distance, twoDigits_padded hhours, List.drop_left' hlen, dropWhile_isSeparator_padded,
    twoDigits_padded (show m < 100 by omega), bind, Except.bind, if_pos hminutes]

theorem parse_of_sign {s : String} {c : Char} {cs : List Char} (hs : s.toList = c :: cs)
    (hsign : c = '+' ∨ c = '-') : parse s = ofSigned s.toList := by
  have hutc : ¬(s.toList.map Char.toLower = ['u', 't', 'c'] ∨ s = "Z") := by
    rintro (hname | rfl)
    · rw [hs, List.map_cons, List.cons.injEq] at hname
      rcases hsign with rfl | rfl
      · exact absurd hname.1 (by decide)
      · exact absurd hname.1 (by decide)
    · have hletter : c = 'Z' := by simpa [eq_comm] using congrArg List.head? hs
      rw [hletter] at hsign
      exact absurd hsign (by decide)
  rw [parse, if_neg hutc]

theorem ofSigned_cons {cs : List Char} {n : Nat} {m : Int} {o : Offset}
    (hread : distance cs = .ok n) (hseconds : ofSeconds? (if m < 0 then -(n : Int) else n) = some o) :
    ofSigned ((if m < 0 then '-' else '+') :: cs) = .ok o := by
  have hsign : isNegative ((if m < 0 then '-' else '+') :: cs) = .ok (decide (m < 0), cs) := by
    split
    next hnegative => rw [isNegative, if_neg (by decide), if_pos (.inl rfl), decide_eq_true hnegative]
    next hpositive => rw [isNegative, if_pos rfl, decide_eq_false hpositive]
  simp only [ofSigned, hsign, hread, bind, Except.bind, decide_eq_true_eq, hseconds]

theorem parse_text (o : Offset) : parse o.text = .ok o.wholeMinutes := by
  have hday : o.seconds.natAbs < 86400 := by
    have hlower := o.lower
    have hupper := o.upper
    simp only [secondsPerDay] at hlower hupper
    omega
  have htext : o.text.toList = (if o.seconds < 0 then '-' else '+') ::
      (Decimal.padded 2 (o.seconds.natAbs / 3600) ++
        ':' :: (Decimal.padded 2 (o.seconds.natAbs / 60 % 60) ++ secondsText (o.seconds.natAbs % 60))) := by
    simp [text]
  have hseconds : (if o.seconds < 0 then -((o.seconds.natAbs / 3600 * 3600 +
        o.seconds.natAbs / 60 % 60 * 60 : Nat) : Int) else
      (o.seconds.natAbs / 3600 * 3600 + o.seconds.natAbs / 60 % 60 * 60 : Nat)) =
        o.wholeMinutes.seconds := by
    simp only [wholeMinutes, tdiv_sixty]
    split <;> omega
  rw [parse_of_sign htext (by split <;> simp), htext]
  apply ofSigned_cons (distance_padded (by omega) (by omega) _)
  rw [hseconds]
  exact dif_pos ⟨o.wholeMinutes.lower, o.wholeMinutes.upper⟩

end Offset

/-! ## Settings -/

namespace Settings

open Json

variable {s : Settings}

theorem parse?_bytes (hattempts : s.attempts < UInt64.size) :
    parse? s.bytes = some { s with zone := s.zone.wholeMinutes } := by
  have hzone : zone? (Scalar.text s.zone.text).value = some s.zone.wholeMinutes := by
    simp [zone?, Offset.parse_text, Except.toOption]
  simp [parse?, bytes, parse?_objectBytes, Stored.fields?_members, Value.uniqueMember?, required,
    hzone, hattempts]

/-- Written settings are read with the whole minutes of their offset, so as they were exactly when the
offset is of whole minutes. -/
theorem restored_iff_whole_minutes (hattempts : s.attempts < UInt64.size) :
    parse? s.bytes = some { s with zone := s.zone.wholeMinutes } ∧
      (parse? s.bytes = some s ↔ 60 ∣ s.zone.seconds) := by
  have hread := parse?_bytes hattempts
  refine ⟨hread, ?_⟩
  rw [hread, Option.some.injEq, ← Offset.wholeMinutes_eq_iff]
  constructor
  · intro hsame
    exact congrArg zone hsame
  · intro hzone
    rw [hzone]

/-- Three and a half hours behind UTC. -/
def western : Settings :=
  ⟨"prod", ⟨-12600, by decide, by decide⟩, 3⟩

theorem western_restored :
    western.attempts < UInt64.size ∧ 60 ∣ western.zone.seconds ∧ parse? western.bytes = some western :=
  ⟨by decide, by decide, (restored_iff_whole_minutes (by decide)).2.mpr (by decide)⟩

/-- Half a minute ahead of UTC. -/
def early : Settings :=
  ⟨"dev", ⟨30, by decide, by decide⟩, 16⟩

/-- The offset is written as `+00:00:30` and read as UTC. -/
theorem early_read_as_standard :
    early.attempts < UInt64.size ∧ parse? early.bytes = some standard ∧ standard ≠ early :=
  ⟨by decide, parse?_bytes (by decide), by decide⟩

end Settings
end DeltaLedger
