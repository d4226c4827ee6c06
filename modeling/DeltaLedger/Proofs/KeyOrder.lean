import DeltaLedger.Proofs.AloneRules

/-!
# The order of keys

A tree lists the names below a node in their order as texts.  Keys of numbers that
are not negative all have the same length, so that order is the order of the numbers,
and a client sees the numbers of the ok deltas from the oldest to the newest.
-/

namespace DeltaLedger

/-! ## Digits -/

namespace Decimal

theorem digit_le_nine {c : Char} (hc : c.isDigit = true) : c.toNat - '0'.toNat ≤ 9 := by
  have hrange : 48 ≤ c.toNat ∧ c.toNat ≤ 57 := by
    simpa [Char.isDigit, UInt32.le_iff_toNat_le] using hc
  have hzero : '0'.toNat = 48 := rfl
  omega

theorem digit_lt_digit {c d : Char} (hc : c.isDigit = true) (hlt : c < d) :
    c.toNat - '0'.toNat < d.toNat - '0'.toNat := by
  have hrange : 48 ≤ c.toNat := by
    have hdigit : 48 ≤ c.toNat ∧ c.toNat ≤ 57 := by
      simpa [Char.isDigit, UInt32.le_iff_toNat_le] using hc
    exact hdigit.1
  have hzero : '0'.toNat = 48 := rfl
  have hless : c.toNat < d.toNat := UInt32.lt_iff_toNat_lt.mp hlt
  omega

variable {cs ds : List Char}

theorem value?_eq_some_iff {n : Nat} : value? cs = some n ↔
    cs ≠ [] ∧ (∀ c ∈ cs, c.isDigit = true) ∧ Nat.ofDigitChars 10 cs 0 = n := by
  simp [value?, and_assoc]

theorem ofDigitChars_padded (width n : Nat) : Nat.ofDigitChars 10 (padded width n) 0 = n :=
  (value?_eq_some_iff.mp (value?_padded width n)).2.2

/-- What was ahead stays ahead, whatever digits follow. -/
theorem ofDigitChars_lt_of_lt {m n : Nat} (hcs : ∀ c ∈ cs, c.isDigit = true)
    (hlength : cs.length = ds.length) (hlt : m < n) :
    Nat.ofDigitChars 10 cs m < Nat.ofDigitChars 10 ds n := by
  induction cs generalizing ds m n with
  | nil =>
      rw [List.eq_nil_of_length_eq_zero hlength.symm]
      simpa using hlt
  | cons c cs ih =>
      cases ds with
      | nil => cases hlength
      | cons d ds =>
          have hdigit := digit_le_nine (hcs c List.mem_cons_self)
          rw [Nat.ofDigitChars_cons, Nat.ofDigitChars_cons]
          refine ih (fun c' hc' => hcs c' (List.mem_cons_of_mem _ hc')) (Nat.succ.inj hlength) ?_
          omega

theorem ofDigitChars_lt {n : Nat} (hcs : ∀ c ∈ cs, c.isDigit = true)
    (hlength : cs.length = ds.length) (hlt : cs < ds) :
    Nat.ofDigitChars 10 cs n < Nat.ofDigitChars 10 ds n := by
  induction cs generalizing ds n with
  | nil =>
      rw [List.eq_nil_of_length_eq_zero hlength.symm] at hlt
      exact absurd hlt (List.lt_irrefl _)
  | cons c cs ih =>
      cases ds with
      | nil => cases hlength
      | cons d ds =>
          have hrest := fun c' hc' => hcs c' (List.mem_cons_of_mem _ hc')
          rw [Nat.ofDigitChars_cons, Nat.ofDigitChars_cons]
          rcases List.cons_lt_cons_iff.mp hlt with hhead | ⟨rfl, htail⟩
          · have hdigits := digit_lt_digit (hcs c List.mem_cons_self) hhead
            exact ofDigitChars_lt_of_lt hrest (Nat.succ.inj hlength) (by omega)
          · exact ih hrest (Nat.succ.inj hlength) htail

end Decimal

namespace Layout

theorem key_of_nonneg {n : Int} (hn : 0 ≤ n) :
    key n = String.ofList (Decimal.padded 20 n.natAbs) := by
  rw [key, Decimal.signedPadded, if_neg (Int.not_lt.mpr hn)]

theorem lt_of_key_lt {m n : Int} (hm : 0 ≤ m) (hn : 0 ≤ n) (hfits : Decimal.Fits m)
    (hfits' : Decimal.Fits n) (hlt : key m < key n) : m < n := by
  have hlength : (key m).toList.length = (key n).toList.length := by
    rw [toList_key, toList_key, Decimal.length_signedPadded hfits, Decimal.length_signedPadded hfits']
  rw [key_of_nonneg hm, key_of_nonneg hn, String.toList_ofList, String.toList_ofList] at hlength
  rw [key_of_nonneg hm, key_of_nonneg hn, String.lt_iff, String.toList_ofList,
    String.toList_ofList] at hlt
  have hless := Decimal.ofDigitChars_lt (n := 0) (fun c => Decimal.isDigit_of_mem_padded) hlength hlt
  rw [Decimal.ofDigitChars_padded, Decimal.ofDigitChars_padded] at hless
  omega

end Layout

/-! ## Names below a node -/

theorem lt_of_compare_append {names : List String} {a b : String}
    (hcompare : compare (names ++ [a]) (names ++ [b]) = .lt) : a < b := by
  induction names with
  | nil =>
      have hhead : compare a b = .lt := by
        simpa [List.compare_cons_cons, Ordering.then_eq_lt] using hcompare
      exact compareOfLessAndEq_eq_lt.mp hhead
  | cons name names ih =>
      rw [List.cons_append, List.cons_append, List.compare_cons_cons,
        Std.ReflOrd.compare_self] at hcompare
      exact ih hcompare

theorem Tree.pairwise_childNames (t : Tree) (p : Path) :
    (t.childNames p).Pairwise (· < ·) := by
  refine List.Pairwise.filterMap _ ?_ Std.ExtTreeMap.ordered_keys
  intro q q' hlt name hname name' hname'
  have hnames := Site.names_of_childName? hname
  have hnames' := Site.names_of_childName? hname'
  change compare q.names q'.names = .lt at hlt
  rw [hnames, hnames'] at hlt
  exact lt_of_compare_append hlt

namespace Site

variable {s : Site} {t : Tree}

theorem mem_names_okDeltas_iff (hkept : s.Kept t) (hvalid : (s.book t).Valid) {name : String} :
    name ∈ s.names .okDeltas t ↔ ∃ n ok, (s.book t).ok n = some ok ∧ name = Layout.key n := by
  rw [mem_names_iff hkept]
  constructor
  · rintro ⟨_, place, node, hnode, hplace⟩
    cases place <;> simp [Place.names] at hplace
    next n =>
      cases hok : (s.book t).ok n with
      | none =>
          rw [book_ok_eq_none_iff hkept, hnode] at hok
          cases hok
      | some ok => exact ⟨n, ok, hok, hplace.symm⟩
  · rintro ⟨n, ok, hok, rfl⟩
    obtain ⟨node, hnode, _⟩ := Tree.node_of_record? hok
    have hcounters : (s.book t).counters ≠ none := by
      intro hnone
      have hmissing := (hvalid.bare hnone).2 n
      rw [hok] at hmissing
      cases hmissing
    exact ⟨(hkept.has_carrier (.inr (.inl rfl))).mpr hcounters, _, node, hnode, rfl⟩

theorem pairwise_numbers_okDeltas (hkept : s.Kept t) (hvalid : (s.book t).Valid) :
    ((s.names .okDeltas t).filterMap Layout.number?).Pairwise (· < ·) := by
  have hsorted : (s.names .okDeltas t).Pairwise (· < ·) := by
    unfold names
    split
    next => exact t.pairwise_childNames _
    next => exact .nil
  refine List.pairwise_filterMap.mpr (hsorted.imp_of_mem ?_)
  intro name name' hname hname' hlt m hm n hn
  obtain ⟨m', ok, hok, rfl⟩ := (mem_names_okDeltas_iff hkept hvalid).mp hname
  obtain ⟨n', ok', hok', rfl⟩ := (mem_names_okDeltas_iff hkept hvalid).mp hname'
  rw [Layout.number?_key (hvalid.fits_of_ok hok)] at hm
  rw [Layout.number?_key (hvalid.fits_of_ok hok')] at hn
  cases hm
  cases hn
  exact Layout.lt_of_key_lt ((hvalid.numbered _).mp ⟨ok, hok⟩).1
    ((hvalid.numbered _).mp ⟨ok', hok'⟩).1 (hvalid.fits_of_ok hok) (hvalid.fits_of_ok hok') hlt

theorem mem_numbers_okDeltas_iff (hkept : s.Kept t) (hvalid : (s.book t).Valid) {n : Int} :
    n ∈ (s.names .okDeltas t).filterMap Layout.number? ↔ ∃ ok, (s.book t).ok n = some ok := by
  rw [List.mem_filterMap]
  constructor
  · rintro ⟨name, hname, hnumber⟩
    obtain ⟨m, ok, hok, rfl⟩ := (mem_names_okDeltas_iff hkept hvalid).mp hname
    rw [Layout.number?_key (hvalid.fits_of_ok hok)] at hnumber
    cases hnumber
    exact ⟨ok, hok⟩
  · rintro ⟨ok, hok⟩
    exact ⟨Layout.key n, (mem_names_okDeltas_iff hkept hvalid).mpr ⟨n, ok, hok, rfl⟩,
      Layout.number?_key (hvalid.fits_of_ok hok)⟩

theorem numbers_okDeltas (hkept : s.Kept t) (hvalid : (s.book t).Valid) :
    (s.names .okDeltas t).filterMap Layout.number? =
      (List.range (s.book t).sequence.nextDeltaNum.toNat).map Int.ofNat := by
  apply eq_of_increasing (f := id) (pairwise_numbers_okDeltas hkept hvalid)
  · refine List.pairwise_map.mpr (List.pairwise_lt_range.imp ?_)
    exact fun hlt => Int.ofNat_lt.mpr hlt
  · intro n
    rw [mem_numbers_okDeltas_iff hkept hvalid, hvalid.numbered, List.mem_map]
    constructor
    · rintro ⟨hlow, hhigh⟩
      refine ⟨n.toNat, List.mem_range.mpr ?_, Int.toNat_of_nonneg hlow⟩
      omega
    · rintro ⟨k, hk, rfl⟩
      have hlt := List.mem_range.mp hk
      simp only [Int.ofNat_eq_natCast]
      omega

theorem map_key_numbers {names : List String}
    (hkeys : ∀ name ∈ names, ∃ n, name = Layout.key n ∧ Layout.number? name = some n) :
    (names.filterMap Layout.number?).map Layout.key = names := by
  induction names with
  | nil => rfl
  | cons name names ih =>
      obtain ⟨n, hkey, hnumber⟩ := hkeys name List.mem_cons_self
      rw [List.filterMap_cons_some hnumber, List.map_cons, ← hkey,
        ih fun name' hname' => hkeys name' (List.mem_cons_of_mem _ hname')]

/-- The names below the node of the ok deltas are the keys of their numbers. -/
theorem names_okDeltas (hkept : s.Kept t) (hvalid : (s.book t).Valid) :
    s.names .okDeltas t =
      (List.range (s.book t).sequence.nextDeltaNum.toNat).map fun k : Nat => Layout.key k := by
  have hkeys : ∀ name ∈ s.names .okDeltas t,
      ∃ n, name = Layout.key n ∧ Layout.number? name = some n := by
    intro name hname
    obtain ⟨n, ok, hok, rfl⟩ := (mem_names_okDeltas_iff hkept hvalid).mp hname
    exact ⟨n, rfl, Layout.number?_key (hvalid.fits_of_ok hok)⟩
  rw [← map_key_numbers hkeys, numbers_okDeltas hkept hvalid, List.map_map]
  rfl

end Site

end DeltaLedger
