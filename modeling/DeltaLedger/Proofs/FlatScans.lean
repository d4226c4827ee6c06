import DeltaLedger.NodeTree.FlatStore

/-!
# Scans of a flat store

The keys that begin with a text stand together in the order of the keys, and no key from the text on
is in front of them.  So a scan from the text to the first key without the beginning meets all of
them, though keys with other beginnings may stand between a node and what lies below it, and a look
at the first key of the scan tells whether there are any.
-/

namespace DeltaLedger

/-! ## Predicates on a beginning of a list -/

section Beginnings

variable {α : Type} {P : α → Bool} {l : List α}

theorem takeWhile_eq_filter (hbefore : l.Pairwise fun a b => P b = true → P a = true) :
    l.takeWhile P = l.filter P := by
  induction l with
  | nil => rfl
  | cons a l ih =>
      obtain ⟨hhead, htail⟩ := List.pairwise_cons.mp hbefore
      by_cases ha : P a = true
      · rw [List.takeWhile_cons_of_pos ha, List.filter_cons_of_pos ha, ih htail]
      · rw [List.takeWhile_cons_of_neg ha, List.filter_cons_of_neg ha, eq_comm,
          List.filter_eq_nil_iff]
        exact fun b hb hPb => ha (hhead b hb hPb)

theorem any_head?_eq_any (hbefore : l.Pairwise fun a b => P b = true → P a = true) :
    l.head?.any P = l.any P := by
  cases l with
  | nil => rfl
  | cons a l =>
      have hhead := (List.pairwise_cons.mp hbefore).1
      rw [List.head?_cons, Option.any_some, List.any_cons]
      cases hany : l.any P with
      | false => rw [Bool.or_false]
      | true =>
          obtain ⟨b, hb, hPb⟩ := List.any_eq_true.mp hany
          rw [hhead b hb hPb, Bool.or_true]

end Beginnings

namespace FlatStore

variable {f : FlatStore} {start key path name : String}

/-! ## Beginnings of texts -/

theorem startsWith_iff_toList : startsWith start key = true ↔ start.toList <+: key.toList :=
  List.isPrefixOf_iff_prefix

theorem startsWith_iff : startsWith start key = true ↔ ∃ rest, key = start ++ rest := by
  rw [startsWith_iff_toList]
  constructor
  · rintro ⟨rest, hrest⟩
    exact ⟨String.ofList rest, String.toList_injective (by simp [hrest])⟩
  · rintro ⟨rest, rfl⟩
    exact ⟨rest.toList, String.toList_append.symm⟩

theorem nameBehind?_eq_some_iff (hstart : startsWith start key = true) :
    nameBehind? start key = some name ↔ '/' ∉ name.toList ∧ key = start ++ name := by
  obtain ⟨rest, rfl⟩ := startsWith_iff.mp hstart
  have hbehind : nameBehind? start (start ++ rest) =
      if '/' ∈ rest.toList then none else some rest := by
    simp [nameBehind?]
  rw [hbehind, String.append_right_inj]
  split
  next hslash => exact ⟨nofun, fun hname => absurd (hname.2 ▸ hslash) hname.1⟩
  next hslash =>
    rw [Option.some.injEq]
    exact ⟨fun hsame => ⟨hsame ▸ hslash, hsame⟩, fun hname => hname.2⟩

theorem childStart_append (path name : String) : childStart path ++ name = Path.join path name := by
  unfold childStart Path.join
  split <;> rfl

/-! ## The order of texts -/

theorem compare_eq_lt_iff {a b : String} : compare a b = .lt ↔ a.toList < b.toList :=
  compareOfLessAndEq_eq_lt.trans String.lt_iff

theorem isLE_compare_iff {a b : String} :
    (compare a b).isLE = true ↔ ¬b.toList < a.toList := by
  rw [← compare_eq_lt_iff, ← Std.OrientedCmp.gt_iff_lt, Ordering.isLE_iff_ne_gt]

/-- What stands between a beginning and a text with it has the beginning, too. -/
theorem prefix_of_between {start as bs : List Char} (hfrom : ¬as < start) (hlt : as < bs)
    (hbs : start <+: bs) : start <+: as := by
  induction start generalizing as bs with
  | nil => exact List.nil_prefix
  | cons c start ih =>
      obtain ⟨rest, rfl⟩ := hbs
      cases as with
      | nil => exact absurd (List.nil_lt_cons _ _) hfrom
      | cons a as =>
          rcases List.cons_lt_cons_iff.mp hlt with hhead | ⟨rfl, htail⟩
          · exact absurd (List.cons_lt_cons_iff.mpr (.inl hhead)) hfrom
          · have hfrom' : ¬as < start :=
              fun hbefore => hfrom (List.cons_lt_cons_iff.mpr (.inr ⟨rfl, hbefore⟩))
            exact List.cons_prefix_cons.mpr ⟨rfl, ih hfrom' htail (List.prefix_append _ _)⟩

theorem isLE_of_startsWith (hstart : startsWith start key = true) :
    (compare start key).isLE = true :=
  isLE_compare_iff.mpr (List.not_lt.mpr (startsWith_iff_toList.mp hstart).le)

/-! ## What a scan meets -/

theorem pairwise_keysFrom (f : FlatStore) (start : String) :
    (f.keysFrom start).Pairwise
      fun a b => startsWith start b = true → startsWith start a = true := by
  have hordered : (f.keysFrom start).Pairwise fun a b => compare a b = .lt :=
    Std.ExtTreeMap.ordered_keys.filter _
  refine hordered.imp_of_mem ?_
  intro a b ha _ hlt hb
  have hfrom := isLE_compare_iff.mp (List.mem_filter.mp ha).2
  rw [startsWith_iff_toList] at hb ⊢
  exact prefix_of_between hfrom (compare_eq_lt_iff.mp hlt) hb

/-- The scan meets the keys with the beginning, and no other key. -/
theorem takeWhile_keysFrom (f : FlatStore) (start : String) :
    (f.keysFrom start).takeWhile (startsWith start) = f.nodes.keys.filter (startsWith start) := by
  rw [takeWhile_eq_filter (f.pairwise_keysFrom start), keysFrom, List.filter_filter]
  refine List.filter_congr ?_
  intro key _
  cases hstart : startsWith start key with
  | false => rfl
  | true => rw [isLE_of_startsWith hstart, Bool.and_self]

/-- The first key of the scan has the beginning if any key has it. -/
theorem any_head?_keysFrom (f : FlatStore) (start : String) :
    (f.keysFrom start).head?.any (startsWith start) = f.nodes.keys.any (startsWith start) := by
  rw [any_head?_eq_any (f.pairwise_keysFrom start), keysFrom, List.any_filter]
  refine List.any_congr rfl ?_
  intro key
  cases hstart : startsWith start key with
  | false => rw [Bool.and_false]
  | true => rw [isLE_of_startsWith hstart, Bool.and_self]

theorem mem_keys_iff : key ∈ f.nodes.keys ↔ ∃ node, f.nodes[key]? = some node := by
  rw [Std.ExtTreeMap.mem_keys, Std.ExtTreeMap.mem_iff_isSome_getElem?, Option.isSome_iff_exists]

theorem hasChildren_eq_true_iff : f.hasChildren path = true ↔
    ∃ key node, f.nodes[key]? = some node ∧ startsWith (childStart path) key = true := by
  rw [hasChildren, any_head?_keysFrom, List.any_eq_true]
  simp only [mem_keys_iff, exists_and_right]

theorem mem_childNames_iff : name ∈ f.childNames path ↔
    '/' ∉ name.toList ∧ ∃ node, f.nodes[Path.join path name]? = some node := by
  rw [childNames, takeWhile_keysFrom, List.mem_filterMap, ← childStart_append]
  constructor
  · rintro ⟨key, hkey, hname⟩
    obtain ⟨hmem, hstart⟩ := List.mem_filter.mp hkey
    obtain ⟨hslash, rfl⟩ := (nameBehind?_eq_some_iff hstart).mp hname
    exact ⟨hslash, mem_keys_iff.mp hmem⟩
  · rintro ⟨hslash, hnode⟩
    have hstart : startsWith (childStart path) (childStart path ++ name) = true :=
      startsWith_iff.mpr ⟨name, rfl⟩
    exact ⟨_, List.mem_filter.mpr ⟨mem_keys_iff.mpr hnode, hstart⟩,
      (nameBehind?_eq_some_iff hstart).mpr ⟨hslash, rfl⟩⟩

theorem lt_of_append_lt_append {start as bs : List Char} (hlt : start ++ as < start ++ bs) :
    as < bs := by
  induction start with
  | nil => exact hlt
  | cons c start ih =>
      rcases List.cons_lt_cons_iff.mp hlt with hhead | ⟨_, htail⟩
      · exact absurd hhead (Char.lt_irrefl c)
      · exact ih htail

/-- Behind a common beginning the names keep the order of the keys. -/
theorem pairwise_childNames (f : FlatStore) (path : String) :
    (f.childNames path).Pairwise (· < ·) := by
  have hordered : (f.nodes.keys.filter (startsWith (childStart path))).Pairwise
      fun key key' => compare key key' = .lt :=
    Std.ExtTreeMap.ordered_keys.filter _
  rw [childNames, takeWhile_keysFrom]
  refine List.pairwise_filterMap.mpr (hordered.imp_of_mem ?_)
  intro key key' hkey hkey' hlt name hname name' hname'
  obtain ⟨_, rfl⟩ := (nameBehind?_eq_some_iff (List.mem_filter.mp hkey).2).mp hname
  obtain ⟨_, rfl⟩ := (nameBehind?_eq_some_iff (List.mem_filter.mp hkey').2).mp hname'
  rw [compare_eq_lt_iff, String.toList_append, String.toList_append] at hlt
  exact String.lt_iff.mpr (lt_of_append_lt_append hlt)

end FlatStore
end DeltaLedger
