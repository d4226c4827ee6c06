import DeltaLedger.Coordinator.Lifecycle
import DeltaLedger.Coordinator.Writes
import DeltaLedger.Proofs.SiteBook

/-!
# Transactions of a site

The seven transactions that requests submit, seen through the book of their site:
each commits exactly when the records it names are at the versions it names, the
records it creates are missing, and nothing else is asked.  The tree after it is
given in full.
-/

namespace DeltaLedger
namespace Site

section Parents

variable (s : Site) (n : Int)

theorem parent?_counters : (s.path .counters).parent? = some s.root := by
  simp [Path.parent?, path, root, Place.names]

theorem parent?_hot : (s.path .hot).parent? = some (s.path .counters) := by
  simp [Path.parent?, path, root, Place.names]

theorem parent?_okDeltas : (s.path .okDeltas).parent? = some (s.path .counters) := by
  simp [Path.parent?, path, root, Place.names]

theorem parent?_ok : (s.path (.ok n)).parent? = some (s.path .okDeltas) := by
  simp [Path.parent?, path, root, Place.names]

theorem parent?_writes : (s.path .writes).parent? = some (s.path .counters) := by
  simp [Path.parent?, path, root, Place.names]

theorem parent?_write : (s.path (.write n)).parent? = some (s.path .writes) := by
  simp [Path.parent?, path, root, Place.names]

theorem root_ne_root : s.root ≠ Path.root := by
  intro hroot
  have hnames := congrArg Path.names hroot
  simp [root, Path.root] at hnames

end Parents

section Records

variable {s : Site} {t : Tree} {n : Int} {version : Nat}

theorem counters_at_iff (hkept : s.Kept t) :
    t.At (s.path .counters) version ↔
      ∃ counters, (s.book t).counters = some ⟨counters, version⟩ := by
  constructor
  · intro hat
    obtain ⟨node, hnode, rfl⟩ := hat
    obtain ⟨record, hdecode⟩ := hkept.reads .counters node hnode
    exact ⟨record, Tree.record?_of_decode hnode hdecode⟩
  · intro hrecord
    obtain ⟨counters, hcounters⟩ := hrecord
    obtain ⟨node, hnode, hversion, _⟩ := Tree.node_of_record? hcounters
    exact ⟨node, hnode, hversion⟩

theorem hot_at_iff (hkept : s.Kept t) :
    t.At (s.path .hot) version ↔ ∃ hot, (s.book t).hot = some ⟨hot, version⟩ := by
  constructor
  · intro hat
    obtain ⟨node, hnode, rfl⟩ := hat
    obtain ⟨record, hdecode⟩ := hkept.reads .hot node hnode
    exact ⟨record, Tree.record?_of_decode hnode hdecode⟩
  · intro hrecord
    obtain ⟨hot, hhot⟩ := hrecord
    obtain ⟨node, hnode, hversion, _⟩ := Tree.node_of_record? hhot
    exact ⟨node, hnode, hversion⟩

theorem write_at_iff (hkept : s.Kept t) :
    t.At (s.path (.write n)) version ↔ ∃ entry, (s.book t).write n = some ⟨entry, version⟩ := by
  constructor
  · intro hat
    obtain ⟨node, hnode, rfl⟩ := hat
    obtain ⟨record, hdecode⟩ := hkept.reads (.write n) node hnode
    exact ⟨record, Tree.record?_of_decode hnode hdecode⟩
  · intro hrecord
    obtain ⟨entry, hentry⟩ := hrecord
    obtain ⟨node, hnode, hversion, _⟩ := Tree.node_of_record? hentry
    exact ⟨node, hnode, hversion⟩

end Records

/-! ## The transactions -/

section Transactions

variable {s : Site} {t t' : Tree} {n : Int} {v w x : Nat} {data payload : List UInt8}

/-- Opening an epoch where there has been one before. -/
theorem commits_opening_iff (hkept : s.Kept t) :
    t.Commits [.checkAt (s.path .counters).text v, .create (s.path .hot).text data] t' ↔
      (∃ counters, (s.book t).counters = some ⟨counters, v⟩) ∧ (s.book t).hot = none ∧
        t' = t.put (s.path .hot) ⟨data, 0⟩ := by
  simp only [Tree.Commits, Tree.step_checkAt_iff (s.path_ne_root _),
    Tree.step_create_iff (s.path_ne_root _), parent?_hot, Option.any_some, counters_at_iff hkept]
  constructor
  · rintro ⟨_, _, ⟨hcounters, _, rfl⟩, _, _, ⟨hhot, _, _, rfl⟩, rfl⟩
    rw [book_hot_eq_none_iff hkept]
    exact ⟨hcounters, hhot, rfl⟩
  · rintro ⟨⟨counters, hcounters⟩, hhot, rfl⟩
    have hparent := (hkept.has_carrier (.inl rfl)).mpr (by simp [hcounters])
    exact ⟨v, t, ⟨⟨counters, hcounters⟩, rfl, rfl⟩, 0, _,
      ⟨(book_hot_eq_none_iff hkept).mp hhot, hparent, rfl, rfl⟩, rfl⟩

/-- Opening the first epoch brings the counters and the nodes that carry records. -/
theorem commits_founding_iff (hkept : s.Kept t) (hroot : t.has s.root = true)
    (hvalid : (s.book t).Valid) :
    t.Commits [.create (s.path .counters).text data, .create (s.path .okDeltas).text [],
        .create (s.path .writes).text [], .create (s.path .hot).text payload] t' ↔
      (s.book t).counters = none ∧
        t' = (((t.put (s.path .counters) ⟨data, 0⟩).put (s.path .okDeltas) ⟨[], 0⟩).put
          (s.path .writes) ⟨[], 0⟩).put (s.path .hot) ⟨payload, 0⟩ := by
  simp only [Tree.Commits, Tree.step_create_iff (s.path_ne_root _), parent?_counters,
    parent?_okDeltas, parent?_writes, parent?_hot, Option.any_some]
  constructor
  · rintro ⟨_, _, ⟨hcounters, _, _, rfl⟩, _, _, ⟨_, _, _, rfl⟩, _, _, ⟨_, _, _, rfl⟩, _, _,
      ⟨_, _, _, rfl⟩, rfl⟩
    exact ⟨(book_counters_eq_none_iff hkept).mpr hcounters, rfl⟩
  · rintro ⟨hcounters, rfl⟩
    have hhot := (book_hot_eq_none_iff hkept).mp (hvalid.bare hcounters).1
    have hnode := (book_counters_eq_none_iff hkept).mp hcounters
    refine ⟨0, _, ⟨hnode, hroot, rfl, rfl⟩, 0, _, ⟨?_, ?_, rfl, rfl⟩, 0, _, ⟨?_, ?_, rfl, rfl⟩,
      0, _, ⟨?_, ?_, rfl, rfl⟩, rfl⟩
    · simp [Tree.getElem?_put, hkept.okDeltas.mpr hnode]
    · exact Tree.has_of_getElem? (by rw [Tree.getElem?_put, if_pos rfl])
    · simp [Tree.getElem?_put, hkept.writes.mpr hnode]
    · exact Tree.has_of_getElem? (by simp [Tree.getElem?_put]; rfl)
    · simp [Tree.getElem?_put, hhot]
    · exact Tree.has_of_getElem? (by simp [Tree.getElem?_put]; rfl)

theorem commits_registering_iff (hkept : s.Kept t) :
    t.Commits [.writeAt (s.path .counters).text v data, .checkAt (s.path .hot).text w,
        .create (s.path (.write n)).text payload] t' ↔
      (∃ counters, (s.book t).counters = some ⟨counters, v⟩) ∧
        (∃ hot, (s.book t).hot = some ⟨hot, w⟩) ∧ (s.book t).write n = none ∧
          t' = (t.put (s.path .counters) ⟨data, v + 1⟩).put (s.path (.write n)) ⟨payload, 0⟩ := by
  have hne : s.path .counters ≠ s.path .hot := by simp
  have hne' : s.path .counters ≠ s.path (.write n) := by simp
  have hne'' : s.path .counters ≠ s.path .writes := by simp
  simp only [Tree.Commits, Tree.step_writeAt_iff, Tree.step_checkAt_iff (s.path_ne_root _),
    Tree.step_create_iff (s.path_ne_root _), parent?_write, Option.any_some,
    book_write_eq_none_iff hkept, ← counters_at_iff hkept, ← hot_at_iff hkept]
  constructor
  · rintro ⟨_, _, ⟨hcounters, _, rfl⟩, _, _, ⟨hhot, _, rfl⟩, _, _, ⟨hfree, _, _, rfl⟩, rfl⟩
    rw [Tree.at_put_of_ne hne] at hhot
    rw [Tree.getElem?_put, if_neg hne'] at hfree
    exact ⟨hcounters, hhot, hfree, rfl⟩
  · rintro ⟨hcounters, hhot, hfree, rfl⟩
    obtain ⟨counters, hrecord⟩ := (counters_at_iff hkept).mp hcounters
    have hparent := (hkept.has_carrier (.inr (.inr rfl))).mpr (by simp [hrecord])
    refine ⟨v + 1, _, ⟨hcounters, rfl, rfl⟩, w, _,
      ⟨(Tree.at_put_of_ne hne).mpr hhot, rfl, rfl⟩, 0, _, ⟨?_, ?_, rfl, rfl⟩, rfl⟩
    · rw [Tree.getElem?_put, if_neg hne', hfree]
    · rw [Tree.has_put_of_ne hne'', hparent]

theorem commits_finishing_iff (hkept : s.Kept t) :
    t.Commits [.checkAt (s.path .hot).text v, .writeAt (s.path (.write n)).text w data] t' ↔
      (∃ hot, (s.book t).hot = some ⟨hot, v⟩) ∧
        (∃ entry, (s.book t).write n = some ⟨entry, w⟩) ∧
          t' = t.put (s.path (.write n)) ⟨data, w + 1⟩ := by
  simp only [Tree.Commits, Tree.step_writeAt_iff, Tree.step_checkAt_iff (s.path_ne_root _),
    ← write_at_iff hkept, ← hot_at_iff hkept]
  constructor
  · rintro ⟨_, _, ⟨hhot, _, rfl⟩, _, _, ⟨hentry, _, rfl⟩, rfl⟩
    exact ⟨hhot, hentry, rfl⟩
  · rintro ⟨hhot, hentry, rfl⟩
    exact ⟨v, t, ⟨hhot, rfl, rfl⟩, w + 1, _, ⟨hentry, rfl, rfl⟩, rfl⟩

theorem commits_withdrawing_iff (hkept : s.Kept t) :
    t.Commits [.checkAt (s.path .hot).text v, .deleteAt (s.path (.write n)).text w] t' ↔
      (∃ hot, (s.book t).hot = some ⟨hot, v⟩) ∧
        (∃ entry, (s.book t).write n = some ⟨entry, w⟩) ∧ t' = t.drop (s.path (.write n)) := by
  simp only [Tree.Commits, Tree.step_deleteAt_iff, Tree.step_checkAt_iff (s.path_ne_root _),
    ← write_at_iff hkept, ← hot_at_iff hkept]
  constructor
  · rintro ⟨_, _, ⟨hhot, _, rfl⟩, _, _, ⟨hentry, _, _, rfl⟩, rfl⟩
    exact ⟨hhot, hentry, rfl⟩
  · rintro ⟨hhot, hentry, rfl⟩
    exact ⟨v, t, ⟨hhot, rfl, rfl⟩, w, _,
      ⟨hentry, hkept.hasBelow_eq_false (.inr ⟨n, rfl⟩), rfl, rfl⟩, rfl⟩

theorem commits_marking_iff (hkept : s.Kept t) :
    t.Commits [.checkAt (s.path .counters).text v, .writeAt (s.path .hot).text w data] t' ↔
      (∃ counters, (s.book t).counters = some ⟨counters, v⟩) ∧
        (∃ hot, (s.book t).hot = some ⟨hot, w⟩) ∧ t' = t.put (s.path .hot) ⟨data, w + 1⟩ := by
  simp only [Tree.Commits, Tree.step_writeAt_iff, Tree.step_checkAt_iff (s.path_ne_root _),
    ← counters_at_iff hkept, ← hot_at_iff hkept]
  constructor
  · rintro ⟨_, _, ⟨hcounters, _, rfl⟩, _, _, ⟨hhot, _, rfl⟩, rfl⟩
    exact ⟨hcounters, hhot, rfl⟩
  · rintro ⟨hcounters, hhot, rfl⟩
    exact ⟨v, t, ⟨hcounters, rfl, rfl⟩, w + 1, _, ⟨hhot, rfl, rfl⟩, rfl⟩

/-! ## Transactions that clear the ledger -/

/-- The nodes of some entries with the versions they were read with. -/
def items (s : Site) (entries : List (Versioned WriteOperation)) : List (Path × Nat) :=
  entries.map fun entry => (s.path (.write entry.record.sysCn), entry.version)

theorem mem_items {entries : List (Versioned WriteOperation)} {p : Path} :
    p ∈ (s.items entries).map Prod.fst ↔
      ∃ entry ∈ entries, p = s.path (.write entry.record.sysCn) := by
  simp only [items, List.map_map, List.mem_map, Function.comp_apply]
  constructor
  · rintro ⟨entry, hentry, rfl⟩
    exact ⟨entry, hentry, rfl⟩
  · rintro ⟨entry, hentry, rfl⟩
    exact ⟨entry, hentry, rfl⟩

theorem path_not_mem_items {entries : List (Versioned WriteOperation)} {place : Place}
    (hplace : ∀ m, place ≠ .write m) : s.path place ∉ (s.items entries).map Prod.fst := by
  intro hmem
  obtain ⟨entry, _, hsame⟩ := mem_items.mp hmem
  exact hplace _ (path_injective hsame)

/-- The ledger has the entries at their versions, each under a number of its own. -/
def Holds (b : Book) (entries : List (Versioned WriteOperation)) : Prop :=
  (entries.map fun entry => entry.record.sysCn).Nodup ∧
    ∀ entry ∈ entries, ∃ found, b.write entry.record.sysCn = some ⟨found, entry.version⟩

theorem commits_items_iff {entries : List (Versioned WriteOperation)} (hkept : s.Kept t) :
    t.Commits (Tree.deletes (s.items entries)) t' ↔
      Holds (s.book t) entries ∧ t' = t.dropAll ((s.items entries).map Prod.fst) := by
  have hleaf : ∀ item ∈ s.items entries, t.hasBelow item.1 = false := by
    intro item hitem
    obtain ⟨entry, _, rfl⟩ := List.mem_map.mp hitem
    exact hkept.hasBelow_eq_false (.inr ⟨_, rfl⟩)
  have hnodup : ((s.items entries).map Prod.fst).Nodup ↔
      (entries.map fun entry => entry.record.sysCn).Nodup := by
    simp [items, List.Nodup, List.pairwise_map]
  have hpresent : (∀ item ∈ s.items entries, t.At item.1 item.2) ↔
      ∀ entry ∈ entries, ∃ found,
        (s.book t).write entry.record.sysCn = some ⟨found, entry.version⟩ := by
    simp only [items, List.forall_mem_map, write_at_iff hkept]
  rw [Tree.commits_deletes_iff hleaf, hnodup, hpresent, Holds, and_assoc]

theorem Kept.dropAll {entries : List (Versioned WriteOperation)} (hkept : s.Kept t) :
    s.Kept (t.dropAll ((s.items entries).map Prod.fst)) := by
  apply hkept.erase
  intro p
  rw [Tree.getElem?_dropAll]
  split
  next hmem =>
    obtain ⟨entry, _, rfl⟩ := mem_items.mp hmem
    exact .inr ⟨rfl, _, rfl, .inr ⟨_, rfl⟩⟩
  next => exact .inl rfl

theorem commits_discarding_iff {entries : List (Versioned WriteOperation)} (hkept : s.Kept t) :
    t.Commits (.checkAt (s.path .counters).text v ::
        (Tree.deletes (s.items entries) ++ [.deleteAt (s.path .hot).text w])) t' ↔
      (∃ counters, (s.book t).counters = some ⟨counters, v⟩) ∧ Holds (s.book t) entries ∧
        (∃ hot, (s.book t).hot = some ⟨hot, w⟩) ∧
          t' = (t.dropAll ((s.items entries).map Prod.fst)).drop (s.path .hot) := by
  have hfresh : s.path .hot ∉ (s.items entries).map Prod.fst := path_not_mem_items (by simp)
  simp only [Tree.Commits, Tree.commits_append, Tree.step_checkAt_iff (s.path_ne_root _),
    Tree.step_deleteAt_iff, ← counters_at_iff hkept, ← hot_at_iff hkept]
  constructor
  · rintro ⟨_, _, ⟨hcounters, _, rfl⟩, middle, hitems, _, _, ⟨hhot, _, _, rfl⟩, rfl⟩
    obtain ⟨hholds, rfl⟩ := (commits_items_iff hkept).mp hitems
    exact ⟨hcounters, hholds, (Tree.at_dropAll_of_not_mem hfresh).mp hhot, rfl⟩
  · rintro ⟨hcounters, hholds, hhot, rfl⟩
    exact ⟨v, t, ⟨hcounters, rfl, rfl⟩, _, (commits_items_iff hkept).mpr ⟨hholds, rfl⟩, w, _,
      ⟨(Tree.at_dropAll_of_not_mem hfresh).mpr hhot, hkept.dropAll.hasBelow_eq_false (.inl rfl),
        rfl, rfl⟩, rfl⟩

section Promoting

variable {entries : List (Versioned WriteOperation)} {node : Node}

/-- Neither the counters nor the ledger is in the way of the other nodes. -/
theorem at_hot_of_clearing :
    ((t.put (s.path .counters) node).dropAll ((s.items entries).map Prod.fst)).At (s.path .hot) w ↔
      t.At (s.path .hot) w := by
  have hfresh : s.path .hot ∉ (s.items entries).map Prod.fst := path_not_mem_items (by simp)
  have hne : s.path .counters ≠ s.path .hot := by simp
  rw [Tree.at_dropAll_of_not_mem hfresh, Tree.at_put_of_ne hne]

theorem getElem?_ok_of_clearing :
    (((t.put (s.path .counters) node).dropAll ((s.items entries).map Prod.fst)).drop
      (s.path .hot)).nodes[s.path (.ok n)]? = t.nodes[s.path (.ok n)]? := by
  have hfresh : s.path (.ok n) ∉ (s.items entries).map Prod.fst := path_not_mem_items (by simp)
  have hne : s.path .counters ≠ s.path (.ok n) := by simp
  have hne' : s.path .hot ≠ s.path (.ok n) := by simp
  rw [Tree.getElem?_drop, if_neg hne', Tree.getElem?_dropAll, if_neg hfresh, Tree.getElem?_put,
    if_neg hne]

theorem has_okDeltas_of_clearing :
    (((t.put (s.path .counters) node).dropAll ((s.items entries).map Prod.fst)).drop
      (s.path .hot)).has (s.path .okDeltas) = t.has (s.path .okDeltas) := by
  have hfresh : s.path .okDeltas ∉ (s.items entries).map Prod.fst := path_not_mem_items (by simp)
  have hne : s.path .counters ≠ s.path .okDeltas := by simp
  have hne' : s.path .hot ≠ s.path .okDeltas := by simp
  rw [Tree.has_drop_of_ne hne', Tree.has_dropAll_of_not_mem hfresh, Tree.has_put_of_ne hne]

end Promoting

theorem commits_promoting_iff {entries : List (Versioned WriteOperation)} {record : Counters}
    (hkept : s.Kept t) (hencode : Stored.encode record = .ok data) :
    t.Commits (.writeAt (s.path .counters).text v data ::
        (Tree.deletes (s.items entries) ++
          [.deleteAt (s.path .hot).text w, .create (s.path (.ok n)).text payload])) t' ↔
      (∃ counters, (s.book t).counters = some ⟨counters, v⟩) ∧ Holds (s.book t) entries ∧
        (∃ hot, (s.book t).hot = some ⟨hot, w⟩) ∧ (s.book t).ok n = none ∧
          t' = (((t.put (s.path .counters) ⟨data, v + 1⟩).dropAll
            ((s.items entries).map Prod.fst)).drop (s.path .hot)).put
              (s.path (.ok n)) ⟨payload, 0⟩ := by
  have hkeptNext : t.At (s.path .counters) v →
      s.Kept (t.put (s.path .counters) ⟨data, v + 1⟩) := by
    rintro ⟨node, hnode, _⟩
    exact hkept.put ⟨record, Stored.decode_encode hencode _⟩ (.inr (.inr (.inr ⟨node, hnode⟩)))
  have hholdsNext : Holds (s.book (t.put (s.path .counters) ⟨data, v + 1⟩)) entries ↔
      Holds (s.book t) entries := by
    rw [book_put_counters hencode]
    exact Iff.rfl
  simp only [Tree.Commits, Tree.commits_append, Tree.step_writeAt_iff, Tree.step_deleteAt_iff,
    Tree.step_create_iff (s.path_ne_root _), parent?_ok, Option.any_some,
    book_ok_eq_none_iff hkept, ← counters_at_iff hkept, ← hot_at_iff hkept]
  constructor
  · rintro ⟨_, _, ⟨hcounters, _, rfl⟩, middle, hitems, _, _, ⟨hhot, _, _, rfl⟩, _, _,
      ⟨hok, _, _, rfl⟩, rfl⟩
    obtain ⟨hholds, rfl⟩ := (commits_items_iff (hkeptNext hcounters)).mp hitems
    rw [getElem?_ok_of_clearing] at hok
    exact ⟨hcounters, hholdsNext.mp hholds, at_hot_of_clearing.mp hhot, hok, rfl⟩
  · rintro ⟨hcounters, hholds, hhot, hok, rfl⟩
    obtain ⟨counters, hrecord⟩ := (counters_at_iff hkept).mp hcounters
    have hparent := (hkept.has_carrier (.inr (.inl rfl))).mpr (by simp [hrecord])
    have hkeptNext := hkeptNext hcounters
    refine ⟨v + 1, _, ⟨hcounters, rfl, rfl⟩, _,
      (commits_items_iff hkeptNext).mpr ⟨hholdsNext.mpr hholds, rfl⟩, w, _,
      ⟨at_hot_of_clearing.mpr hhot, hkeptNext.dropAll.hasBelow_eq_false (.inl rfl), rfl, rfl⟩,
      0, _, ⟨?_, ?_, rfl, rfl⟩, rfl⟩
    · rw [getElem?_ok_of_clearing]
      exact hok
    · rw [has_okDeltas_of_clearing]
      exact hparent

end Transactions

end Site
end DeltaLedger
