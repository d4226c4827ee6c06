import DeltaLedger.Proofs.SiteMoves

/-!
# Turns

A turn is what a committed transaction of a request does to the tree: its site
makes a move and is kept, and nothing outside the site changes.  For each of the
seven transactions this is read off the tree that it leaves.
-/

namespace DeltaLedger
namespace Site

/-- A site makes a move, and nothing else happens. -/
structure Turns (s : Site) (m : Move) (t t' : Tree) : Prop where
  moves : (s.book t).Moves m (s.book t')
  kept : s.Kept t'
  frame : ∀ p, ¬s.Owns p → t'.nodes[p]? = t.nodes[p]?

section Frames

variable {s : Site} {t : Tree} {place : Place} {node : Node} {p : Path}

theorem ne_path_of_not_owns (hp : ¬s.Owns p) : s.path place ≠ p := by
  rintro rfl
  exact hp (s.owns_path place)

theorem getElem?_put_of_not_owns (hp : ¬s.Owns p) :
    (t.put (s.path place) node).nodes[p]? = t.nodes[p]? := by
  rw [Tree.getElem?_put, if_neg (ne_path_of_not_owns hp)]

theorem getElem?_drop_of_not_owns (hp : ¬s.Owns p) :
    (t.drop (s.path place)).nodes[p]? = t.nodes[p]? := by
  rw [Tree.getElem?_drop, if_neg (ne_path_of_not_owns hp)]

theorem getElem?_dropAll_of_not_owns {entries : List (Versioned WriteOperation)}
    (hp : ¬s.Owns p) :
    (t.dropAll ((s.items entries).map Prod.fst)).nodes[p]? = t.nodes[p]? := by
  rw [Tree.getElem?_dropAll, if_neg]
  intro hmem
  obtain ⟨entry, _, rfl⟩ := mem_items.mp hmem
  exact hp (s.owns_path _)

end Frames

section Effects

variable {s : Site} {t : Tree} {data payload : List UInt8}

theorem Kept.put_counters
    {counters : Versioned Counters} {record : Counters} {version : Nat} (hkept : s.Kept t)
    (hcounters : (s.book t).counters = some counters) (hencode : Stored.encode record = .ok data) :
    s.Kept (t.put (s.path .counters) ⟨data, version⟩) := by
  obtain ⟨node, hnode, _⟩ := Tree.node_of_record? hcounters
  exact hkept.put ⟨_, Stored.decode_encode hencode _⟩ (.inr (.inr (.inr ⟨node, hnode⟩)))

theorem Kept.drop_hot (hkept : s.Kept t) : s.Kept (t.drop (s.path .hot)) := by
  apply hkept.erase
  intro p
  rw [Tree.getElem?_drop]
  split
  next hp => exact .inr ⟨rfl, _, hp.symm, .inl rfl⟩
  next => exact .inl rfl

theorem turns_opening
    {now : DateTime} {counters : Versioned Counters} (hkept : s.Kept t)
    (hcounters : (s.book t).counters = some counters) (hhot : (s.book t).hot = none)
    (hencode : Stored.encode (counters.record.openEpoch now) = .ok data) :
    s.Turns (.opened now) t (t.put (s.path .hot) ⟨data, 0⟩) where
  moves := by
    have htarget : s.book (t.put (s.path .hot) ⟨data, 0⟩) =
        { s.book t with
          counters := some ((s.book t).counters.getD ⟨.fresh, 0⟩)
          hot := some ⟨(s.book t).sequence.openEpoch now, 0⟩ } := by
      rw [book_put_hot hencode, Book.sequence_of_counters hcounters]
      apply Book.ext
      · simp [hcounters]
      · rfl
      · exact fun _ => rfl
      · exact fun _ => rfl
    rw [htarget]
    exact .opened hhot
  kept := hkept.put ⟨_, Stored.decode_encode hencode _⟩ (.inl rfl)
  frame _ hp := getElem?_put_of_not_owns hp

theorem turns_founding
    {now : DateTime} (hkept : s.Kept t) (hvalid : (s.book t).Valid)
    (hcounters : (s.book t).counters = none)
    (hencode : Stored.encode Counters.fresh = .ok data)
    (hencode' : Stored.encode (Counters.fresh.openEpoch now) = .ok payload) :
    s.Turns (.opened now) t
      ((((t.put (s.path .counters) ⟨data, 0⟩).put (s.path .okDeltas) ⟨[], 0⟩).put
        (s.path .writes) ⟨[], 0⟩).put (s.path .hot) ⟨payload, 0⟩) where
  moves := by
    have hfresh : (s.book t).sequence = .fresh := by simp [Book.sequence, hcounters]
    have htarget : s.book ((((t.put (s.path .counters) ⟨data, 0⟩).put
        (s.path .okDeltas) ⟨[], 0⟩).put (s.path .writes) ⟨[], 0⟩).put
          (s.path .hot) ⟨payload, 0⟩) =
        { s.book t with
          counters := some ((s.book t).counters.getD ⟨.fresh, 0⟩)
          hot := some ⟨(s.book t).sequence.openEpoch now, 0⟩ } := by
      rw [book_put_hot hencode', book_put_carrier (.inr rfl), book_put_carrier (.inl rfl),
        book_put_counters hencode, hfresh, hcounters]
      rfl
    rw [htarget]
    exact .opened (hvalid.bare hcounters).1
  kept := (hkept.found hencode).put ⟨_, Stored.decode_encode hencode' _⟩ (.inl rfl)
  frame _ hp := by
    rw [getElem?_put_of_not_owns hp, getElem?_put_of_not_owns hp, getElem?_put_of_not_owns hp,
      getElem?_put_of_not_owns hp]

theorem turns_registering
    {datamart : String} {r : Registration}
    {hot : Versioned HotDelta} {counters : Versioned Counters} (hkept : s.Kept t)
    (hhot : (s.book t).hot = some hot) (hcounters : (s.book t).counters = some counters)
    (hrolling : hot.record.rollingBack = false)
    (hfree : ∀ n entry, (s.book t).write n = some entry →
      entry.record.status = .inProgress → entry.record.tableName ≠ r.tableName)
    (hencode : Stored.encode counters.record.issue = .ok data)
    (hencode' : Stored.encode (r.entry datamart counters.record.nextCn) = .ok payload) :
    s.Turns (.registered datamart r) t
      ((t.put (s.path .counters) ⟨data, counters.version + 1⟩).put
        (s.path (.write counters.record.nextCn)) ⟨payload, 0⟩) where
  moves := by
    have hwritable : Stored.Writable counters.record.issue := ⟨data, hencode⟩
    have hfits : Decimal.Fits (counters.record.nextCn + 1) :=
      (Stored.writable_counters_iff.mp hwritable).1
    rw [book_put_write hencode', book_put_counters hencode]
    exact .registered hhot hcounters hrolling hfree hfits
  kept := by
    refine Kept.put ?_ ⟨_, Stored.decode_encode hencode' _⟩ (.inr (.inr (.inl ⟨_, rfl⟩)))
    exact hkept.put_counters hcounters hencode
  frame _ hp := by
    rw [getElem?_put_of_not_owns hp, getElem?_put_of_not_owns hp]

theorem turns_finishing
    {n : Int} {status : WriteStatus} {hot : Versioned HotDelta}
    {entry : Versioned WriteOperation} (hkept : s.Kept t)
    (hhot : (s.book t).hot = some hot) (hentry : (s.book t).write n = some entry)
    (hprogress : entry.record.status = .inProgress) (hstatus : status ≠ .inProgress)
    (hencode : Stored.encode { entry.record with status } = .ok data) :
    s.Turns (.finished n status) t
      (t.put (s.path (.write n)) ⟨data, entry.version + 1⟩) where
  moves := by
    rw [book_put_write hencode]
    exact .finished hhot hentry hprogress hstatus
  kept := hkept.put ⟨_, Stored.decode_encode hencode _⟩ (.inr (.inr (.inl ⟨n, rfl⟩)))
  frame _ hp := getElem?_put_of_not_owns hp

theorem turns_withdrawing
    {n : Int} {hot : Versioned HotDelta} {entry : Versioned WriteOperation} (hkept : s.Kept t)
    (hhot : (s.book t).hot = some hot) (hentry : (s.book t).write n = some entry) :
    s.Turns (.withdrawn n) t (t.drop (s.path (.write n))) where
  moves := by
    rw [book_drop_write]
    exact .withdrawn hhot hentry
  kept := by
    apply hkept.erase
    intro p
    rw [Tree.getElem?_drop]
    split
    next hp => exact .inr ⟨rfl, _, hp.symm, .inr ⟨n, rfl⟩⟩
    next => exact .inl rfl
  frame _ hp := getElem?_drop_of_not_owns hp

theorem turns_marking
    {view : HotDelta} {n : Int} {hot : Versioned HotDelta} {counters : Versioned Counters}
    (hkept : s.Kept t) (hhot : (s.book t).hot = some hot)
    (hcounters : (s.book t).counters = some counters)
    (hencode : Stored.encode (view.failedAt n) = .ok data) :
    s.Turns (.marked view n) t (t.put (s.path .hot) ⟨data, hot.version + 1⟩) where
  moves := by
    rw [book_put_hot hencode]
    exact .marked hhot hcounters
  kept := hkept.put ⟨_, Stored.decode_encode hencode _⟩ (.inl rfl)
  frame _ hp := getElem?_put_of_not_owns hp

/-- Every entry of a book is among some entries, by number. -/
def Covers (b : Book) (entries : List (Versioned WriteOperation)) : Prop :=
  ∀ n found, b.write n = some found → ∃ entry ∈ entries, entry.record.sysCn = n

theorem book_cleared
    {entries : List (Versioned WriteOperation)} (hcovers : Covers (s.book t) entries) :
    s.book ((t.dropAll ((s.items entries).map Prod.fst)).drop (s.path .hot)) =
      (s.book t).cleared := by
  have hfresh : ∀ place, (∀ m, place ≠ .write m) →
      (t.dropAll ((s.items entries).map Prod.fst)).nodes[s.path place]? =
        t.nodes[s.path place]? := by
    intro place hplace
    rw [Tree.getElem?_dropAll, if_neg (path_not_mem_items hplace)]
  rw [book_drop_hot]
  apply Book.ext
  · exact Tree.record?_congr (hfresh .counters (by simp))
  · rfl
  · exact fun n => Tree.record?_congr (hfresh (.ok n) (by simp))
  · intro n
    change Tree.record? WriteOperation _ _ = none
    by_cases hmem : s.path (.write n) ∈ (s.items entries).map Prod.fst
    · rw [Tree.record?, Tree.getElem?_dropAll, if_pos hmem, Option.bind_none]
    · have hsame : (t.dropAll ((s.items entries).map Prod.fst)).nodes[s.path (.write n)]? =
          t.nodes[s.path (.write n)]? := by
        rw [Tree.getElem?_dropAll, if_neg hmem]
      rw [Tree.record?_congr hsame]
      cases hfound : t.record? WriteOperation (s.path (.write n)) with
      | none => rfl
      | some found =>
          obtain ⟨entry, hentry, hn⟩ := hcovers n found hfound
          exact absurd (mem_items.mpr ⟨entry, hentry, by rw [hn]⟩) hmem

theorem turns_discarding
    {entries : List (Versioned WriteOperation)}
    {hot : Versioned HotDelta} {counters : Versioned Counters} (hkept : s.Kept t)
    (hhot : (s.book t).hot = some hot) (hcounters : (s.book t).counters = some counters)
    (hcovers : Covers (s.book t) entries) :
    s.Turns .discarded t
      ((t.dropAll ((s.items entries).map Prod.fst)).drop (s.path .hot)) where
  moves := by
    rw [book_cleared hcovers]
    exact .discarded hhot hcounters
  kept := hkept.dropAll.drop_hot
  frame _ hp := by
    rw [getElem?_drop_of_not_owns hp, getElem?_dropAll_of_not_owns hp]

theorem turns_promoting
    {view : HotDelta} {date : DateTime} {entries : List (Versioned WriteOperation)}
    {hot : Versioned HotDelta} {counters : Versioned Counters} (hkept : s.Kept t)
    (hhot : (s.book t).hot = some hot) (hcounters : (s.book t).counters = some counters)
    (hcovers : Covers (s.book t) entries)
    (hrolling : hot.record.rollingBack = false)
    (hfinished : ∀ n entry, (s.book t).write n = some entry → entry.record.status ≠ .inProgress)
    (hnum : view.deltaNum = counters.record.nextDeltaNum)
    (hfrom : view.cnFrom ≤ hot.record.cnFrom)
    (hencode : Stored.encode (counters.record.afterClose view) = .ok data)
    (hencode' : Stored.encode (counters.record.close view date) = .ok payload) :
    s.Turns (.promoted view date) t
      ((((t.put (s.path .counters) ⟨data, counters.version + 1⟩).dropAll
        ((s.items entries).map Prod.fst)).drop (s.path .hot)).put
          (s.path (.ok view.deltaNum)) ⟨payload, 0⟩) where
  moves := by
    have hwritable : Stored.Writable (counters.record.close view date) := ⟨payload, hencode'⟩
    have hfits : Decimal.Fits view.deltaNum := (Stored.writable_ok_iff.mp hwritable).1
    have hcovers' : Covers
        (s.book (t.put (s.path .counters) ⟨data, counters.version + 1⟩)) entries := by
      rw [book_put_counters hencode]
      exact hcovers
    rw [book_put_ok hencode', book_cleared hcovers', book_put_counters hencode]
    exact .promoted hhot hcounters hrolling hfinished hnum hfrom hfits
  kept := by
    refine Kept.put ?_ ⟨_, Stored.decode_encode hencode' _⟩ (.inr (.inl ⟨_, rfl⟩))
    exact (hkept.put_counters hcounters hencode).dropAll.drop_hot
  frame _ hp := by
    rw [getElem?_put_of_not_owns hp, getElem?_drop_of_not_owns hp,
      getElem?_dropAll_of_not_owns hp, getElem?_put_of_not_owns hp]

end Effects

end Site
end DeltaLedger
