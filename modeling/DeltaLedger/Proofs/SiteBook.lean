import DeltaLedger.Proofs.Book
import DeltaLedger.Proofs.Places
import DeltaLedger.Proofs.StoredRecord
import DeltaLedger.Proofs.Transactions

/-!
# The book of a site

The book of a site is read off the tree place by place.  A tree keeps a site when
every node below its root lies at a place and holds what belongs there, and the
nodes that carry the ok deltas and the ledger came together with the counters.
Writing or deleting the record at a place changes the book there and nowhere else.
-/

namespace DeltaLedger

namespace Tree

/-- The record at a path with its version, if there is one that can be read. -/
def record? (α : Type) [Stored α] (t : Tree) (p : Path) : Option (Versioned α) :=
  t.nodes[p]?.bind fun node =>
    (Stored.decode α p.text node.data).toOption.map fun record => ⟨record, node.version⟩

section Records

variable {α : Type} [Stored α] {t t' : Tree} {p q : Path} {node : Node}

theorem record?_congr (hsame : t.nodes[p]? = t'.nodes[p]?) : t.record? α p = t'.record? α p := by
  simp [record?, hsame]

theorem record?_of_decode {record : α} (hnode : t.nodes[p]? = some node)
    (hdecode : Stored.decode α p.text node.data = .ok record) :
    t.record? α p = some ⟨record, node.version⟩ := by
  simp [record?, hnode, hdecode, Except.toOption]

theorem node_of_record? {found : Versioned α} (hfound : t.record? α p = some found) :
    ∃ node, t.nodes[p]? = some node ∧ node.version = found.version ∧
      Stored.decode α p.text node.data = .ok found.record := by
  unfold record? at hfound
  rw [Option.bind_eq_some_iff] at hfound
  obtain ⟨node, hnode, hrecord⟩ := hfound
  cases hdecode : Stored.decode α p.text node.data with
  | error failure => simp [hdecode, Except.toOption] at hrecord
  | ok record =>
      simp only [hdecode, Except.toOption, Option.map_some, Option.some.injEq] at hrecord
      subst hrecord
      exact ⟨node, hnode, rfl, hdecode⟩

@[simp] theorem record?_put_self [Stored.Faithful α]
    {record : α} {data : List UInt8} {version : Nat}
    (hencode : Stored.encode record = .ok data) :
    (t.put p ⟨data, version⟩).record? α p = some ⟨record, version⟩ := by
  have hnode : (t.put p ⟨data, version⟩).nodes[p]? = some ⟨data, version⟩ := by
    rw [getElem?_put, if_pos rfl]
  exact record?_of_decode hnode (Stored.decode_encode hencode p.text)

theorem record?_put_of_ne (hne : q ≠ p) : (t.put q node).record? α p = t.record? α p :=
  record?_congr (by simp [getElem?_put, hne])

@[simp] theorem record?_drop_self : (t.drop p).record? α p = none := by
  simp [record?, getElem?_drop]

theorem record?_drop_of_ne (hne : q ≠ p) : (t.drop q).record? α p = t.record? α p :=
  record?_congr (by simp [getElem?_drop, hne])

end Records

end Tree

/-- A payload that can be read as what belongs at a place. -/
def Place.Reads (place : Place) (path : String) (payload : List UInt8) : Prop :=
  match place with
  | counters => ∃ record, Stored.decode Counters path payload = .ok record
  | hot => ∃ record, Stored.decode HotDelta path payload = .ok record
  | okDeltas => True
  | ok _ => ∃ record, Stored.decode OkDelta path payload = .ok record
  | writes => True
  | write _ => ∃ record, Stored.decode WriteOperation path payload = .ok record

namespace Site

/-- What a tree holds for a site. -/
def book (s : Site) (t : Tree) : Book where
  counters := t.record? Counters (s.path .counters)
  hot := t.record? HotDelta (s.path .hot)
  ok n := t.record? OkDelta (s.path (.ok n))
  write n := t.record? WriteOperation (s.path (.write n))

/-- A tree holds nothing for a site but what belongs there. -/
structure Kept (s : Site) (t : Tree) : Prop where
  reads : ∀ place node, t.nodes[s.path place]? = some node →
    place.Reads (s.path place).text node.data
  known : ∀ p node, t.nodes[p]? = some node → s.Owns p → ∃ place, p = s.path place
  okDeltas : t.nodes[s.path .okDeltas]? = none ↔ t.nodes[s.path .counters]? = none
  writes : t.nodes[s.path .writes]? = none ↔ t.nodes[s.path .counters]? = none

theorem book_congr {s : Site} {t t' : Tree} (hsame : ∀ p, s.Owns p → t.nodes[p]? = t'.nodes[p]?) :
    s.book t = s.book t' := by
  apply Book.ext
  · exact Tree.record?_congr (hsame _ (s.owns_path _))
  · exact Tree.record?_congr (hsame _ (s.owns_path _))
  · exact fun n => Tree.record?_congr (hsame _ (s.owns_path _))
  · exact fun n => Tree.record?_congr (hsame _ (s.owns_path _))

theorem Kept.congr {s : Site} {t t' : Tree} (hkept : s.Kept t)
    (hsame : ∀ p, s.Owns p → t.nodes[p]? = t'.nodes[p]?) : s.Kept t' where
  reads place node hnode := hkept.reads place node (by rw [hsame _ (s.owns_path _), hnode])
  known p node hnode howns := hkept.known p node (by rw [hsame p howns, hnode]) howns
  okDeltas := by
    rw [← hsame _ (s.owns_path _), ← hsame _ (s.owns_path _)]
    exact hkept.okDeltas
  writes := by
    rw [← hsame _ (s.owns_path _), ← hsame _ (s.owns_path _)]
    exact hkept.writes

/-! ## Reading -/

section Reading

variable {s : Site} {t : Tree}

theorem book_counters_eq_none_iff (hkept : s.Kept t) :
    (s.book t).counters = none ↔ t.nodes[s.path .counters]? = none := by
  cases hnode : t.nodes[s.path .counters]? with
  | none => simp [book, Tree.record?, hnode]
  | some node =>
      obtain ⟨record, hdecode⟩ := hkept.reads .counters node hnode
      simp [book, Tree.record?_of_decode hnode hdecode]

theorem book_hot_eq_none_iff (hkept : s.Kept t) :
    (s.book t).hot = none ↔ t.nodes[s.path .hot]? = none := by
  cases hnode : t.nodes[s.path .hot]? with
  | none => simp [book, Tree.record?, hnode]
  | some node =>
      obtain ⟨record, hdecode⟩ := hkept.reads .hot node hnode
      simp [book, Tree.record?_of_decode hnode hdecode]

theorem book_ok_eq_none_iff (hkept : s.Kept t) {n : Int} :
    (s.book t).ok n = none ↔ t.nodes[s.path (.ok n)]? = none := by
  cases hnode : t.nodes[s.path (.ok n)]? with
  | none => simp [book, Tree.record?, hnode]
  | some node =>
      obtain ⟨record, hdecode⟩ := hkept.reads (.ok n) node hnode
      simp [book, Tree.record?_of_decode hnode hdecode]

theorem book_write_eq_none_iff (hkept : s.Kept t) {n : Int} :
    (s.book t).write n = none ↔ t.nodes[s.path (.write n)]? = none := by
  cases hnode : t.nodes[s.path (.write n)]? with
  | none => simp [book, Tree.record?, hnode]
  | some node =>
      obtain ⟨record, hdecode⟩ := hkept.reads (.write n) node hnode
      simp [book, Tree.record?_of_decode hnode hdecode]

/-- The nodes that carry records are there as soon as the counters are. -/
theorem Kept.has_carrier (hkept : s.Kept t) {place : Place}
    (hcarrier : place = .counters ∨ place = .okDeltas ∨ place = .writes) :
    t.has (s.path place) = true ↔ (s.book t).counters ≠ none := by
  rw [ne_eq, book_counters_eq_none_iff hkept, ← Bool.not_eq_false,
    Tree.has_eq_false_iff (s.path_ne_root _)]
  rcases hcarrier with rfl | rfl | rfl
  · exact Iff.rfl
  · rw [hkept.okDeltas]
  · rw [hkept.writes]

theorem Kept.hasBelow_eq_false (hkept : s.Kept t) {place : Place}
    (hleaf : place = .hot ∨ ∃ n, place = .write n) : t.hasBelow (s.path place) = false := by
  rw [← Bool.not_eq_true]
  intro hbelow
  obtain ⟨q, node, hnode, habove⟩ := Tree.hasBelow_eq_true_iff.mp hbelow
  simp only [Path.isAbove, Bool.and_eq_true, decide_eq_true_eq, List.isPrefixOf_iff_prefix] at habove
  obtain ⟨⟨rest, hrest⟩, hlength⟩ := habove
  have howns : s.Owns q := by
    refine ⟨place.names ++ rest, ?_, by rw [← hrest]; simp [path]⟩
    rcases hleaf with rfl | ⟨n, rfl⟩ <;> simp [Place.names]
  obtain ⟨place', rfl⟩ := hkept.known q node hnode howns
  have hnames : place.names ++ rest = place'.names := by
    have happend : s.root.names ++ (place.names ++ rest) = s.root.names ++ place'.names := by
      rw [← List.append_assoc]
      exact hrest
    exact List.append_cancel_left happend
  have hextra : rest ≠ [] := by
    rintro rfl
    rw [← hrest] at hlength
    simp at hlength
  rcases hleaf with rfl | ⟨n, rfl⟩ <;> cases place' <;> simp_all [Place.names]

end Reading

/-! ## Writing -/

section Writing

variable {s : Site} {t t' : Tree} {data : List UInt8} {version : Nat}

theorem book_put_counters {record : Counters} (hencode : Stored.encode record = .ok data) :
    s.book (t.put (s.path .counters) ⟨data, version⟩) =
      { s.book t with counters := some ⟨record, version⟩ } := by
  apply Book.ext
  · exact Tree.record?_put_self hencode
  · exact Tree.record?_put_of_ne (by simp)
  · exact fun n => Tree.record?_put_of_ne (by simp)
  · exact fun n => Tree.record?_put_of_ne (by simp)

theorem book_put_hot {record : HotDelta} (hencode : Stored.encode record = .ok data) :
    s.book (t.put (s.path .hot) ⟨data, version⟩) =
      { s.book t with hot := some ⟨record, version⟩ } := by
  apply Book.ext
  · exact Tree.record?_put_of_ne (by simp)
  · exact Tree.record?_put_self hencode
  · exact fun n => Tree.record?_put_of_ne (by simp)
  · exact fun n => Tree.record?_put_of_ne (by simp)

theorem book_put_write {n : Int} {record : WriteOperation}
    (hencode : Stored.encode record = .ok data) :
    s.book (t.put (s.path (.write n)) ⟨data, version⟩) =
      (s.book t).withWrite n (some ⟨record, version⟩) := by
  apply Book.ext
  · exact Tree.record?_put_of_ne (by simp)
  · exact Tree.record?_put_of_ne (by simp)
  · exact fun n => Tree.record?_put_of_ne (by simp)
  · intro m
    rw [Book.withWrite_write]
    split
    next hm =>
      subst hm
      exact Tree.record?_put_self hencode
    next hm => exact Tree.record?_put_of_ne (by simpa using Ne.symm hm)

theorem book_put_ok {n : Int} {record : OkDelta} (hencode : Stored.encode record = .ok data) :
    s.book (t.put (s.path (.ok n)) ⟨data, version⟩) =
      { s.book t with
        ok := fun m => if m = n then some ⟨record, version⟩ else (s.book t).ok m } := by
  apply Book.ext
  · exact Tree.record?_put_of_ne (by simp)
  · exact Tree.record?_put_of_ne (by simp)
  · intro m
    dsimp only
    split
    next hm =>
      subst hm
      exact Tree.record?_put_self hencode
    next hm => exact Tree.record?_put_of_ne (by simpa using Ne.symm hm)
  · exact fun n => Tree.record?_put_of_ne (by simp)

theorem book_put_carrier {place : Place} (hcarrier : place = .okDeltas ∨ place = .writes) :
    s.book (t.put (s.path place) ⟨data, version⟩) = s.book t := by
  apply Book.ext <;> intros <;> apply Tree.record?_put_of_ne <;>
    rcases hcarrier with rfl | rfl <;> simp

theorem book_drop_hot : s.book (t.drop (s.path .hot)) = { s.book t with hot := none } := by
  apply Book.ext
  · exact Tree.record?_drop_of_ne (by simp)
  · exact Tree.record?_drop_self
  · exact fun n => Tree.record?_drop_of_ne (by simp)
  · exact fun n => Tree.record?_drop_of_ne (by simp)

theorem book_drop_write {n : Int} :
    s.book (t.drop (s.path (.write n))) = (s.book t).withWrite n none := by
  apply Book.ext
  · exact Tree.record?_drop_of_ne (by simp)
  · exact Tree.record?_drop_of_ne (by simp)
  · exact fun n => Tree.record?_drop_of_ne (by simp)
  · intro m
    rw [Book.withWrite_write]
    split
    next hm =>
      subst hm
      exact Tree.record?_drop_self
    next hm => exact Tree.record?_drop_of_ne (by simpa using Ne.symm hm)

/-- Writing what belongs at a place keeps a site, if the node is not one of those
that have to come together. -/
theorem Kept.put {place : Place} (hkept : s.Kept t)
    (hreads : place.Reads (s.path place).text data)
    (hfree : place = .hot ∨ (∃ n, place = .ok n) ∨ (∃ n, place = .write n) ∨
      ∃ node, t.nodes[s.path place]? = some node) :
    s.Kept (t.put (s.path place) ⟨data, version⟩) := by
  have hsame : ∀ place', (place' = .counters ∨ place' = .okDeltas ∨ place' = .writes) →
      ((t.put (s.path place) ⟨data, version⟩).nodes[s.path place']? = none ↔
        t.nodes[s.path place']? = none) := by
    intro place' hfixed
    rw [Tree.getElem?_put]
    split
    next hp =>
      obtain rfl := path_injective hp
      rcases hfree with rfl | ⟨n, rfl⟩ | ⟨n, rfl⟩ | ⟨node, hnode⟩
      · simp at hfixed
      · simp at hfixed
      · simp at hfixed
      · simp [hnode]
    next => exact Iff.rfl
  constructor
  case reads =>
    intro place' node hnode
    rw [Tree.getElem?_put] at hnode
    split at hnode
    next hp =>
      cases hnode
      obtain rfl := path_injective hp
      exact hreads
    next => exact hkept.reads place' node hnode
  case known =>
    intro p node hnode howns
    rw [Tree.getElem?_put] at hnode
    split at hnode
    next hp => exact ⟨place, hp.symm⟩
    next => exact hkept.known p node hnode howns
  case okDeltas =>
    rw [hsame .okDeltas (by simp), hsame .counters (by simp)]
    exact hkept.okDeltas
  case writes =>
    rw [hsame .writes (by simp), hsame .counters (by simp)]
    exact hkept.writes

/-- The counters come with the nodes that carry the ok deltas and the ledger. -/
theorem Kept.found {record : Counters} (hkept : s.Kept t)
    (hencode : Stored.encode record = .ok data) :
    s.Kept (((t.put (s.path .counters) ⟨data, version⟩).put (s.path .okDeltas) ⟨[], 0⟩).put
      (s.path .writes) ⟨[], 0⟩) := by
  constructor
  case reads =>
    intro place node hnode
    simp only [Tree.getElem?_put, path_inj] at hnode
    split at hnode
    next hp =>
      subst hp
      trivial
    next =>
      split at hnode
      next hp =>
        subst hp
        trivial
      next =>
        split at hnode
        next hp =>
          subst hp
          cases hnode
          exact ⟨record, Stored.decode_encode hencode _⟩
        next => exact hkept.reads place node hnode
  case known =>
    intro p node hnode howns
    simp only [Tree.getElem?_put] at hnode
    split at hnode
    next hp => exact ⟨.writes, hp.symm⟩
    next =>
      split at hnode
      next hp => exact ⟨.okDeltas, hp.symm⟩
      next =>
        split at hnode
        next hp => exact ⟨.counters, hp.symm⟩
        next => exact hkept.known p node hnode howns
  case okDeltas => simp [Tree.getElem?_put]
  case writes => simp [Tree.getElem?_put]

theorem Kept.erase (hkept : s.Kept t)
    (herase : ∀ p : Path, t'.nodes[p]? = t.nodes[p]? ∨
      t'.nodes[p]? = none ∧ ∃ place, p = s.path place ∧ (place = .hot ∨ ∃ n, place = .write n)) :
    s.Kept t' := by
  have hbefore : ∀ (p : Path) node, t'.nodes[p]? = some node → t.nodes[p]? = some node := by
    intro p node hnode
    rcases herase p with hsame | ⟨hgone, _⟩
    · rw [← hsame, hnode]
    · rw [hgone] at hnode
      cases hnode
  have hsame : ∀ place, (place = .counters ∨ place = .okDeltas ∨ place = .writes) →
      t'.nodes[s.path place]? = t.nodes[s.path place]? := by
    intro place hfixed
    rcases herase (s.path place) with hsame | ⟨_, place', hp, hleaf⟩
    · exact hsame
    · obtain rfl := path_injective hp
      rcases hleaf with rfl | ⟨n, rfl⟩ <;> simp at hfixed
  constructor
  case reads => exact fun place node hnode => hkept.reads place node (hbefore _ _ hnode)
  case known => exact fun p node hnode howns => hkept.known p node (hbefore _ _ hnode) howns
  case okDeltas =>
    rw [hsame .okDeltas (by simp), hsame .counters (by simp)]
    exact hkept.okDeltas
  case writes =>
    rw [hsame .writes (by simp), hsame .counters (by simp)]
    exact hkept.writes

end Writing

end Site
end DeltaLedger
