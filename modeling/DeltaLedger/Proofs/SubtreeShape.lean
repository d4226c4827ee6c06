import DeltaLedger.Proofs.FailureMarks
import DeltaLedger.Proofs.TableExclusivity

/-!
# The shape of what a datamart keeps

Whatever requests are at work, the nodes below the root of a datamart are at every moment
none at all or a whole: the counters with the nodes that carry the ok deltas and the ledger,
records under the keys of their own numbers, and a ledger only together with a hot delta,
whose epoch all its change numbers belong to.

The last part is the one that needs the past.  A mark can write a hot delta that its request
has read in an epoch that is over.  It started before everything that the ledger held then,
and what has been registered since has a change number that was not issued then, so it
starts before the ledger of today as well.
-/

namespace DeltaLedger

namespace Book

/-- A hot delta that starts before everything in the ledger, and with a number that is issued
or is the next one. -/
structure Covered (b : Book) (hot : HotDelta) : Prop where
  issued : hot.cnFrom ≤ b.sequence.nextCn
  ledger : ∀ n entry, b.write n = some entry → hot.cnFrom ≤ n

section Covering

variable {b b' : Book} {m : Move} {view : HotDelta}

theorem Covered.of_leads (hcovered : b.Covered view) (hleads : b.Leads b') : b'.Covered view where
  issued := Int.le_trans hcovered.issued hleads.nextCn
  ledger n entry' hentry' := by
    by_cases hold : n < b.sequence.nextCn
    · obtain ⟨entry, hentry, _⟩ := hleads.write n entry' hold hentry'
      exact hcovered.ledger n entry hentry
    · exact Int.le_trans hcovered.issued (Int.not_lt.mp hold)

theorem Covered.failedAt (hcovered : b.Covered view) (n : Int) : b.Covered (view.failedAt n) :=
  ⟨hcovered.issued, hcovered.ledger⟩

/-- An unmarked hot delta was there before, or its epoch was opened over an empty ledger. -/
theorem Moves.of_unmarked {hot : Versioned HotDelta} (hmoves : b.Moves m b') (hvalid : b.Valid)
    (hhot : b'.hot = some hot) (hunmarked : hot.record.rollingBack = false) :
    b.hot = some hot ∨ b'.Covered hot.record := by
  cases hmoves with
  | opened hclosed =>
      cases hhot
      right
      constructor
      case issued => exact Int.le_of_eq (congrArg Counters.nextCn (sequence_opened b)).symm
      case ledger =>
        intro n entry hentry
        change b.write n = some entry at hentry
        rw [hvalid.closed hclosed n] at hentry
        cases hentry
  | marked =>
      cases hhot
      cases hunmarked
  | discarded => cases hhot
  | promoted => cases hhot
  | _ => exact .inl hhot

end Covering

end Book

theorem History.Orderly.covered_of_unmarked {s : Site} {h : History} {hot : Versioned HotDelta}
    (horderly : h.Orderly) (hhot : (s.book h.now).hot = some hot)
    (hunmarked : hot.record.rollingBack = false) : (s.book h.now).Covered hot.record := by
  induction horderly with
  | start hfounded =>
      rw [History.now, Site.book_of_founded hfounded] at hhot
      cases hhot
  | next horderly hchanges ih =>
      have hvalid := horderly.valid s
      have hleads := hchanges.leads hvalid
      rcases hchanges.book s with hsame | ⟨m, hturns⟩
      · rw [History.now, hsame] at hhot
        exact (ih hhot).of_leads hleads
      · rcases hturns.moves.of_unmarked hvalid hhot hunmarked with hbefore | hcovered
        · exact (ih hbefore).of_leads hleads
        · exact hcovered

namespace Cluster

variable {ι : Type} [DecidableEq ι] {s : Site}
variable {time : DateTime} {roots : List (Name × String)} {actions : List (Action ι)}

/-- Every hot delta of a run covers the ledger, the marked ones included. -/
theorem covered_run {h : History} {hot : Versioned HotDelta}
    (hle : h ≤ (run time roots actions).history) (hhot : (s.book h.now).hot = some hot) :
    (s.book h.now).Covered hot.record := by
  apply hot_induction actions (motive := fun h hot => (s.book h.now).Covered hot)
    ?_ ?_ ?_ h hle hot hhot
  · intro h hot hle hhot hunmarked
    exact ((sound_run time roots actions).orderly.of_le hle).covered_of_unmarked hhot hunmarked
  · intro earlier action hot _ _ hcovered
    have horderly := (sound_run time roots (earlier ++ [action])).orderly
    exact hcovered.of_leads (horderly.leads le_history_run s)
  · intro earlier i now task j n view _ _ _ hj hcovered
    have horderly := (sound_run time roots earlier).orderly
    exact (hcovered.of_leads (horderly.leads hj s)).failedAt n

end Cluster

/-! ## Nodes -/

/-- Every node below a place lies right below it under a key of twenty bytes, and is a record
with the number that this key spells. -/
def Site.Keyed (s : Site) (t : Tree) (carrier : Place) (α : Type) [Stored α] (number : α → Int) :
    Prop :=
  ∀ p node, t.nodes[p]? = some node → (s.path carrier).isAbove p = true →
    ∃ key record, p.names = (s.path carrier).names ++ [key] ∧ key.utf8ByteSize = 20 ∧
      Stored.decode α p.text node.data = .ok record ∧ key = Layout.key (number record) ∧
        Layout.number? key = some (number record)

/-- What the hot delta says is in line with the counters, the ok deltas and the ledger. -/
structure Site.Epoch (s : Site) (t : Tree) (counters : Counters) (hot : HotDelta) : Prop where
  issued : hot.cnFrom ≤ counters.nextCn
  ledger : ∀ n node, t.nodes[s.path (.write n)]? = some node →
    hot.cnFrom ≤ n ∧ n < counters.nextCn
  next : hot.rollingBack = false →
    hot.deltaNum = counters.nextDeltaNum ∧ t.nodes[s.path (.ok hot.deltaNum)]? = none

/-- The nodes of a site are none at all or a whole. -/
structure Site.Shaped (s : Site) (t : Tree) : Prop where
  whole : (∀ p, s.Owns p → t.nodes[p]? = none) ∨
    ∃ node okDeltas writes counters, t.nodes[s.path .counters]? = some node ∧
      Stored.decode Counters (s.path .counters).text node.data = .ok counters ∧
      t.nodes[s.path .okDeltas]? = some okDeltas ∧ t.nodes[s.path .writes]? = some writes ∧
      ∀ found, t.nodes[s.path .hot]? = some found →
        ∃ hot, Stored.decode HotDelta (s.path .hot).text found.data = .ok hot ∧
          (found.version = 0 ↔ hot.rollingBack = false) ∧ s.Epoch t counters hot
  okDeltas : s.Keyed t .okDeltas OkDelta OkDelta.deltaNum
  writes : s.Keyed t .writes WriteOperation WriteOperation.sysCn
  attached : ∀ p node, t.nodes[p]? = some node → (s.path .writes).isAbove p = true →
    ∃ found, t.nodes[s.path .hot]? = some found

namespace Site

variable {s : Site} {t : Tree}

theorem ok_of_isAbove {place : Place}
    (habove : (s.path .okDeltas).isAbove (s.path place) = true) : ∃ n, place = .ok n := by
  obtain ⟨hbegins, hlength⟩ := names_of_isAbove habove
  cases place with
  | ok n => exact ⟨n, rfl⟩
  | _ => simp [Place.names] at hbegins hlength

/-- The nodes below a carrier are keyed if those places are all it carries, and the records
there have the numbers of their places. -/
theorem keyed_of_leaf {α : Type} [Stored α] {carrier : Place} (leaf : Int → Place)
    {number : α → Int} (hkept : s.Kept t) (hsuits : ∀ n, Suits (leaf n) α)
    (hleaf : ∀ place, (s.path carrier).isAbove (s.path place) = true → ∃ n, place = leaf n)
    (hnames : ∀ n, (leaf n).names = carrier.names ++ [Layout.key n])
    (hown : ∀ n found, t.record? α (s.path (leaf n)) = some found →
      number found.record = n ∧ Decimal.Fits n) :
    s.Keyed t carrier α number := by
  intro p node hnode habove
  obtain ⟨place, rfl⟩ := hkept.known p node hnode (owns_of_isAbove habove)
  obtain ⟨n, rfl⟩ := hleaf place habove
  obtain ⟨record, hdecode⟩ := hsuits n _ _ (hkept.reads (leaf n) node hnode)
  obtain ⟨hnumber, hfits⟩ := hown n _ (Tree.record?_of_decode hnode hdecode)
  refine ⟨Layout.key n, record, ?_, Layout.utf8ByteSize_key hfits, hdecode, ?_, ?_⟩
  · simp [path, hnames]
  · rw [← hnumber]
  · rw [← hnumber] at hfits ⊢
    exact Layout.number?_key hfits

theorem nodes_of_counters_none (hkept : s.Kept t) (hvalid : (s.book t).Valid)
    (hnone : (s.book t).counters = none) {p : Path} (howns : s.Owns p) : t.nodes[p]? = none := by
  obtain ⟨hhot, hok⟩ := hvalid.bare hnone
  have hcounters := (book_counters_eq_none_iff hkept).mp hnone
  cases hnode : t.nodes[p]? with
  | none => rfl
  | some node =>
      obtain ⟨place, rfl⟩ := hkept.known p node hnode howns
      rw [← hnode]
      cases place with
      | counters => exact hcounters
      | hot => exact (book_hot_eq_none_iff hkept).mp hhot
      | okDeltas => exact hkept.okDeltas.mpr hcounters
      | ok n => exact (book_ok_eq_none_iff hkept).mp (hok n)
      | writes => exact hkept.writes.mpr hcounters
      | write n => exact (book_write_eq_none_iff hkept).mp (hvalid.closed hhot n)

theorem exists_node (hkept : s.Kept t) {place : Place}
    (hcarrier : place = .okDeltas ∨ place = .writes) (hcounters : (s.book t).counters ≠ none) :
    ∃ node, t.nodes[s.path place]? = some node := by
  rw [ne_eq, book_counters_eq_none_iff hkept] at hcounters
  apply Option.ne_none_iff_exists'.mp
  rcases hcarrier with rfl | rfl
  · rwa [ne_eq, hkept.okDeltas]
  · rwa [ne_eq, hkept.writes]

theorem exists_write (hkept : s.Kept t) {n : Int} {node : Node}
    (hnode : t.nodes[s.path (.write n)]? = some node) :
    ∃ entry, (s.book t).write n = some entry := by
  apply Option.ne_none_iff_exists'.mp
  rw [ne_eq, book_write_eq_none_iff hkept, hnode]
  nofun

theorem epoch_of_covered {counters : Versioned Counters} {hot : Versioned HotDelta}
    (hkept : s.Kept t) (hvalid : (s.book t).Valid)
    (hcounters : (s.book t).counters = some counters) (hhot : (s.book t).hot = some hot)
    (hcovered : (s.book t).Covered hot.record) : s.Epoch t counters.record hot.record := by
  have hsequence := Book.sequence_of_counters hcounters
  constructor
  case issued =>
    rw [← hsequence]
    exact hcovered.issued
  case ledger =>
    intro n node hnode
    obtain ⟨entry, hentry⟩ := exists_write hkept hnode
    rw [← hsequence]
    exact ⟨hcovered.ledger n entry hentry, (hvalid.issued n entry hentry).2.2⟩
  case next =>
    intro hunmarked
    obtain ⟨hnum, _⟩ := hvalid.current hot hhot hunmarked
    rw [← hsequence]
    refine ⟨hnum, ?_⟩
    rw [← book_ok_eq_none_iff hkept]
    cases hok : (s.book t).ok hot.record.deltaNum with
    | none => rfl
    | some ok =>
        have hbelow := ((hvalid.numbered _).mp ⟨ok, hok⟩).2
        rw [hnum] at hbelow
        exact absurd hbelow (Int.lt_irrefl _)

theorem shaped_of_book (hkept : s.Kept t) (hvalid : (s.book t).Valid)
    (hown : ∀ n ok, (s.book t).ok n = some ok → ok.record.deltaNum = n)
    (hcovered : ∀ hot, (s.book t).hot = some hot → (s.book t).Covered hot.record) :
    s.Shaped t := by
  constructor
  case whole =>
    cases hcounters : (s.book t).counters with
    | none => exact .inl fun p howns => nodes_of_counters_none hkept hvalid hcounters howns
    | some counters =>
        right
        obtain ⟨node, hnode, _, hdecode⟩ := Tree.node_of_record? hcounters
        have hthere : (s.book t).counters ≠ none := by simp [hcounters]
        obtain ⟨okDeltas, hokDeltas⟩ := exists_node hkept (.inl rfl) hthere
        obtain ⟨writes, hwrites⟩ := exists_node hkept (.inr rfl) hthere
        refine ⟨node, okDeltas, writes, _, hnode, hdecode, hokDeltas, hwrites, ?_⟩
        intro found hfound
        obtain ⟨hot, hread⟩ := hkept.reads .hot found hfound
        have hhot : (s.book t).hot = some ⟨hot, found.version⟩ :=
          Tree.record?_of_decode hfound hread
        exact ⟨hot, hread, hvalid.unwritten _ hhot,
          epoch_of_covered hkept hvalid hcounters hhot (hcovered _ hhot)⟩
  case okDeltas =>
    refine keyed_of_leaf .ok hkept suits_ok (fun _ => ok_of_isAbove) (fun _ => rfl) ?_
    intro n ok hok
    exact ⟨hown n ok hok, hvalid.fits_of_ok hok⟩
  case writes =>
    refine keyed_of_leaf .write hkept suits_write (fun _ => place_of_isAbove)
      (fun _ => rfl) ?_
    intro n entry hentry
    exact ⟨(hvalid.issued n entry hentry).1, hvalid.fits_of_write hentry⟩
  case attached =>
    intro p node hnode habove
    obtain ⟨place, rfl⟩ := hkept.known p node hnode (owns_of_isAbove habove)
    obtain ⟨n, rfl⟩ := place_of_isAbove habove
    obtain ⟨entry, hentry⟩ := exists_write hkept hnode
    obtain ⟨hot, hhot⟩ := hvalid.hot_of_write hentry
    obtain ⟨found, hfound, _⟩ := Tree.node_of_record? hhot
    exact ⟨found, hfound⟩

end Site

open Cluster

/-- Whatever requests are at work, and wherever they stop, the nodes of every datamart have
their shape. -/
theorem shaped_run {ι : Type} [DecidableEq ι] (time : DateTime) (roots : List (Name × String))
    (actions : List (Action ι)) (s : Site) : s.Shaped (run time roots actions).history.now := by
  have hsound := sound_run time roots actions
  have hpresent : (run time roots actions).history ≤ (run time roots actions).history :=
    History.le_refl _
  apply Site.shaped_of_book (hsound.orderly.kept s) (hsound.orderly.valid s)
  · exact (consecutive_run time roots actions s _ hpresent).own
  · exact fun hot hhot => covered_run hpresent hhot

end DeltaLedger
