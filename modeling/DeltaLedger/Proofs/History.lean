import DeltaLedger.Proofs.LaterBook
import DeltaLedger.Proofs.Turns

/-!
# Histories of a store

A history is all the trees that a store has been, with the present one at its end.
It is orderly when it starts with nothing but roots of datamarts and every change
in it is a turn of some site.  In an orderly history every site is kept with a valid
book, and the book of a moment leads to the book of every later moment.
-/

namespace DeltaLedger

/-- The trees that a store has been. -/
inductive History where
  | start (t : Tree)
  | next (h : History) (t : Tree)

namespace History

/-- The present tree. -/
def now : History → Tree
  | start t => t
  | next _ t => t

/-- One history is the beginning of another. -/
inductive Le (h : History) : History → Prop where
  | refl : h.Le h
  | next {h' : History} {t : Tree} (hle : h.Le h') : h.Le (h'.next t)

instance : LE History := ⟨Le⟩

theorem le_refl (h : History) : h ≤ h :=
  Le.refl

theorem le_next {h h' : History} (hle : h ≤ h') (t : Tree) : h ≤ h'.next t :=
  Le.next hle

theorem le_trans {h h' h'' : History} (hle : h ≤ h') (hle' : h' ≤ h'') : h ≤ h'' := by
  induction hle' with
  | refl => exact hle
  | next _ ih => exact ih.next

theorem le_of_next_le {h h' : History} {t : Tree} (hle : h.next t ≤ h') : h ≤ h' :=
  le_trans (le_next (le_refl h) t) hle

theorem le_or_le {h h' top : History} (hle : h ≤ top) (hle' : h' ≤ top) : h ≤ h' ∨ h' ≤ h := by
  induction hle with
  | refl => exact .inr hle'
  | next hle ih =>
      cases hle' with
      | refl => exact .inl (le_next hle _)
      | next hle' => exact ih hle'

end History

/-- Nothing but environments and roots of datamarts. -/
def Tree.Founded (t : Tree) : Prop :=
  ∀ (p : Path) node, t.nodes[p]? = some node → p.names.length ≤ 2

/-- What a call may do to a tree: nothing, or a turn of a site. -/
def Tree.Changes (t t' : Tree) : Prop :=
  t' = t ∨ ∃ s m, Site.Turns s m t t'

/-- A history of requests. -/
inductive History.Orderly : History → Prop where
  | start {t : Tree} (hfounded : t.Founded) : Orderly (.start t)
  | next {h : History} {t : Tree} (horderly : h.Orderly) (hchanges : h.now.Changes t) :
      Orderly (h.next t)

namespace Site

variable {s s' : Site} {t t' : Tree} {m : Move}

theorem Owns.length_lt {p : Path} (howns : s.Owns p) : 2 < p.names.length := by
  obtain ⟨rest, hne, hnames⟩ := howns
  have hpos := List.length_pos_iff.mpr hne
  simp only [hnames, root, List.length_append, List.length_cons, List.length_nil]
  omega

theorem book_of_founded (hfounded : t.Founded) : s.book t = Book.blank := by
  have hnone : ∀ place, t.nodes[s.path place]? = none := by
    intro place
    cases hnode : t.nodes[s.path place]? with
    | none => rfl
    | some node =>
        have hshort := hfounded _ node hnode
        have hlong := (s.owns_path place).length_lt
        omega
  apply Book.ext <;> intros <;> simp [book, Book.blank, Tree.record?, hnone]

theorem kept_of_founded (hfounded : t.Founded) : s.Kept t := by
  have hnone : ∀ p, s.Owns p → t.nodes[p]? = none := by
    intro p howns
    cases hnode : t.nodes[p]? with
    | none => rfl
    | some node =>
        have hshort := hfounded p node hnode
        have hlong := howns.length_lt
        omega
  constructor
  case reads =>
    intro place node hnode
    rw [hnone _ (s.owns_path place)] at hnode
    cases hnode
  case known =>
    intro p node hnode howns
    rw [hnone p howns] at hnode
    cases hnode
  case okDeltas => rw [hnone _ (s.owns_path _), hnone _ (s.owns_path _)]
  case writes => rw [hnone _ (s.owns_path _), hnone _ (s.owns_path _)]

theorem Turns.other (hturns : s'.Turns m t t') (hne : s ≠ s') {p : Path} (howns : s.Owns p) :
    t.nodes[p]? = t'.nodes[p]? := by
  refine (hturns.frame p ?_).symm
  intro howns'
  exact hne (howns.unique howns')

theorem not_owns_root : ¬s'.Owns s.root := by
  intro howns
  have hlong := howns.length_lt
  simp [root] at hlong

end Site

namespace Tree.Changes

variable {t t' : Tree}

theorem book (hchanges : t.Changes t') (s : Site) :
    s.book t' = s.book t ∨ ∃ m, s.Turns m t t' := by
  rcases hchanges with rfl | ⟨s', m, hturns⟩
  · exact .inl rfl
  · by_cases hsame : s = s'
    · subst hsame
      exact .inr ⟨m, hturns⟩
    · exact .inl (Site.book_congr fun p howns => hturns.other hsame howns).symm

theorem kept (hchanges : t.Changes t') {s : Site} (hkept : s.Kept t) : s.Kept t' := by
  rcases hchanges with rfl | ⟨s', m, hturns⟩
  · exact hkept
  · by_cases hsame : s = s'
    · subst hsame
      exact hturns.kept
    · exact hkept.congr fun p howns => hturns.other hsame howns

theorem valid (hchanges : t.Changes t') {s : Site} (hvalid : (s.book t).Valid) :
    (s.book t').Valid := by
  rcases hchanges.book s with hsame | ⟨m, hturns⟩
  · rw [hsame]
    exact hvalid
  · exact hvalid.moves hturns.moves

theorem leads (hchanges : t.Changes t') {s : Site} (hvalid : (s.book t).Valid) :
    (s.book t).Leads (s.book t') := by
  rcases hchanges.book s with hsame | ⟨m, hturns⟩
  · rw [hsame]
    exact Book.Leads.refl _
  · exact Book.Leads.of_moves hvalid hturns.moves

theorem has_root (hchanges : t.Changes t') (s : Site) : t'.has s.root = t.has s.root := by
  have hnodes : t'.nodes[s.root]? = t.nodes[s.root]? := by
    rcases hchanges with rfl | ⟨s', m, hturns⟩
    · rfl
    · exact hturns.frame _ Site.not_owns_root
  exact Tree.has_congr hnodes

end Tree.Changes

namespace History.Orderly

variable {h h' : History}

theorem kept (horderly : h.Orderly) (s : Site) : s.Kept h.now := by
  induction horderly with
  | start hfounded => exact Site.kept_of_founded hfounded
  | next _ hchanges ih => exact hchanges.kept ih

theorem valid (horderly : h.Orderly) (s : Site) : (s.book h.now).Valid := by
  induction horderly with
  | start hfounded =>
      rw [History.now, Site.book_of_founded hfounded]
      exact Book.valid_blank
  | next _ hchanges ih => exact hchanges.valid ih

theorem of_le (horderly : h'.Orderly) (hle : h ≤ h') : h.Orderly := by
  induction hle with
  | refl => exact horderly
  | next _ ih =>
      cases horderly with
      | next horderly _ => exact ih horderly

theorem leads (horderly : h'.Orderly) (hle : h ≤ h') (s : Site) :
    (s.book h.now).Leads (s.book h'.now) := by
  induction hle with
  | refl => exact Book.Leads.refl _
  | next _ ih =>
      cases horderly with
      | next horderly hchanges =>
          exact (ih horderly).trans (hchanges.leads (horderly.valid s))

theorem has_root (horderly : h'.Orderly) (hle : h ≤ h') (s : Site) :
    h'.now.has s.root = h.now.has s.root := by
  induction hle with
  | refl => rfl
  | next _ ih =>
      cases horderly with
      | next horderly hchanges => exact (hchanges.has_root s).trans (ih horderly)

/-! ## The same version -/

section Versions

variable {s : Site}

theorem counters_of_version {counters : Versioned Counters} {record : Counters}
    (horderly : h'.Orderly) (hle : h ≤ h') (hcounters : (s.book h.now).counters = some counters)
    (hcounters' : (s.book h'.now).counters = some ⟨record, counters.version⟩) :
    (s.book h'.now).counters = some counters := by
  have hsame := (horderly.leads hle s).counters_eq hcounters hcounters' rfl
  rw [hcounters', hsame]

theorem write_of_version {n : Int} {entry : Versioned WriteOperation} {record : WriteOperation}
    (horderly : h'.Orderly) (hle : h ≤ h') (hentry : (s.book h.now).write n = some entry)
    (hentry' : (s.book h'.now).write n = some ⟨record, entry.version⟩) :
    (s.book h'.now).write n = some entry := by
  have hvalid := (horderly.of_le hle).valid s
  have hsame := (horderly.leads hle s).write_eq hvalid hentry hentry' rfl
  rw [hentry', hsame]

/-- A hot delta is unmarked exactly at its first version, of whichever epoch it is. -/
theorem unmarked_of_version {hot : Versioned HotDelta} {record : HotDelta}
    (horderly : h'.Orderly) (hle : h ≤ h') (hhot : (s.book h.now).hot = some hot)
    (hrolling : hot.record.rollingBack = false)
    (hhot' : (s.book h'.now).hot = some ⟨record, hot.version⟩) : record.rollingBack = false := by
  have hfirst := (((horderly.of_le hle).valid s).unwritten hot hhot).mpr hrolling
  exact ((horderly.valid s).unwritten _ hhot').mp hfirst

end Versions

end History.Orderly
end DeltaLedger
