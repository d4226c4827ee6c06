import DeltaLedger.Proofs.ScopeRules
import Mathlib.Data.List.Sort

/-!
# Requests that run alone

What the parts of a request do when nobody interferes.  Reads give what the book of
the site has, the ledger is the list of all entries in the order of their numbers, and
an attempt that commits is the last one.
-/

namespace DeltaLedger

/-- A list with increasing numbers is determined by what it holds. -/
theorem eq_of_increasing {α : Type} {f : α → Int} {l l' : List α}
    (hl : l.Pairwise fun a b => f a < f b)
    (hl' : l'.Pairwise fun a b => f a < f b) (hmem : ∀ a, a ∈ l ↔ a ∈ l') : l = l' := by
  have hirrefl : Std.Irrefl fun a b : α => f a < f b := ⟨fun a => Int.lt_irrefl _⟩
  have hantisymm : Std.Antisymm fun a b : α => f a < f b :=
    ⟨fun a b hab hba => absurd hab (Int.not_lt.mpr (Int.le_of_lt hba))⟩
  exact hl.eq_of_mem_iff hl' hmem

namespace Book

/-- The entries of a book in the order of their numbers. -/
def Lists (b : Book) (entries : List (Versioned WriteOperation)) : Prop :=
  entries.Pairwise (fun a b => a.record.sysCn < b.record.sysCn) ∧
    ∀ entry, entry ∈ entries ↔ b.write entry.record.sysCn = some entry

theorem Lists.unique {b : Book} {entries entries' : List (Versioned WriteOperation)}
    (h : b.Lists entries) (h' : b.Lists entries') : entries = entries' := by
  apply eq_of_increasing h.1 h'.1
  intro entry
  rw [h.2, h'.2]

theorem Lists.covers {b : Book} {entries : List (Versioned WriteOperation)} (h : b.Lists entries)
    (hvalid : b.Valid) : Site.Covers b entries := by
  intro n found hfound
  have hn := (hvalid.issued n found hfound).1
  refine ⟨found, ?_, hn⟩
  rw [h.2, hn]
  exact hfound

theorem Lists.holds {b : Book} {entries : List (Versioned WriteOperation)} (h : b.Lists entries) :
    Site.Holds b entries := by
  constructor
  · refine List.pairwise_map.mpr (h.1.imp ?_)
    exact fun hlt => Int.ne_of_lt hlt
  · exact fun entry hentry => ⟨entry.record, (h.2 entry).mp hentry⟩

end Book

namespace Program

variable {ε α β : Type} {time : DateTime} {t t' : Tree}

theorem runAlone_bind (p : Program ε α) (f : α → Program ε β) :
    (p >>= f).runAlone time t =
      match p.runAlone time t with
      | (.ok a, t') => (f a).runAlone time t'
      | (.error e, t') => (.error e, t') := by
  induction p generalizing t with
  | done result => cases result <;> rfl
  | call c next ih => exact ih _
  | clock next ih => exact ih _
  | note n next ih => exact ih

theorem runAlone_bind_of_ok {p : Program ε α} {f : α → Program ε β} {a : α}
    (hrun : p.runAlone time t = (.ok a, t')) :
    (p >>= f).runAlone time t = (f a).runAlone time t' := by
  rw [runAlone_bind, hrun]

theorem runAlone_bind_of_error {p : Program ε α} {f : α → Program ε β} {e : ε}
    (hrun : p.runAlone time t = (.error e, t')) :
    (p >>= f).runAlone time t = (.error e, t') := by
  rw [runAlone_bind, hrun]

theorem runAlone_map_of_ok {p : Program ε α} {f : α → β} {a : α}
    (hrun : p.runAlone time t = (.ok a, t')) : (f <$> p).runAlone time t = (.ok (f a), t') :=
  runAlone_bind_of_ok hrun

theorem runAlone_map_of_error {p : Program ε α} {f : α → β} {e : ε}
    (hrun : p.runAlone time t = (.error e, t')) : (f <$> p).runAlone time t = (.error e, t') :=
  runAlone_bind_of_error hrun

theorem runAlone_andThen {ε' : Type} (p : Program ε α) (f : Except ε α → Program ε' β) :
    (p.andThen f).runAlone time t =
      (f (p.runAlone time t).1).runAlone time (p.runAlone time t).2 := by
  induction p generalizing t with
  | done result => rfl
  | call c next ih => exact ih _
  | clock next ih => exact ih _
  | note n next ih => exact ih

theorem runAlone_request {c : Call} {onError : StoreError → ε} {result : c.Result}
    (hanswer : t.answer c = (.ok result, t')) :
    (request c onError).runAlone time t = (.ok result, t') := by
  simp only [request, runAlone, hanswer]

end Program

section Alone

variable {s : Site} {scope : Scope} {time : DateTime} {t t' : Tree}

variable (time) in
theorem runAlone_read {place : Place} {α : Type} [Stored α] (hsuits : Site.Suits place α)
    (hkept : s.Kept t) :
    (Scope.read α (s.path place).text).runAlone time t =
      (.ok (t.record? α (s.path place)), t) := by
  rw [Scope.read_eq]
  have hanswer := Tree.answer_read (t := t) (p := s.path place)
  change (Scope.readResult α _ (t.answer (.read (s.path place).text)).1,
    (t.answer (.read (s.path place).text)).2) = _
  rw [hanswer, Site.readResult_eq hsuits hkept]

theorem runAlone_require_of_some {place : Place} {α : Type} [Stored α] {missing : Failure}
    {found : Versioned α} (hsuits : Site.Suits place α) (hkept : s.Kept t)
    (hfound : t.record? α (s.path place) = some found) :
    (Scope.require α (s.path place).text missing).runAlone time t = (.ok found, t) := by
  have hread := runAlone_read time hsuits hkept
  rw [hfound] at hread
  exact Program.runAlone_bind_of_ok hread

theorem runAlone_require_of_none {place : Place} {α : Type} [Stored α] {missing : Failure}
    (hsuits : Site.Suits place α) (hkept : s.Kept t)
    (hmissing : t.record? α (s.path place) = none) :
    (Scope.require α (s.path place).text missing).runAlone time t = (.error missing, t) := by
  have hread := runAlone_read time hsuits hkept
  rw [hmissing] at hread
  exact Program.runAlone_bind_of_ok hread

theorem runAlone_hot_of_some {hot : Versioned HotDelta} (hlayout : scope.layout = s.layout)
    (hkept : s.Kept t) (hhot : (s.book t).hot = some hot) :
    scope.hot.runAlone time t = (.ok hot, t) := by
  unfold Scope.hot
  rw [hlayout, Site.layout_hot]
  exact runAlone_require_of_some Site.suits_hot hkept hhot

theorem runAlone_hot_of_none (hlayout : scope.layout = s.layout) (hkept : s.Kept t)
    (hhot : (s.book t).hot = none) :
    scope.hot.runAlone time t = (.error (.noHotDelta scope.datamart), t) := by
  unfold Scope.hot
  rw [hlayout, Site.layout_hot]
  exact runAlone_require_of_none Site.suits_hot hkept hhot

theorem runAlone_counters_of_some {counters : Versioned Counters}
    (hlayout : scope.layout = s.layout) (hkept : s.Kept t)
    (hcounters : (s.book t).counters = some counters) :
    scope.counters.runAlone time t = (.ok counters, t) := by
  unfold Scope.counters
  rw [hlayout, Site.layout_counters]
  exact runAlone_require_of_some Site.suits_counters hkept hcounters

theorem runAlone_write_of_some {n : Int} {entry : Versioned WriteOperation}
    (hlayout : scope.layout = s.layout) (hkept : s.Kept t)
    (hentry : (s.book t).write n = some entry) :
    (scope.write n).runAlone time t = (.ok entry, t) := by
  unfold Scope.write
  rw [hlayout, Site.layout_write]
  exact runAlone_require_of_some (Site.suits_write n) hkept hentry

theorem runAlone_write_of_none {n : Int} (hlayout : scope.layout = s.layout) (hkept : s.Kept t)
    (hentry : (s.book t).write n = none) :
    (scope.write n).runAlone time t = (.error (.noWrite scope.datamart n), t) := by
  unfold Scope.write
  rw [hlayout, Site.layout_write]
  exact runAlone_require_of_none (Site.suits_write n) hkept hentry

theorem runAlone_namesBelow {place : Place} :
    (Scope.namesBelow (s.path place).text).runAlone time t = (.ok (s.names place t), t) := by
  rw [Scope.namesBelow_eq]
  change (Scope.namesResult (t.answer (.children (s.path place).text)).1,
    (t.answer (.children (s.path place).text)).2) = _
  rw [Site.namesResult_eq, Tree.answer_children]

/-! ## The ledger -/

theorem runAlone_writesAt (hlayout : scope.layout = s.layout) (hkept : s.Kept t)
    (ns : List Int) :
    (scope.writesAt ns).runAlone time t = (.ok (ns.filterMap (s.book t).write), t) := by
  induction ns with
  | nil => rfl
  | cons n ns ih =>
      unfold Scope.writesAt
      rw [hlayout, Site.layout_write,
        Program.runAlone_bind_of_ok (runAlone_read time (Site.suits_write n) hkept),
        Program.runAlone_bind_of_ok ih]
      change (Except.ok (((s.book t).write n).toList ++ _), t) = _
      cases hentry : (s.book t).write n with
      | none => rw [List.filterMap_cons_none hentry]; rfl
      | some entry => rw [List.filterMap_cons_some hentry]; rfl

theorem lists_ledger {b : Book} {ns : List Int} (hvalid : b.Valid) (hnodup : ns.Nodup)
    (hns : ∀ n, n ∈ ns ↔ ∃ entry, b.write n = some entry) :
    b.Lists ((ns.filterMap b.write).mergeSort fun a b => a.record.sysCn ≤ b.record.sysCn) := by
  have hperm := List.mergeSort_perm (ns.filterMap b.write)
    fun a b => decide (a.record.sysCn ≤ b.record.sysCn)
  refine ⟨increasing_ledger ?_, ?_⟩
  · rw [List.Nodup, List.pairwise_map]
    refine List.Pairwise.filterMap _ ?_ hnodup
    intro m n hne entry hentry entry' hentry'
    rw [(hvalid.issued m entry hentry).1, (hvalid.issued n entry' hentry').1]
    exact hne
  · intro entry
    rw [hperm.mem_iff, List.mem_filterMap]
    constructor
    · rintro ⟨n, _, hentry⟩
      rw [(hvalid.issued n entry hentry).1]
      exact hentry
    · intro hentry
      exact ⟨entry.record.sysCn, (hns _).mpr ⟨entry, hentry⟩, hentry⟩

variable (time) in
/-- Alone, the scan of the ledger gives all entries of the book in order. -/
theorem runAlone_ledger (hlayout : scope.layout = s.layout) (hkept : s.Kept t)
    (hvalid : (s.book t).Valid) :
    ∃ entries, (s.book t).Lists entries ∧ scope.ledger.runAlone time t = (.ok entries, t) := by
  have hnodup := Site.nodup_numbers_writes hkept hvalid
  have hnumbers := fun n => Site.mem_numbers_writes_iff (n := n) hkept hvalid
  have hnames : (Scope.namesBelow scope.layout.writes).runAlone time t =
      (.ok (s.names .writes t), t) := by
    rw [hlayout, Site.layout_writes]
    exact runAlone_namesBelow
  refine ⟨_, lists_ledger hvalid hnodup hnumbers, ?_⟩
  unfold Scope.ledger
  rw [Program.runAlone_bind_of_ok hnames,
    Program.runAlone_bind_of_ok (runAlone_writesAt hlayout hkept _)]
  rfl

/-! ## Attempts and requests -/

theorem runAlone_commit {γ : Type} {steps : List Step} {result : γ}
    (hcommits : t.Commits steps t') :
    (scope.commit steps result).runAlone time t = (.ok (some result), t') := by
  have hanswer : t.answer (.transact steps) = t.transact steps := rfl
  rw [Tree.transact_of_commits hcommits] at hanswer
  unfold Scope.commit
  change Program.runAlone time _ (t.answer (.transact steps)).2 = _
  rw [hanswer]
  rfl

theorem runAlone_persist_of_ok {γ : Type} {attempt : Program Failure (Option γ)} {a : γ}
    (hrun : attempt.runAlone time t = (.ok (some a), t')) :
    (scope.persist attempt).runAlone time t = (.ok a, t') := by
  unfold Scope.persist
  obtain ⟨left, hleft⟩ := Nat.exists_eq_succ_of_ne_zero
    (Nat.pos_iff_ne_zero.mp scope.coordinator.attempts_pos)
  rw [hleft]
  exact Program.runAlone_bind_of_ok hrun

theorem runAlone_persist_of_error {γ : Type} {attempt : Program Failure (Option γ)} {e : Failure}
    (hrun : attempt.runAlone time t = (.error e, t')) :
    (scope.persist attempt).runAlone time t = (.error e, t') := by
  unfold Scope.persist
  obtain ⟨left, hleft⟩ := Nat.exists_eq_succ_of_ne_zero
    (Nat.pos_iff_ne_zero.mp scope.coordinator.attempts_pos)
  rw [hleft]
  exact Program.runAlone_bind_of_error hrun

theorem runAlone_serve (c : Coordinator) (r : Request) :
    (c.serve r).runAlone time t = (c.execute r).runAlone time t := by
  unfold Coordinator.serve
  change Program.runAlone time ((c.execute r).andThen (Coordinator.conclude r)) t = _
  rw [Program.runAlone_andThen]
  cases hresult : ((c.execute r).runAlone time t).1 with
  | ok response =>
      change (Except.ok response, _) = _
      rw [← hresult]
  | error failure =>
      change (Except.error failure, _) = _
      rw [← hresult]

theorem runAlone_enter {c : Coordinator} {operation : Operation} {datamart : String} {β : Type}
    {f : Scope → Program Failure β} (hserves : c.Serves datamart s)
    (hroot : t.has s.root = true) :
    (Scope.enter c operation datamart >>= f).runAlone time t =
      (f ⟨c, operation, datamart, s.layout⟩).runAlone time t := by
  unfold Scope.enter
  rw [parseRoot_of_serves hserves]
  obtain ⟨node, hnode⟩ := Option.isSome_iff_exists.mp hroot
  have hanswer := Tree.answer_stat (t := t) (p := s.root)
  rw [hnode] at hanswer
  change ((Program.request (.stat s.root.text) .unavailable >>= _) >>= f).runAlone time t = _
  rw [Program.bind_bind, Program.runAlone_bind_of_ok (Program.runAlone_request hanswer),
    Site.layout_eq_below]
  rfl

theorem runAlone_enter_of_missing {c : Coordinator} {operation : Operation} {datamart : String}
    {β : Type} {f : Scope → Program Failure β} (hserves : c.Serves datamart s)
    (hroot : t.has s.root = false) :
    (Scope.enter c operation datamart >>= f).runAlone time t =
      (.error (.noDatamart datamart), t) := by
  unfold Scope.enter
  rw [parseRoot_of_serves hserves]
  have hnode : t.find? s.root = none := by
    simpa [Tree.has] using hroot
  have hanswer := Tree.answer_stat (t := t) (p := s.root)
  rw [hnode] at hanswer
  change ((Program.request (.stat s.root.text) .unavailable >>= _) >>= f).runAlone time t = _
  rw [Program.bind_bind, Program.runAlone_bind_of_ok (Program.runAlone_request hanswer)]
  rfl

theorem runAlone_enter_of_bad {c : Coordinator} {operation : Operation} {datamart : String}
    {β : Type} {f : Scope → Program Failure β} {e : StoreError}
    (hroot : Datamart.parseRoot c.env datamart = .error e) :
    (Scope.enter c operation datamart >>= f).runAlone time t =
      (.error (.badRequest e.message), t) := by
  unfold Scope.enter
  rw [hroot]
  rfl

end Alone

end DeltaLedger
