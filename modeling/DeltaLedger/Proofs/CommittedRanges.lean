import DeltaLedger.Proofs.ClusterSteps

/-!
# What the range of an ok delta covers

A commit writes the range of its ok delta from the hot delta that it read first and the
counters that it read after.  The counters cannot change before its transaction.  But
the hot delta is only known to be at the same version, and every hot delta starts at
version zero: the epoch that was read may have been discarded in the meantime, and
another one opened.

The range covers nothing but numbers of the epoch that the commit ends exactly if no
number was given out in an epoch that ended in between.
-/

namespace DeltaLedger

namespace Book

variable {b b' : Book} {m : Move} {n : Int}

theorem Moves.of_new_entry (hmoves : b.Moves m b') (hbefore : b.write n = none)
    (hafter : b'.write n ≠ none) :
    n = b.sequence.nextCn ∧ b'.sequence.nextCn = n + 1 ∧
      ∃ hot, b.hot = some hot ∧ hot.record.rollingBack = false := by
  cases hmoves with
  | opened => exact absurd hbefore hafter
  | @registered datamart r hot counters hhot hcounters hrolling =>
      rw [withWrite_write] at hafter
      split at hafter
      next hn =>
        subst hn
        exact ⟨by rw [sequence_of_counters hcounters], rfl, hot, hhot, hrolling⟩
      next => exact absurd hbefore hafter
  | @finished sysCn status hot entry hhot hentry =>
      rw [withWrite_write] at hafter
      split at hafter
      next hn =>
        rw [hn, hentry] at hbefore
        cases hbefore
      next => exact absurd hbefore hafter
  | withdrawn =>
      rw [withWrite_write] at hafter
      split at hafter
      next => exact absurd rfl hafter
      next => exact absurd hbefore hafter
  | marked => exact absurd hbefore hafter
  | discarded => exact absurd rfl hafter
  | promoted => exact absurd rfl hafter

/-- A number that is used up by a move is the number of a new entry. -/
theorem Moves.of_nextCn_lt (hmoves : b.Moves m b') (hvalid : b.Valid)
    (hlow : b.sequence.nextCn ≤ n) (hhigh : n < b'.sequence.nextCn) :
    b.write n = none ∧ b'.write n ≠ none := by
  constructor
  · cases hentry : b.write n with
    | none => rfl
    | some entry =>
        have hissued := (hvalid.issued n entry hentry).2.2
        omega
  · cases hmoves with
    | opened =>
        change n < (b.counters.getD ⟨.fresh, 0⟩).record.nextCn at hhigh
        rw [sequence_opened] at hhigh
        omega
    | @registered datamart r hot counters hhot hcounters =>
        rw [sequence_of_counters hcounters] at hlow
        change n < counters.record.nextCn + 1 at hhigh
        rw [withWrite_write, if_pos (by omega)]
        nofun
    | finished => exact absurd hhigh (Int.not_lt.mpr hlow)
    | withdrawn => exact absurd hhigh (Int.not_lt.mpr hlow)
    | marked => exact absurd hhigh (Int.not_lt.mpr hlow)
    | discarded => exact absurd hhigh (Int.not_lt.mpr hlow)
    | promoted _ hcounters =>
        rw [sequence_of_counters hcounters] at hlow
        exact absurd hhigh (Int.not_lt.mpr hlow)

theorem Moves.hot_eq {hot : Versioned HotDelta} (hmoves : b.Moves m b') (hopen : b.hot ≠ none)
    (hafter : b'.hot = some hot) (hrolling : hot.record.rollingBack = false) :
    b.hot = some hot := by
  cases hmoves with
  | opened hclosed => exact absurd hclosed hopen
  | registered => exact hafter
  | finished => exact hafter
  | withdrawn => exact hafter
  | marked =>
      cases hafter
      cases hrolling
  | discarded => cases hafter
  | promoted => cases hafter

theorem Moves.of_new_ok {ok : Versioned OkDelta} (hmoves : b.Moves m b') (hbefore : b.ok n = none)
    (hafter : b'.ok n = some ok) :
    ∃ view date hot counters, m = .promoted view date ∧ b.hot = some hot ∧
      hot.record.rollingBack = false ∧ b.counters = some counters ∧
        ok.record = counters.record.close view date := by
  have hnew : b.ok n ≠ some ok := by
    rw [hbefore]
    nofun
  cases hmoves with
  | @promoted view date hot counters hhot hcounters hrolling =>
      change (if n = view.deltaNum then _ else _) = some ok at hafter
      split at hafter
      next =>
        cases hafter
        exact ⟨view, date, hot, counters, rfl, hhot, hrolling, hcounters, rfl⟩
      next => exact absurd hafter hnew
  | _ => exact absurd hafter hnew

theorem Moves.cnFrom_eq {hot : Versioned HotDelta} (hmoves : b.Moves m b') (hclosed : b.hot = none)
    (hafter : b'.hot = some hot) : hot.record.cnFrom = b.sequence.nextCn := by
  cases hmoves with
  | opened =>
      cases hafter
      rfl
  | registered hhot => simp [hclosed] at hhot
  | finished hhot => simp [hclosed] at hhot
  | withdrawn hhot => simp [hclosed] at hhot
  | marked hhot => simp [hclosed] at hhot
  | discarded => cases hafter
  | promoted => cases hafter

end Book

namespace History

theorem eq_of_le_of_le {h h' : History} (hle : h ≤ h') (hle' : h' ≤ h) : h = h' := by
  cases hle with
  | refl => rfl
  | next hle => exact absurd (le_trans hle' hle) not_next_le

theorem next_le_of_ne {h p u : History} {t : Tree} (hle : h ≤ p) (hne : p ≠ h)
    (hnext : h.next t ≤ u) (hp : p ≤ u) : h.next t ≤ p := by
  rcases le_or_le hnext hp with hafter | hbefore
  · exact hafter
  · cases hbefore with
    | refl => exact le_refl _
    | next hbefore => exact absurd (eq_of_le_of_le hbefore hle) hne

end History

namespace History.Orderly

variable {s : Site} {u : History}

theorem exists_registered (horderly : u.Orderly) {n : Int} (hlow : 0 ≤ n)
    (hhigh : n < (s.book u.now).sequence.nextCn) :
    ∃ v : History, ∃ t, v.next t ≤ u ∧ (s.book v.now).write n = none ∧ (s.book t).write n ≠ none := by
  induction horderly with
  | start hfounded =>
      change n < (s.book _).sequence.nextCn at hhigh
      rw [History.now, Site.book_of_founded hfounded] at hhigh
      change n < 0 at hhigh
      omega
  | @next h t horderly hchanges ih =>
      by_cases hold : n < (s.book h.now).sequence.nextCn
      · obtain ⟨v, t', hle, hregistered⟩ := ih hold
        exact ⟨v, t', History.le_next hle t, hregistered⟩
      · rcases hchanges.book s with hsame | ⟨m, hturns⟩
        · change n < (s.book t).sequence.nextCn at hhigh
          rw [hsame] at hhigh
          exact absurd hhigh hold
        · exact ⟨h, t, History.le_refl _,
            hturns.moves.of_nextCn_lt (horderly.valid s) (Int.not_lt.mp hold) hhigh⟩

theorem of_registered {v : History} {t : Tree} {n : Int} (horderly : u.Orderly)
    (hnext : v.next t ≤ u) (hbefore : (s.book v.now).write n = none)
    (hafter : (s.book t).write n ≠ none) :
    n = (s.book v.now).sequence.nextCn ∧ (s.book t).sequence.nextCn = n + 1 ∧
      ∃ hot, (s.book v.now).hot = some hot ∧ hot.record.rollingBack = false := by
  cases horderly.of_le hnext with
  | next _ hchanges =>
      rcases hchanges.book s with hsame | ⟨m, hturns⟩
      · rw [hsame] at hafter
        exact absurd hbefore hafter
      · exact hturns.moves.of_new_entry hbefore hafter

/-- An unmarked hot delta has been the same as long as an epoch was open. -/
theorem hot_eq_of_open {v : History} {hot : Versioned HotDelta} (horderly : u.Orderly)
    (hle : v ≤ u) (hopen : ∀ p, v ≤ p → p ≤ u → (s.book p.now).hot ≠ none)
    (hhot : (s.book u.now).hot = some hot) (hrolling : hot.record.rollingBack = false) :
    (s.book v.now).hot = some hot := by
  induction hle with
  | refl => exact hhot
  | @next h t hle ih =>
      cases horderly with
      | next horderly hchanges =>
          have hbefore : (s.book h.now).hot = some hot := by
            rcases hchanges.book s with hsame | ⟨m, hturns⟩
            · rw [← hsame]
              exact hhot
            · exact hturns.moves.hot_eq (hopen h hle (History.le_next (History.le_refl h) t)) hhot
                hrolling
          exact ih horderly (fun p hfrom hto => hopen p hfrom (History.le_next hto t)) hbefore

theorem exists_opening {hot : Versioned HotDelta} (horderly : u.Orderly)
    (hhot : (s.book u.now).hot = some hot) (hrolling : hot.record.rollingBack = false) :
    ∃ q : History, ∃ t, q.next t ≤ u ∧ (s.book q.now).hot = none ∧
      hot.record.cnFrom = (s.book q.now).sequence.nextCn ∧
        ∀ p, q.next t ≤ p → p ≤ u → (s.book p.now).hot = some hot := by
  induction horderly with
  | start hfounded =>
      rw [History.now, Site.book_of_founded hfounded] at hhot
      cases hhot
  | @next h t horderly hchanges ih =>
      have hextend : (s.book h.now).hot = some hot →
          ∃ q : History, ∃ t', q.next t' ≤ h.next t ∧ (s.book q.now).hot = none ∧
            hot.record.cnFrom = (s.book q.now).sequence.nextCn ∧
              ∀ p, q.next t' ≤ p → p ≤ h.next t → (s.book p.now).hot = some hot := by
        intro hbefore
        obtain ⟨q, t', hle, hclosed, hfrom, hopen⟩ := ih hbefore
        refine ⟨q, t', History.le_next hle t, hclosed, hfrom, ?_⟩
        intro p hleft hright
        cases hright with
        | refl => exact hhot
        | next hright => exact hopen p hleft hright
      rcases hchanges.book s with hsame | ⟨m, hturns⟩
      · refine hextend ?_
        rw [← hsame]
        exact hhot
      · by_cases hclosed : (s.book h.now).hot = none
        · refine ⟨h, t, History.le_refl _, hclosed, hturns.moves.cnFrom_eq hclosed hhot, ?_⟩
          intro p hleft hright
          rw [History.eq_of_le_of_le hright hleft]
          exact hhot
        · exact hextend (hturns.moves.hot_eq hclosed hhot hrolling)

end History.Orderly

namespace Site

/-- A number was given out in the epoch that is open at a moment. -/
def GaveOut (s : Site) (u : History) (n : Int) : Prop :=
  ∃ v : History, ∃ t, v.next t ≤ u ∧ (s.book v.now).write n = none ∧ (s.book t).write n ≠ none ∧
    ∀ p, v ≤ p → p ≤ u → (s.book p.now).hot ≠ none

/-- Whenever no epoch was open from one moment to another, the next number was at
most a given one. -/
def Unbroken (s : Site) (j u : History) (cnFrom : Int) : Prop :=
  ∀ p, j ≤ p → p ≤ u → (s.book p.now).hot = none → (s.book p.now).sequence.nextCn ≤ cnFrom

theorem GaveOut.cnFrom_le {s : Site} {u : History} {hot : Versioned HotDelta} {n : Int}
    (hgave : s.GaveOut u n) (horderly : u.Orderly) (hhot : (s.book u.now).hot = some hot)
    (hrolling : hot.record.rollingBack = false) : hot.record.cnFrom ≤ n := by
  obtain ⟨v, t, hnext, hbefore, hafter, hopen⟩ := hgave
  have hto := History.le_of_next_le hnext
  have hhotV := horderly.hot_eq_of_open hto hopen hhot hrolling
  have hissued := (((horderly.of_le hto).valid s).current hot hhotV hrolling).2
  have hnumber := (horderly.of_registered hnext hbefore hafter).1
  omega

section Ranges

variable {s : Site} {j u : History} {view hot : Versioned HotDelta}
variable (horderly : u.Orderly) (hle : j ≤ u)
variable (hview : (s.book j.now).hot = some view) (hunmarked : view.record.rollingBack = false)
variable (hhot : (s.book u.now).hot = some hot) (hrolling : hot.record.rollingBack = false)

include horderly hle hview hunmarked hhot hrolling

theorem cnFrom_le : view.record.cnFrom ≤ hot.record.cnFrom := by
  have hstart := (horderly.leads hle s).start
  rw [Book.start_of_unmarked hview hunmarked, Book.start_of_unmarked hhot hrolling] at hstart
  exact hstart

/-- The epoch that was read and the one that is open start at the same number if no number
was given out in between. -/
theorem cnFrom_eq_iff :
    view.record.cnFrom = hot.record.cnFrom ↔ s.Unbroken j u view.record.cnFrom := by
  constructor
  · intro hsame p hfrom hto hclosed
    have hstart := (horderly.leads hto s).start
    rw [Book.start_of_closed hclosed, Book.start_of_unmarked hhot hrolling] at hstart
    rw [hsame]
    exact hstart
  · intro hunbroken
    obtain ⟨q, t, hnext, hclosed, hfrom, hopen⟩ := horderly.exists_opening hhot hrolling
    by_cases hbefore : q.next t ≤ j
    · -- The epoch was open already when it was read.
      have hboth := hopen j hbefore hle
      rw [hview] at hboth
      cases hboth
      rfl
    · have hq : j ≤ q := by
        rcases History.le_or_le hnext hle with hnot | hafter
        · exact absurd hnot hbefore
        · cases hafter with
          | refl => exact absurd (History.le_refl _) hbefore
          | next hafter => exact hafter
      have hbound := hunbroken q hq (History.le_of_next_le hnext) hclosed
      have hlow := cnFrom_le horderly hle hview hunmarked hhot hrolling
      omega

/-- All numbers of the range were given out in the epoch that is open exactly if it is the
one that was read, or starts at the same number. -/
theorem gaveOut_iff {counters : Versioned Counters} (date : DateTime)
    (hcounters : (s.book u.now).counters = some counters) :
    (∀ n, (counters.record.close view.record date).cnFrom ≤ n →
        n ≤ (counters.record.close view.record date).cnTo → s.GaveOut u n) ↔
      view.record.cnFrom = hot.record.cnFrom := by
  have hsequence := Book.sequence_of_counters hcounters
  have hlow := cnFrom_le horderly hle hview hunmarked hhot hrolling
  have hhigh := ((horderly.valid s).current hot hhot hrolling).2
  rw [hsequence] at hhigh
  constructor
  · intro hall
    refine Classical.byContradiction fun hne => ?_
    have hinside : view.record.cnFrom ≤ counters.record.nextCn - 1 := by omega
    have hgave := hall view.record.cnFrom (Int.le_refl _)
      (Int.le_trans hinside (Int.le_max_left _ _))
    have hfrom := hgave.cnFrom_le horderly hhot hrolling
    omega
  · intro hsame n hfrom hto
    change view.record.cnFrom ≤ n at hfrom
    change n ≤ max (counters.record.nextCn - 1) (view.record.cnFrom - 1) at hto
    have hbelow : n < (s.book u.now).sequence.nextCn := by
      rw [hsequence]
      omega
    obtain ⟨q, _, hopening, _, hstart, _⟩ := (horderly.of_le hle).exists_opening hview hunmarked
    have hq := (((horderly.of_le hle).of_le (History.le_of_next_le hopening)).valid s).nonneg.1
    have hnonneg : 0 ≤ n := by omega
    obtain ⟨v, t, hnext, hbefore, hafter⟩ := horderly.exists_registered hnonneg hbelow
    refine ⟨v, t, hnext, hbefore, hafter, ?_⟩
    intro p hleft hright hclosed
    obtain ⟨_, hnextCn, hotV, hhotV, _⟩ := horderly.of_registered hnext hbefore hafter
    have hne : p ≠ v := by
      rintro rfl
      rw [hclosed] at hhotV
      cases hhotV
    have hlater := History.next_le_of_ne hleft hne hnext hright
    have hgrown := ((horderly.of_le hright).leads hlater s).nextCn
    have hstarts := (horderly.leads hright s).start
    rw [Book.start_of_closed hclosed, Book.start_of_unmarked hhot hrolling] at hstarts
    change (s.book t).sequence.nextCn ≤ _ at hgrown
    omega

end Ranges

end Site

open Cluster

variable {ι : Type} [DecidableEq ι]

theorem Call.Proper.of_new_ok {sites : Site → Prop} {trail : Trail} {c : Call} {h : History}
    {s : Site} {n : Int} {ok : Versioned OkDelta} (hproper : c.Proper sites trail h)
    (hbefore : (s.book h.now).ok n = none)
    (hafter : (s.book (h.now.answer c).2).ok n = some ok) :
    ∃ view date j hot counters, trail.lastRead (s.path .hot).text = some j ∧
      (s.book j.now).hot = some view ∧ view.record.rollingBack = false ∧
        (s.book h.now).hot = some hot ∧ hot.record.rollingBack = false ∧
          (s.book h.now).counters = some counters ∧
            ok.record = counters.record.close view.record date := by
  rcases hproper with hsame | ⟨s', m, _, hturns, hseen⟩
  · rw [hsame, hbefore] at hafter
    cases hafter
  · by_cases hsite : s = s'
    · subst hsite
      obtain ⟨view, date, hot, counters, rfl, hhot, hrolling, hcounters, hok⟩ :=
        hturns.moves.of_new_ok hbefore hafter
      obtain ⟨hunmarked, j, version, hlast, hview⟩ := hseen
      exact ⟨⟨view, version⟩, date, j, hot, counters, hlast, hview, hunmarked, hhot, hrolling,
        hcounters, hok⟩
    · have hbook := Site.book_congr fun p howns => hturns.other hsite howns
      rw [← hbook, hbefore] at hafter
      cases hafter

/-- A commit that a request of a cluster makes: its ok delta starts where the epoch that
it ends has started, and covers nothing but numbers of this epoch, exactly if no number
beyond its start was given out before another epoch was opened since the request last
read the hot delta. -/
theorem committed_range_iff {time : DateTime} {roots : List (Name × String)}
    {actions : List (Action ι)} {i : ι} {now : DateTime} {s : Site} {n : Int} {ok : OkDelta}
    (hbefore : (s.book (run time roots actions).history.now).ok n = none)
    (hafter : ((s.book ((run time roots actions).act (.proceed i now)).history.now).ok n).map
      Versioned.record = some ok) :
    ∃ task j hot, (run time roots actions).task? i = some task ∧
      task.trail.lastRead (s.path .hot).text = some j ∧
      (s.book (run time roots actions).history.now).hot = some hot ∧
      (ok.cnFrom = hot.record.cnFrom ↔
        s.Unbroken j (run time roots actions).history ok.cnFrom) ∧
      ((∀ m, ok.cnFrom ≤ m → m ≤ ok.cnTo → s.GaveOut (run time roots actions).history m) ↔
        s.Unbroken j (run time roots actions).history ok.cnFrom) := by
  have hsound := sound_run time roots actions
  generalize run time roots actions = k at hbefore hafter hsound ⊢
  have hchanged : (k.act (.proceed i now)).history ≠ k.history := by
    intro hsame
    rw [hsame, hbefore] at hafter
    cases hafter
  obtain ⟨task, c, next, hi, hrest, hhistory⟩ := history_act hchanged
  rw [hhistory] at hafter
  obtain ⟨hsafe, hprecedes⟩ := hsound.tasks i task hi
  rw [hrest] at hsafe
  obtain ⟨hproper, _⟩ := hsafe k.history hsound.orderly hprecedes
  obtain ⟨found, hfound, rfl⟩ := Option.map_eq_some_iff.mp hafter
  obtain ⟨view, date, j, hot, counters, hlast, hview, hunmarked, hhot, hrolling, hcounters, hok⟩ :=
    hproper.of_new_ok hbefore hfound
  have hle : j ≤ k.history := hprecedes.le (Trail.mem_of_lastRead hlast)
  have hstarts := Site.cnFrom_eq_iff hsound.orderly hle hview hunmarked hhot hrolling
  have hcovers := Site.gaveOut_iff hsound.orderly hle hview hunmarked hhot hrolling date
    hcounters
  refine ⟨task, j, hot, hi, hlast, hhot, ?_⟩
  rw [hok]
  exact ⟨hstarts, hcovers.trans hstarts⟩

section Samples

/-- A number is registered and its write finished.  A commit has read all it needs. -/
def untouchedEpoch : List (Action Nat) :=
  Sample.alone 0 .openDelta ++ Sample.alone 1 (.registerWrite ⟨"a", "a_ext", "q"⟩) ++
    Sample.alone 2 (.succeedWrite 0) ++ [Sample.begins 3 (.commitDelta (some Sample.time))] ++
      Sample.proceeds 3 6

theorem committed_range_of_untouched_epoch :
    ((Sample.site.book (run Sample.time Sample.roots untouchedEpoch).history.now).ok 0 = none ∧
      ((Sample.site.book ((run Sample.time Sample.roots untouchedEpoch).act
        (.proceed 3 Sample.time)).history.now).ok 0).map Versioned.record =
          some ⟨0, Sample.time, 0, 0⟩) ∧
      ∃ task j hot, (run Sample.time Sample.roots untouchedEpoch).task? 3 = some task ∧
        task.trail.lastRead (Sample.site.path .hot).text = some j ∧
        (Sample.site.book (run Sample.time Sample.roots untouchedEpoch).history.now).hot =
          some hot ∧
        (0 = hot.record.cnFrom ↔
          Sample.site.Unbroken j (run Sample.time Sample.roots untouchedEpoch).history 0) ∧
        ((∀ m, 0 ≤ m → m ≤ 0 →
            Sample.site.GaveOut (run Sample.time Sample.roots untouchedEpoch).history m) ↔
          Sample.site.Unbroken j (run Sample.time Sample.roots untouchedEpoch).history 0) := by
  have hfacts : (Sample.site.book
      (run Sample.time Sample.roots untouchedEpoch).history.now).ok 0 = none ∧
      ((Sample.site.book ((run Sample.time Sample.roots untouchedEpoch).act
        (.proceed 3 Sample.time)).history.now).ok 0).map Versioned.record =
          some ⟨0, Sample.time, 0, 0⟩ := by decide +kernel
  exact ⟨hfacts, committed_range_iff hfacts.1 hfacts.2⟩

/-- A number is registered.  A commit reads the hot delta; then the epoch is discarded,
another one is opened, and the commit reads the rest. -/
def swappedEpochs : List (Action Nat) :=
  Sample.alone 0 .openDelta ++ Sample.alone 1 (.registerWrite ⟨"a", "a_ext", "q"⟩) ++
    [Sample.begins 2 (.commitDelta (some Sample.time))] ++ Sample.proceeds 2 3 ++
      Sample.alone 3 .discardDelta ++ Sample.alone 4 .openDelta ++ Sample.proceeds 2 2

/-- The number of the discarded epoch is committed with the other one. -/
theorem discarded_number_is_committed :
    (Sample.site.book (run Sample.time Sample.roots swappedEpochs).history.now).ok 0 = none ∧
      ((Sample.site.book ((run Sample.time Sample.roots swappedEpochs).act
        (.proceed 2 Sample.time)).history.now).ok 0).map Versioned.record =
          some ⟨0, Sample.time, 0, 0⟩ ∧
      ¬Sample.site.GaveOut (run Sample.time Sample.roots swappedEpochs).history 0 := by
  have hfacts : (Sample.site.book
      (run Sample.time Sample.roots swappedEpochs).history.now).ok 0 = none ∧
      ((Sample.site.book ((run Sample.time Sample.roots swappedEpochs).act
        (.proceed 2 Sample.time)).history.now).ok 0).map Versioned.record =
          some ⟨0, Sample.time, 0, 0⟩ ∧
      (Sample.site.book (run Sample.time Sample.roots swappedEpochs).history.now).hot.map
        (fun hot => (hot.record.cnFrom, hot.record.rollingBack)) = some (1, false) := by
    decide +kernel
  obtain ⟨hbefore, hafter, hopen⟩ := hfacts
  refine ⟨hbefore, hafter, ?_⟩
  intro hgave
  obtain ⟨hot, hhot, hvalues⟩ := Option.map_eq_some_iff.mp hopen
  have hfrom : hot.record.cnFrom = 1 := congrArg Prod.fst hvalues
  have hrolling : hot.record.rollingBack = false := congrArg Prod.snd hvalues
  have hsound := sound_run Sample.time Sample.roots swappedEpochs
  have hlow := hgave.cnFrom_le hsound.orderly hhot hrolling
  omega

end Samples

end DeltaLedger
