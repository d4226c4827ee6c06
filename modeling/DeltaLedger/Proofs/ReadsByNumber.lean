import DeltaLedger.Proofs.CommittedRanges
import DeltaLedger.Proofs.SnapshotReads

/-!
# Reads by number

The ok delta of a number and the open epoch are looked up by two calls, the ok delta first.
An epoch that is committed between the two was not yet an ok delta at the first and is not
open at the second.  Its number is told as missing, though it was there at every moment.
Every other answer is right at some moment of the calls.
-/

namespace DeltaLedger

open Program

/-! ## Numbers that are there -/

namespace Book

/-- A number is that of an ok delta or of the open epoch. -/
def Holds (b : Book) (n : Int) : Prop :=
  (b.ok n).isSome = true ∨ b.hot.map (fun hot => hot.record.deltaNum) = some n

instance (b : Book) (n : Int) : Decidable (b.Holds n) :=
  inferInstanceAs (Decidable (_ ∨ _))

variable {b b' : Book} {m : Move} {n : Int}

theorem readByNumber_of_ok {datamart : String} {ok : Versioned OkDelta} (hok : b.ok n = some ok) :
    b.readByNumber datamart n = .ok ok.record := by
  rw [readByNumber, hok]

theorem readByNumber_of_hot {datamart : String} {hot : Versioned HotDelta} (hnone : b.ok n = none)
    (hhot : b.hot = some hot) (hnum : hot.record.deltaNum = n) :
    b.readByNumber datamart n = .error (.stillHot datamart n) := by
  rw [readByNumber, hnone, hhot]
  exact if_pos hnum

theorem readByNumber_eq_missing_iff {datamart : String} :
    b.readByNumber datamart n = .error (.noOkDelta datamart n) ↔ ¬b.Holds n := by
  unfold readByNumber Holds
  cases b.ok n with
  | some ok => simp
  | none =>
      cases b.hot with
      | none => simp
      | some hot =>
          by_cases hnum : hot.record.deltaNum = n
          · simp [hnum, Failure.stillHot, Failure.noOkDelta]
          · simp [hnum]

/-- An ok delta that appears was the open epoch. -/
theorem Moves.hot_of_new_ok (hmoves : b.Moves m b') (hvalid : b.Valid) (hbefore : b.ok n = none)
    (hafter : b'.ok n ≠ none) : ∃ hot, b.hot = some hot ∧ hot.record.deltaNum = n := by
  obtain ⟨ok, hok⟩ := Option.ne_none_iff_exists'.mp hafter
  obtain ⟨view, date, hot, _, rfl, hhot, hrolling, _⟩ := hmoves.of_new_ok hbefore hok
  refine ⟨hot, hhot, ?_⟩
  rcases hmoves.ok_cases hvalid hok with ⟨rfl, _⟩ | ⟨_, hold⟩
  · rw [hmoves.deltaNum_eq]
    exact (hvalid.current hot hhot hrolling).1
  · rw [hbefore] at hold
    cases hold

end Book

/-- The epoch of a number is committed by the step after a moment. -/
structure Site.Closes (s : Site) (n : Int) (u : History) (t : Tree) : Prop where
  before : (s.book u.now).ok n = none
  hot : ∃ hot, (s.book u.now).hot = some hot ∧ hot.record.deltaNum = n
  after : (s.book t).ok n ≠ none

/-- Between two moments, at the second of which there is a new ok delta, its epoch is
committed. -/
theorem History.Orderly.exists_closes {s : Site} {n : Int} {h h' : History}
    (horderly : h'.Orderly) (hle : h ≤ h') (hbefore : (s.book h.now).ok n = none)
    (hafter : (s.book h'.now).ok n ≠ none) :
    ∃ u t, h ≤ u ∧ u.next t ≤ h' ∧ s.Closes n u t := by
  induction hle with
  | refl => exact absurd hbefore hafter
  | @next v t hle ih =>
      cases horderly with
      | next horderly hchanges =>
          by_cases hthere : (s.book v.now).ok n = none
          · refine ⟨v, t, hle, History.le_refl _, hthere, ?_, hafter⟩
            rcases hchanges.book s with hsame | ⟨m, hturns⟩
            · rw [History.now, hsame] at hafter
              exact absurd hthere hafter
            · exact hturns.moves.hot_of_new_ok (horderly.valid s) hthere hafter
          · obtain ⟨u, t', hfrom, hto, hcloses⟩ := ih horderly hthere
            exact ⟨u, t', hfrom, History.le_next hto t, hcloses⟩

/-! ## The question -/

/-- A number is told as missing though it was there at every moment of the calls: its epoch
was committed between the two calls that looked for it. -/
structure Overlooked (r : Request) (s : Site) (n : Int) (trail : Trail)
    (result : Except Failure Response) : Prop where
  missing : result = .error (.noOkDelta r.datamart n)
  holds : ∀ u, trail.Spans u → (s.book u.now).Holds n
  closes : ∃ first u t last, .answered (.read (s.path (.ok n)).text) first ∈ trail ∧
    first ≤ u ∧ s.Closes n u t ∧ u.next t ≤ last ∧
      .answered (.read (s.path .hot).text) last ∈ trail

section Reading

variable {c : Coordinator} {r : Request} {s : Site} {trail : Trail} {sites : Site → Prop} {n : Int}

theorem Asked.answered_byNumber {u h : History} {call : Call}
    (hasked : Asked c r s ((scopeAt c r s).readByNumber n) .okDelta) (hbegun : trail.Begun s)
    (hspans : Trail.Spans (.answered call h :: trail) u) (horderly : h.Orderly)
    (hprecedes : trail.Precedes h) :
    Answered c r (.answered call h :: trail)
      (((s.book u.now).readByNumber r.datamart n).map .okDelta) := by
  have hle : u ≤ h := by
    obtain ⟨_, call', last, hmem, hle⟩ := hspans
    rcases List.mem_cons.mp hmem with hhead | htail
    · cases hhead
      exact hle
    · exact History.le_trans hle (hprecedes.le htail)
  have hroot : u.now.has s.root = true := by
    rw [← horderly.has_root hle s]
    exact hbegun.has_root horderly hprecedes
  have hmoment := horderly.of_le hle
  exact hasked.answered hspans hroot fun _ =>
    runAlone_readByNumber rfl (hmoment.kept s) (hmoment.valid s) n

/-- The number is negative, or there was no ok delta when it was looked for. -/
def Unfound (s : Site) (n : Int) (trail : Trail) : Prop :=
  0 ≤ n → ∃ first, .answered (.read (s.path (.ok n)).text) first ∈ trail ∧
    (s.book first.now).ok n = none

theorem Unfound.exists_closes {h : History} (hunfound : Unfound s n trail) (horderly : h.Orderly)
    (hprecedes : trail.Precedes h) (hthere : (s.book h.now).ok n ≠ none) :
    ∃ first u t, .answered (.read (s.path (.ok n)).text) first ∈ trail ∧ first ≤ u ∧
      s.Closes n u t ∧ u.next t ≤ h := by
  have hlow : 0 ≤ n := by
    by_contra hnegative
    exact hthere ((horderly.valid s).ok_of_negative hnegative)
  obtain ⟨first, hmem, hnone⟩ := hunfound hlow
  obtain ⟨u, t, hfrom, hto, hcloses⟩ := horderly.exists_closes (hprecedes.le hmem) hnone hthere
  exact ⟨first, u, t, hmem, hfrom, hcloses, hto⟩

section Second

variable {h : History} (hasked : Asked c r s ((scopeAt c r s).readByNumber n) .okDelta)
  (hbegun : trail.Begun s) (hunfound : Unfound s n trail) (horderly : h.Orderly)
  (hprecedes : trail.Precedes h)

include hasked hbegun hunfound horderly hprecedes

theorem answered_stillHot {hot : Versioned HotDelta} (hhot : (s.book h.now).hot = some hot)
    (hnum : hot.record.deltaNum = n) :
    Answered c r (.answered (.read (s.path .hot).text) h :: trail)
      (.error (.stillHot r.datamart n)) := by
  by_cases hthere : (s.book h.now).ok n = none
  · have hspans : Trail.Spans (.answered (.read (s.path .hot).text) h :: trail) h :=
      Trail.spans_of_mem List.mem_cons_self
    have hanswered := hasked.answered_byNumber hbegun hspans horderly hprecedes
    rw [Book.readByNumber_of_hot hthere hhot hnum] at hanswered
    exact hanswered
  · -- A late mark has brought the epoch back after its commit.  It was open until the commit,
    -- which came after the first call.
    obtain ⟨first, u, t, hmem, hfrom, hcloses, hto⟩ :=
      hunfound.exists_closes horderly hprecedes hthere
    obtain ⟨open', hopen, hnum'⟩ := hcloses.hot
    have hspans : Trail.Spans (.answered (.read (s.path .hot).text) h :: trail) u :=
      ⟨⟨_, first, List.mem_cons_of_mem _ hmem, hfrom⟩,
        ⟨_, h, List.mem_cons_self, History.le_of_next_le hto⟩⟩
    have hanswered := hasked.answered_byNumber hbegun hspans horderly hprecedes
    rw [Book.readByNumber_of_hot hcloses.before hopen hnum'] at hanswered
    exact hanswered

theorem answered_missing
    (hother : (s.book h.now).hot.map (fun hot => hot.record.deltaNum) ≠ some n) :
    Answered c r (.answered (.read (s.path .hot).text) h :: trail)
        (.error (.noOkDelta r.datamart n)) ∨
      Overlooked r s n (.answered (.read (s.path .hot).text) h :: trail)
        (.error (.noOkDelta r.datamart n)) := by
  by_cases hmissing : ∃ u, Trail.Spans (.answered (.read (s.path .hot).text) h :: trail) u ∧
      ¬(s.book u.now).Holds n
  · obtain ⟨u, hspans, hnot⟩ := hmissing
    have hanswered := hasked.answered_byNumber hbegun hspans horderly hprecedes
    rw [Book.readByNumber_eq_missing_iff.mpr hnot] at hanswered
    exact .inl hanswered
  · have hholds : ∀ u, Trail.Spans (.answered (.read (s.path .hot).text) h :: trail) u →
        (s.book u.now).Holds n := by
      intro u hspans
      by_contra hnot
      exact hmissing ⟨u, hspans, hnot⟩
    -- At the second call the number is there, but not where it is looked for.
    have hthere : (s.book h.now).ok n ≠ none := by
      rcases hholds h (Trail.spans_of_mem List.mem_cons_self) with hok | hhot
      · exact Option.isSome_iff_ne_none.mp hok
      · exact absurd hhot hother
    obtain ⟨first, u, t, hmem, hfrom, hcloses, hto⟩ :=
      hunfound.exists_closes horderly hprecedes hthere
    exact .inr ⟨rfl, hholds, first, u, t, h, List.mem_cons_of_mem _ hmem, hfrom, hcloses, hto,
      List.mem_cons_self⟩

end Second

/-- What the first call leads to: the answer, or the question for the open epoch. -/
inductive Looked (c : Coordinator) (r : Request) (s : Site) (n : Int) (trail : Trail) :
    Except Failure (Option (Versioned OkDelta)) → Prop where
  | found {ok : Versioned OkDelta} (hanswered : Answered c r trail (.ok (.okDelta ok.record))) :
      Looked c r s n trail (.ok (some ok))
  | missing (hbegun : trail.Begun s) (hunfound : Unfound s n trail) : Looked c r s n trail (.ok none)

theorem safe_committed? (hasked : Asked c r s ((scopeAt c r s).readByNumber n) .okDelta)
    (hbegun : trail.Begun s) :
    ((scopeAt c r s).committed? n).Safe sites (Looked c r s n) trail := by
  unfold Scope.committed?
  split
  next hlow =>
    rw [scopeAt_layout, Site.layout_okDelta,
      ← bind_pure (Scope.read OkDelta (s.path (.ok n)).text)]
    apply Safe.read (Site.suits_ok n)
    intro h horderly hprecedes
    have hread : h.now.record? OkDelta (s.path (.ok n)) = (s.book h.now).ok n := rfl
    rw [hread]
    cases hok : (s.book h.now).ok n with
    | some ok =>
        have hspans : Trail.Spans (.answered (.read (s.path (.ok n)).text) h :: trail) h :=
          Trail.spans_of_mem List.mem_cons_self
        have hanswered := hasked.answered_byNumber hbegun hspans horderly hprecedes
        rw [Book.readByNumber_of_ok hok] at hanswered
        exact Looked.found hanswered
    | none => exact Looked.missing hbegun.read fun _ => ⟨h, List.mem_cons_self, hok⟩
  next hnegative =>
    exact Looked.missing hbegun fun hlow => absurd hlow hnegative

theorem safe_readByNumber (hasked : Asked c r s ((scopeAt c r s).readByNumber n) .okDelta)
    (hbegun : trail.Begun s) :
    ((scopeAt c r s).readByNumber n).Safe sites
      (fun trail result => Answered c r trail (result.map .okDelta) ∨
        Overlooked r s n trail (result.map .okDelta)) trail := by
  unfold Scope.readByNumber
  apply (safe_committed? hasked hbegun).bind
  · intro trail found hlooked
    cases hlooked with
    | found hanswered => exact .inl hanswered
    | missing hbegun hunfound =>
        dsimp only
        rw [scopeAt_layout, Site.layout_hot]
        apply Safe.read Site.suits_hot
        intro h horderly hprecedes
        have hread : h.now.record? HotDelta (s.path .hot) = (s.book h.now).hot := rfl
        rw [hread]
        cases hhot : (s.book h.now).hot with
        | none =>
            apply answered_missing hasked hbegun hunfound horderly hprecedes
            rw [hhot]
            nofun
        | some hot =>
            dsimp only
            by_cases hnum : hot.record.deltaNum = n
            · rw [if_pos hnum]
              exact .inl (answered_stillHot hasked hbegun hunfound horderly hprecedes hhot hnum)
            · rw [if_neg hnum]
              apply answered_missing hasked hbegun hunfound horderly hprecedes
              rw [hhot]
              exact fun hsame => hnum (Option.some.inj hsame)
  · intro trail e hlooked
    cases hlooked

end Reading

theorem answered_or_overlooked_serve (c : Coordinator) (r : Request) :
    (c.serve r).Safe (c.Serves r.datamart)
      (fun trail result => ∀ n, r.command = .readByNumber n → Answered c r trail result ∨
        ∃ s, c.Serves r.datamart s ∧ Overlooked r s n trail result) [] := by
  obtain ⟨datamart, command⟩ := r
  cases command with
  | readByNumber n =>
      apply safe_serve_of_asked (fun _ => rfl)
      · exact fun _ _ hanswered _ _ => .inl hanswered
      · intro s trail hasked hbegun
        apply (safe_readByNumber hasked hbegun).mono
        intro trail result htold m hcommand
        cases hcommand
        rcases htold with hanswered | hoverlooked
        · exact .inl hanswered
        · exact .inr ⟨s, hasked.serves, hoverlooked⟩
  | _ => exact (safe_serve c _).mono fun _ _ _ _ hcommand => nomatch hcommand

namespace Cluster

variable {ι : Type} [DecidableEq ι] {time : DateTime} {roots : List (Name × String)}
variable {actions : List (Action ι)} {i : ι} {task : Task} {s : Site} {n : Int}
variable {result : Except Failure Response}

theorem not_answered_of_holds {ok : Versioned OkDelta}
    (hi : (run time roots actions).task? i = some task)
    (hcommand : task.request.command = .readByNumber n) (hserves : task.Sites s)
    (hholds : ∀ u, task.trail.Spans u → (s.book u.now).Holds n)
    (hok : (s.book (run time roots actions).history.now).ok n = some ok) :
    ¬Answered task.coordinator task.request task.trail
      (.error (.noOkDelta task.request.datamart n)) := by
  have hsound := sound_run time roots actions
  have hroot := has_root_of_ok (History.le_refl _) hok
  have hasked : Asked task.coordinator task.request s
      ((scopeAt task.coordinator task.request s).readByNumber n) .okDelta :=
    .of_command hserves hcommand rfl rfl
  have htold : ∀ u, u ≤ (run time roots actions).history → (s.book u.now).Holds n →
      (task.coordinator.serve task.request).runAlone time u.now ≠
        (.error (.noOkDelta task.request.datamart n), u.now) := by
    intro u hle hpresent halone
    have horderly := hsound.orderly.of_le hle
    have hmissing := hasked.eq_told (by rw [← hsound.orderly.has_root hle s, hroot])
      (runAlone_readByNumber rfl (horderly.kept s) (horderly.valid s) n) halone
    rw [scopeAt_datamart] at hmissing
    cases htelling : (s.book u.now).readByNumber task.request.datamart n with
    | ok found =>
        rw [htelling] at hmissing
        cases hmissing
    | error e =>
        rw [htelling] at hmissing
        cases hmissing
        exact Book.readByNumber_eq_missing_iff.mp htelling hpresent
  intro hanswered
  cases hanswered with
  | unaided _ halone =>
      apply htold _ (History.le_refl _) (.inl (by rw [hok]; rfl))
      exact halone time _
  | within hspans halone =>
      have hle := hspans.le (hsound.tasks i task hi).precedes
      exact htold _ hle (hholds _ hspans) (halone time)

theorem not_answered_of_overlooked (hi : (run time roots actions).task? i = some task)
    (hcommand : task.request.command = .readByNumber n) (hserves : task.Sites s)
    (hoverlooked : Overlooked task.request s n task.trail result) :
    ¬Answered task.coordinator task.request task.trail result := by
  obtain ⟨rfl, hholds, _, _, _, _, _, _, hcloses, hto, hmem⟩ := hoverlooked
  have hsound := sound_run time roots actions
  have hle := History.le_trans hto ((hsound.tasks i task hi).precedes.le hmem)
  obtain ⟨ok, hok⟩ := Option.ne_none_iff_exists'.mp hcloses.after
  exact not_answered_of_holds hi hcommand hserves hholds
    ((hsound.orderly.leads hle s).ok n ok hok)

end Cluster

open Cluster

/-- A finished question for an ok delta by its number is answered as at one moment of its
calls, unless the epoch of the number was committed between its two reads and the number was
there all the time: then it is told to be missing. -/
theorem readByNumber_not_answered_iff {ι : Type} [DecidableEq ι] {time : DateTime}
    {roots : List (Name × String)} {actions : List (Action ι)} {i : ι}
    {result : Except Failure Response}
    (hresult : (run time roots actions).result? i = some result) :
    ∃ task, (run time roots actions).task? i = some task ∧
      ∀ n, task.request.command = .readByNumber n →
        (¬Answered task.coordinator task.request task.trail result ↔
          ∃ s, task.Sites s ∧ Overlooked task.request s n task.trail result) := by
  obtain ⟨task, hi, htask⟩ := Option.bind_eq_some_iff.mp hresult
  refine ⟨task, hi, ?_⟩
  intro n hcommand
  constructor
  · intro hwrong
    rcases post_of_result answered_or_overlooked_serve hi htask n hcommand with
      hanswered | hoverlooked
    · exact absurd hanswered hwrong
    · exact hoverlooked
  · rintro ⟨s, hserves, hoverlooked⟩
    exact not_answered_of_overlooked hi hcommand hserves hoverlooked

section Samples

/-- An epoch is open. -/
def openEpoch : List (Action Nat) :=
  Sample.alone 0 .openDelta

theorem readByNumber_not_answered_iff_openEpoch :
    (run Sample.time Sample.roots (openEpoch ++ Sample.alone 1 (.readByNumber 0))).result? 1 =
        some (.error (.stillHot "dtm" 0)) ∧
      ∃ task, (run Sample.time Sample.roots
          (openEpoch ++ Sample.alone 1 (.readByNumber 0))).task? 1 = some task ∧
        Answered task.coordinator task.request task.trail (.error (.stillHot "dtm" 0)) := by
  have hrun : (run Sample.time Sample.roots
        (openEpoch ++ Sample.alone 1 (.readByNumber 0))).result? 1 =
          some (.error (.stillHot "dtm" 0)) ∧
      ((run Sample.time Sample.roots (openEpoch ++ Sample.alone 1 (.readByNumber 0))).task? 1).any
        (fun task => decide (task.request.command = .readByNumber 0)) = true := by decide +kernel
  obtain ⟨hresult, hcommand⟩ := hrun
  obtain ⟨task, hi, hiff⟩ := readByNumber_not_answered_iff hresult
  rw [hi, Option.any_some, decide_eq_true_eq] at hcommand
  refine ⟨hresult, task, hi, ?_⟩
  by_contra hwrong
  obtain ⟨s, _, hoverlooked⟩ := (hiff 0 hcommand).mp hwrong
  cases hoverlooked.missing

/-- All moments up to the present one. -/
def History.moments : History → List History
  | start t => [start t]
  | next h t => next h t :: h.moments

theorem History.mem_moments_iff {u h : History} : u ∈ h.moments ↔ u ≤ h := by
  induction h with
  | start t =>
      rw [moments, List.mem_singleton]
      constructor
      · rintro rfl
        exact le_refl _
      · intro hle
        cases hle
        rfl
  | next h t ih =>
      rw [moments, List.mem_cons, ih]
      constructor
      · rintro (rfl | hle)
        · exact le_refl _
        · exact le_next hle t
      · intro hle
        cases hle with
        | refl => exact .inl rfl
        | next hle => exact .inr hle

/-- A question for the number of the open epoch looks for its ok delta; then the epoch is
committed, and the question looks for the open epoch. -/
def commitBetweenReads : List (Action Nat) :=
  [Sample.begins 1 (.readByNumber 0)] ++ Sample.proceeds 1 3 ++
    Sample.alone 2 (.commitDelta (some Sample.time)) ++ Sample.proceeds 1 5

/-- The number is told as missing, though it was there at every moment. -/
theorem committed_number_told_missing :
    ∃ task, (run Sample.time Sample.roots (openEpoch ++ commitBetweenReads)).task? 1 = some task ∧
      task.request = ⟨"dtm", .readByNumber 0⟩ ∧
      task.result? = some (.error (.noOkDelta "dtm" 0)) ∧
      (∀ u, task.trail.Spans u → (Sample.site.book u.now).Holds 0) ∧
      ¬Answered task.coordinator task.request task.trail (.error (.noOkDelta "dtm" 0)) := by
  have hrun : ((run Sample.time Sample.roots openEpoch).task? 1).isNone = true ∧
      ((run Sample.time Sample.roots (openEpoch ++ commitBetweenReads)).task? 1).any
        (fun task => decide (task.coordinator = Sample.coordinator ∧
          task.request = ⟨"dtm", .readByNumber 0⟩ ∧
          task.result? = some (.error (.noOkDelta "dtm" 0)))) = true ∧
      ((Sample.site.book (run Sample.time Sample.roots
        (openEpoch ++ commitBetweenReads)).history.now).ok 0).isSome = true ∧
      ∀ u ∈ (run Sample.time Sample.roots (openEpoch ++ commitBetweenReads)).history.moments,
        (run Sample.time Sample.roots openEpoch).history.length ≤ u.length →
          (Sample.site.book u.now).Holds 0 := by decide +kernel
  obtain ⟨hnone, hmissing, hcommitted, hmoments⟩ := hrun
  obtain ⟨task, hi, htask⟩ := (Option.any_eq_true _ _).mp hmissing
  rw [decide_eq_true_eq] at htask
  obtain ⟨hcoordinator, hrequest, htask⟩ := htask
  have hsound := sound_run Sample.time Sample.roots (openEpoch ++ commitBetweenReads)
  have hsince := since_run (Option.isNone_iff_eq_none.mp hnone) hi
  have hholds : ∀ u, task.trail.Spans u → (Sample.site.book u.now).Holds 0 := by
    intro u hspans
    apply hmoments u
    · exact History.mem_moments_iff.mpr (hspans.le (hsound.tasks 1 task hi).precedes)
    · exact History.length_le (hspans.le_of_since hsince)
  have hserves : task.Sites Sample.site := by
    rw [Task.Sites, hcoordinator, hrequest]
    exact Sample.serves_site
  obtain ⟨ok, hok⟩ := Option.isSome_iff_exists.mp hcommitted
  have hwrong := not_answered_of_holds hi (by rw [hrequest]) hserves hholds hok
  rw [hrequest] at hwrong
  refine ⟨task, hi, hrequest, htask, hholds, ?_⟩
  rw [hrequest]
  exact hwrong

end Samples

end DeltaLedger
