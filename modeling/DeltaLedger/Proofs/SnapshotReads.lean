import DeltaLedger.Proofs.PointInTime

/-!
# Reads from one moment

The open epoch, the last ok delta and the ok delta of a date are each told as they were at
one moment, though all but the first take several calls.  The moment is that of the call
which the others follow from: the counters name the last ok delta, and a list names all of
them.  An ok delta that was there then is there, and the same, when it is read.

So an ok delta that was there before the first call is seen by all of them.
-/

namespace DeltaLedger

open Program

/-- The questions that are answered from one moment. -/
def Command.Snapshots : Command → Prop
  | .readHot | .readLatest | .readAsOf _ => True
  | _ => False

section Reading

variable {c : Coordinator} {r : Request} {s : Site} {trail : Trail} {sites : Site → Prop}

theorem safe_readHot (hasked : Asked c r s (scopeAt c r s).readHot .hotDelta)
    (hbegun : trail.Begun s) :
    (scopeAt c r s).readHot.Safe sites
      (fun trail result => Answered c r trail (result.map .hotDelta)) trail := by
  have htold : ∀ h, h.Orderly → trail.Precedes h →
      Answered c r (.answered (.read (s.path .hot).text) h :: trail)
        (((s.book h.now).readHot r.datamart).map .hotDelta) := by
    intro h horderly hprecedes
    exact hasked.answered (Trail.spans_of_mem List.mem_cons_self)
      (hbegun.has_root horderly hprecedes) fun time => runAlone_readHot rfl (horderly.kept s)
  unfold Scope.readHot
  apply Safe.hot (s := s) rfl
  · intro h horderly hprecedes hnone
    have hanswered := htold h horderly hprecedes
    rw [Book.readHot, hnone] at hanswered
    exact hanswered
  · intro h hot horderly hprecedes hhot
    have hanswered := htold h horderly hprecedes
    rw [Book.readHot, hhot] at hanswered
    exact hanswered

theorem safe_readLatest (hasked : Asked c r s (scopeAt c r s).readLatest .okDelta)
    (hbegun : trail.Begun s) :
    (scopeAt c r s).readLatest.Safe sites
      (fun trail result => Answered c r trail (result.map .okDelta)) trail := by
  unfold Scope.readLatest
  rw [scopeAt_layout, Site.layout_counters]
  apply Safe.read Site.suits_counters
  intro h horderly hprecedes
  have hvalid := horderly.valid s
  have htold : ∀ trail', .answered (.read (s.path .counters).text) h ∈ trail' →
      Answered c r trail' (((s.book h.now).readLatest r.datamart).map .okDelta) := by
    intro trail' hmem
    exact hasked.answered (Trail.spans_of_mem hmem) (hbegun.has_root horderly hprecedes)
      fun time => runAlone_readLatest rfl (horderly.kept s) hvalid
  have hnumber : ((h.now.record? Counters (s.path .counters)).bind fun counters =>
      counters.record.lastDeltaNum) = (s.book h.now).sequence.lastDeltaNum :=
    (Book.lastDeltaNum_sequence (s.book h.now)).symm
  rw [hnumber]
  unfold Book.readLatest at htold
  cases hlast : (s.book h.now).sequence.lastDeltaNum with
  | none =>
      rw [hlast] at htold
      exact htold _ List.mem_cons_self
  | some n =>
      -- The ok delta that the counters name is there with them, and is the same when it is read.
      obtain ⟨ok, hok⟩ := hvalid.exists_last hlast
      rw [hlast, Option.bind_some, hok] at htold
      dsimp only
      rw [Site.layout_okDelta]
      apply Safe.require (Site.suits_ok n)
      · intro h' horderly' hprecedes' hnone
        have hstays := (horderly'.leads hprecedes'.head s).ok n ok hok
        cases hnone.symm.trans hstays
      · intro h' found horderly' hprecedes' hfound
        have hstays := (horderly'.leads hprecedes'.head s).ok n ok hok
        cases hfound.symm.trans hstays
        exact htold _ (List.mem_cons_of_mem _ List.mem_cons_self)

/-- A search through ok deltas that were there at a moment finds what it would have found
then. -/
theorem Safe.firstBy {scope : Scope} {post : Trail → Except Failure OkDelta → Prop}
    {call : Call} {first : History} {asOf : DateTime} {ns : List Int}
    (hlayout : scope.layout = s.layout) (hmem : .answered call first ∈ trail)
    (hns : ∀ n ∈ ns, ∃ ok, (s.book first.now).ok n = some ok)
    (hpost : ∀ seen, post (seen ++ trail)
      (Book.firstBy scope.datamart (ns.filterMap (s.book first.now).ok) asOf)) :
    (scope.firstBy asOf ns).Safe sites post trail := by
  induction ns generalizing trail with
  | nil => exact hpost []
  | cons n ns ih =>
      obtain ⟨ok, hok⟩ := hns n List.mem_cons_self
      unfold Scope.firstBy
      rw [hlayout, Site.layout_okDelta]
      apply Safe.read (Site.suits_ok n)
      intro h horderly hprecedes
      have hstays : h.now.record? OkDelta (s.path (.ok n)) = some ok :=
        (horderly.leads (hprecedes.le hmem) s).ok n ok hok
      rw [List.filterMap_cons_some hok] at hpost
      unfold Book.firstBy at hpost ih
      rw [List.find?_cons] at hpost
      rw [hstays]
      dsimp only
      by_cases hdate : ok.record.deltaDate ≤ asOf
      · rw [if_pos hdate]
        simp only [decide_eq_true hdate] at hpost
        exact hpost [.answered (.read (s.path (.ok n)).text) h]
      · rw [if_neg hdate]
        simp only [decide_eq_false hdate] at hpost
        apply ih (List.mem_cons_of_mem _ hmem) fun m hm => hns m (List.mem_cons_of_mem _ hm)
        intro seen
        have hall := hpost (seen ++ [.answered (.read (s.path (.ok n)).text) h])
        rw [List.append_assoc] at hall
        exact hall

theorem safe_readAsOf {asOf : DateTime}
    (hasked : Asked c r s ((scopeAt c r s).readAsOf asOf) .okDelta) (hbegun : trail.Begun s) :
    ((scopeAt c r s).readAsOf asOf).Safe sites
      (fun trail result => Answered c r trail (result.map .okDelta)) trail := by
  unfold Scope.readAsOf
  rw [scopeAt_layout, Site.layout_okDeltas]
  apply Safe.namesBelow
  intro h horderly hprecedes
  have hkept := horderly.kept s
  have hvalid := horderly.valid s
  apply Safe.firstBy (s := s) rfl List.mem_cons_self
  · intro n hn
    rw [List.filterMap_reverse, List.mem_reverse] at hn
    exact (Site.mem_numbers_okDeltas_iff hkept hvalid).mp hn
  · intro seen
    rw [Site.filterMap_ok_names hkept hvalid]
    exact hasked.answered (Trail.spans_of_mem (List.mem_append_right _ List.mem_cons_self))
      (hbegun.has_root horderly hprecedes) fun time => runAlone_readAsOf rfl hkept hvalid asOf

end Reading

theorem answered_serve (c : Coordinator) (r : Request) :
    (c.serve r).Safe (c.Serves r.datamart)
      (fun trail result => r.command.Snapshots → Answered c r trail result) [] := by
  have hrefused : ∀ trail (e : Failure), Answered c r trail (.error e) →
      r.command.Snapshots → Answered c r trail (.error e) := fun _ _ hanswered _ => hanswered
  obtain ⟨datamart, command⟩ := r
  cases command with
  | readHot =>
      apply safe_serve_of_asked (fun _ => rfl) hrefused
      intro s trail hasked hbegun
      exact (safe_readHot hasked hbegun).mono fun _ _ hanswered _ => hanswered
  | readLatest =>
      apply safe_serve_of_asked (fun _ => rfl) hrefused
      intro s trail hasked hbegun
      exact (safe_readLatest hasked hbegun).mono fun _ _ hanswered _ => hanswered
  | readAsOf asOf =>
      apply safe_serve_of_asked (fun _ => rfl) hrefused
      intro s trail hasked hbegun
      exact (safe_readAsOf hasked hbegun).mono fun _ _ hanswered _ => hanswered
  | _ => exact (safe_serve c _).mono fun _ _ _ hsnapshots => hsnapshots.elim

/-! ## What was there before -/

namespace Book

variable {b : Book} {datamart : String} {n : Int} {ok : Versioned OkDelta}

/-- As long as there is an ok delta, the last one is told, which is not before it. -/
theorem exists_latest (hvalid : b.Valid) (hconsecutive : b.Consecutive)
    (hok : b.ok n = some ok) :
    ∃ found, b.readLatest datamart = .ok found ∧ n ≤ found.deltaNum := by
  obtain ⟨hlow, hhigh⟩ := (hvalid.numbered n).mp ⟨ok, hok⟩
  unfold readLatest
  cases hlast : b.sequence.lastDeltaNum with
  | none =>
      rw [Counters.nextDeltaNum, hlast] at hhigh
      exact absurd hhigh (Int.not_lt.mpr hlow)
  | some last =>
      obtain ⟨found, hfound⟩ := hvalid.exists_last hlast
      rw [Counters.nextDeltaNum, hlast] at hhigh
      rw [Option.bind_some, hfound]
      refine ⟨found.record, rfl, ?_⟩
      rw [hconsecutive.own last found hfound]
      exact Int.lt_add_one_iff.mp hhigh

/-- An ok delta that is not too late is found, or one that comes after it. -/
theorem exists_asOf {asOf : DateTime} (hvalid : b.Valid) (hconsecutive : b.Consecutive)
    (hok : b.ok n = some ok) (hdate : ok.record.deltaDate ≤ asOf) :
    ∃ found, b.readAsOf datamart asOf = .ok found ∧ n ≤ found.deltaNum := by
  rcases readAsOf_cases datamart asOf hvalid hconsecutive with
    ⟨found, hlatest, htold⟩ | ⟨hnone, -⟩
  · exact ⟨found, htold, hlatest.number_le hconsecutive hok hdate⟩
  · exact absurd hdate (hnone n ok hok)

end Book

namespace Cluster

variable {ι : Type} [DecidableEq ι] {time : DateTime} {roots : List (Name × String)}
variable {actions : List (Action ι)} {s : Site} {n : Int} {ok : Versioned OkDelta}

/-- A question that is answered as at one moment is told from the book of that moment, in
which the ok deltas from before its calls are found. -/
theorem exists_book_told {i : ι} {task : Task} {result : Except Failure Response} {j : History}
    {γ : Type} {p : Program Failure γ} {answer : γ → Response} (told : Book → Except Failure γ)
    (hi : (run time roots actions).task? i = some task)
    (hanswered : Answered task.coordinator task.request task.trail result)
    (hasked : Asked task.coordinator task.request s p answer)
    (hrun : ∀ t, s.Kept t → (s.book t).Valid → p.runAlone time t = (told (s.book t), t))
    (hj : j ≤ (run time roots actions).history)
    (hsince : task.trail.Since j)
    (hok : (s.book j.now).ok n = some ok) :
    ∃ b : Book, b.Valid ∧ b.Consecutive ∧ b.ok n = some ok ∧ result = (told b).map answer := by
  have hsound := sound_run time roots actions
  obtain ⟨u, hfrom, hto, halone⟩ :=
    hanswered.exists_moment hj hsince (hsound.tasks i task hi).precedes
  have horderly := hsound.orderly.of_le hto
  have hvalid := horderly.valid s
  have hstays := (horderly.leads hfrom s).ok n ok hok
  have hresult := hasked.eq_told (has_root_of_ok hto hstays)
    (hrun u.now (horderly.kept s) hvalid) (halone time)
  exact ⟨s.book u.now, hvalid, consecutive_run time roots actions s u hto, hstays, hresult⟩

end Cluster

open Cluster

/-- Every finished question about the open epoch, the last ok delta or the ok delta of a date is
answered as at one moment of its calls.  The ok deltas that were there before are all in view:
the last one is found and is none before them, and so is the one of a date. -/
theorem snapshots_answered {ι : Type} [DecidableEq ι] {time : DateTime}
    {roots : List (Name × String)} {actions : List (Action ι)} {i : ι}
    {result : Except Failure Response}
    (hresult : (run time roots actions).result? i = some result) :
    ∃ task, (run time roots actions).task? i = some task ∧
      (task.request.command.Snapshots →
        Answered task.coordinator task.request task.trail result) ∧
      ∀ (s : Site) (j : History) n ok, task.Sites s → j ≤ (run time roots actions).history →
        task.trail.Since j → (s.book j.now).ok n = some ok →
          (task.request.command = .readLatest →
            ∃ found, result = .ok (.okDelta found) ∧ n ≤ found.deltaNum) ∧
          ∀ asOf, task.request.command = .readAsOf asOf → ok.record.deltaDate ≤ asOf →
            ∃ found, result = .ok (.okDelta found) ∧ n ≤ found.deltaNum := by
  obtain ⟨task, hi, htask⟩ := Option.bind_eq_some_iff.mp hresult
  have hanswered := post_of_result answered_serve hi htask
  refine ⟨task, hi, hanswered, ?_⟩
  intro s j n ok hserves hj hsince hok
  constructor
  · intro hcommand
    have hasked : Asked task.coordinator task.request s
        (scopeAt task.coordinator task.request s).readLatest .okDelta :=
      .of_command hserves hcommand rfl rfl
    rw [hcommand] at hanswered
    obtain ⟨b, hvalid, hconsecutive, hok, hresult⟩ :=
      exists_book_told (fun b => b.readLatest task.request.datamart) hi (hanswered trivial)
        hasked (fun _ => runAlone_readLatest rfl) hj hsince hok
    obtain ⟨found, hlatest, hlate⟩ := Book.exists_latest hvalid hconsecutive hok
    rw [hlatest] at hresult
    exact ⟨found, hresult, hlate⟩
  · intro asOf hcommand hdate
    have hasked : Asked task.coordinator task.request s
        ((scopeAt task.coordinator task.request s).readAsOf asOf) .okDelta :=
      .of_command hserves hcommand rfl rfl
    rw [hcommand] at hanswered
    obtain ⟨b, hvalid, hconsecutive, hok, hresult⟩ :=
      exists_book_told (fun b => b.readAsOf task.request.datamart asOf) hi (hanswered trivial)
        hasked (fun _ hkept hvalid => runAlone_readAsOf rfl hkept hvalid asOf) hj hsince hok
    obtain ⟨found, hasOf, hlate⟩ := Book.exists_asOf hvalid hconsecutive hok hdate
    rw [hasOf] at hresult
    exact ⟨found, hresult, hlate⟩

/-- One epoch is committed. -/
def oneCommit : List (Action Nat) :=
  Sample.alone 0 .openDelta ++ Sample.alone 1 (.commitDelta (some Sample.time))

/-- A second epoch is committed between the two reads of a question for the last ok delta. -/
def overtakenQuestion : List (Action Nat) :=
  [Sample.begins 2 .readLatest] ++ Sample.proceeds 2 3 ++
    Sample.alone 3 .openDelta ++ Sample.alone 4 (.commitDelta (some Sample.time)) ++
    Sample.proceeds 2 5

theorem snapshots_answered_overtakenQuestion :
    ∃ task, (run Sample.time Sample.roots (oneCommit ++ overtakenQuestion)).task? 2 = some task ∧
      Answered task.coordinator task.request task.trail
        (.ok (.okDelta ⟨0, Sample.time, 0, -1⟩)) ∧
      ((Sample.site.book (run Sample.time Sample.roots oneCommit).history.now).ok 0).isSome =
        true ∧
      ∀ n ok, (Sample.site.book (run Sample.time Sample.roots oneCommit).history.now).ok n =
        some ok → n ≤ 0 := by
  have hrun : ((run Sample.time Sample.roots oneCommit).task? 2).isNone = true ∧
      ((Sample.site.book (run Sample.time Sample.roots oneCommit).history.now).ok 0).isSome =
        true ∧
      (run Sample.time Sample.roots (oneCommit ++ overtakenQuestion)).result? 2 =
        some (.ok (.okDelta ⟨0, Sample.time, 0, -1⟩)) ∧
      ((run Sample.time Sample.roots (oneCommit ++ overtakenQuestion)).task? 2).any
        (fun task => decide (task.coordinator = Sample.coordinator ∧
          task.request = ⟨"dtm", .readLatest⟩)) = true := by decide +kernel
  obtain ⟨hnone, hcommitted, hresult, hasking⟩ := hrun
  obtain ⟨task, hi, hanswered, hseen⟩ := snapshots_answered hresult
  rw [hi, Option.any_some, decide_eq_true_eq] at hasking
  obtain ⟨hcoordinator, hrequest⟩ := hasking
  have hcommand : task.request.command = .readLatest := by rw [hrequest]
  rw [hcommand] at hanswered
  refine ⟨task, hi, hanswered trivial, hcommitted, ?_⟩
  intro n ok hok
  have hserves : task.Sites Sample.site := by
    rw [Task.Sites, hcoordinator, hrequest]
    exact Sample.serves_site
  have hsince := since_run (Option.isNone_iff_eq_none.mp hnone) hi
  obtain ⟨found, htold, hlate⟩ :=
    (hseen Sample.site _ n ok hserves le_history_run hsince hok).1 hcommand
  cases htold
  exact hlate

end DeltaLedger
