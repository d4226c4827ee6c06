import DeltaLedger.Proofs.ClusterSteps
import DeltaLedger.Proofs.ReadsAlone

/-!
# Lists of the ledger

The unfinished writes of an epoch are told by many calls: one looks for an open epoch, one lists
the numbers of the ledger, and one reads each entry.  Between them writes are registered, finished
and withdrawn, and an epoch may end and another begin, so that the list need not be the ledger of
any moment.  Still nothing in it is made up or told twice, and a write that is unfinished during
all of the calls is in it.  It was there when the numbers were listed, and when its entry was read.
-/

namespace DeltaLedger

open Program

/-- What a list of unfinished writes tells of the ledger during some calls. -/
structure Listed (s : Site) (trail : Trail) (ws : List WriteOperation) : Prop where
  increasing : ws.Pairwise fun w w' => w.sysCn < w'.sysCn
  unfinished : ∀ w ∈ ws, w.status ≠ .success
  stored : ∀ w ∈ ws, ∃ u version, trail.Spans u ∧
    (s.book u.now).write w.sysCn = some ⟨w, version⟩
  complete : ∀ n, (∀ u, trail.Spans u →
      ∃ entry, (s.book u.now).write n = some entry ∧ entry.record.status ≠ .success) →
    ∃ w ∈ ws, w.sysCn = n

section Listing

variable {s : Site} {sites : Site → Prop} {trail seen : Trail} {scope : Scope}
variable {entries : List (Versioned WriteOperation)}

theorem Listed.of_closed {c : Call} {h : History} (horderly : h.Orderly)
    (hmem : .answered c h ∈ trail) (hclosed : (s.book h.now).hot = none) : Listed s trail [] where
  increasing := .nil
  unfinished _ hw := absurd hw List.not_mem_nil
  stored _ hw := absurd hw List.not_mem_nil
  complete n hthroughout := by
    obtain ⟨entry, hentry, -⟩ := hthroughout h (Trail.spans_of_mem hmem)
    rw [(horderly.valid s).closed hclosed n] at hentry
    cases hentry

theorem mem_unfinished_iff {w : WriteOperation} :
    w ∈ (entries.map Versioned.record).filter (fun w => w.status ≠ .success) ↔
      ∃ entry ∈ entries, entry.record = w ∧ w.status ≠ .success := by
  rw [List.mem_filter, List.mem_map, decide_eq_true_eq]
  constructor
  · rintro ⟨⟨entry, hmem, hrecord⟩, hstatus⟩
    exact ⟨entry, hmem, hrecord, hstatus⟩
  · rintro ⟨entry, hmem, hrecord, hstatus⟩
    exact ⟨⟨entry, hmem, hrecord⟩, hstatus⟩

theorem Scanned.listed (hscanned : Scanned s trail seen entries) :
    Listed s (seen ++ trail)
      ((entries.map Versioned.record).filter fun w => w.status ≠ .success) where
  increasing := by
    apply List.Pairwise.filter
    exact List.pairwise_map.mpr hscanned.increasing
  unfinished w hw := by
    obtain ⟨_, _, _, hstatus⟩ := mem_unfinished_iff.mp hw
    exact hstatus
  stored w hw := by
    obtain ⟨entry, hmem, rfl, -⟩ := mem_unfinished_iff.mp hw
    obtain ⟨c, h, hseen, -, -, hentry⟩ := hscanned.sound entry hmem
    exact ⟨h, entry.version, Trail.spans_of_mem (List.mem_append_left _ hseen), hentry⟩
  complete n hthroughout := by
    obtain ⟨c, first, hmemFirst, -, -, hcomplete⟩ := hscanned.complete
    have hspansFirst := Trail.spans_of_mem (List.mem_append_left trail hmemFirst)
    obtain ⟨listed, hlisted, -⟩ := hthroughout first hspansFirst
    obtain ⟨c', h, hmem, -, horderly, hread⟩ := hcomplete n listed hlisted
    have hspans := Trail.spans_of_mem (List.mem_append_left trail hmem)
    obtain ⟨entry, hentry, hstatus⟩ := hthroughout h hspans
    have hn := ((horderly.valid s).issued n entry hentry).1
    exact ⟨entry.record, mem_unfinished_iff.mpr ⟨entry, hread entry hentry, rfl, hstatus⟩, hn⟩

theorem safe_readLedger (hlayout : scope.layout = s.layout) :
    scope.readLedger.Safe sites
      (fun trail result => ∃ ws, result = .ok ws ∧ Listed s trail ws) trail := by
  unfold Scope.readLedger
  rw [hlayout, Site.layout_hot]
  apply Safe.read Site.suits_hot
  intro h horderly hprecedes
  cases hhot : h.now.record? HotDelta (s.path .hot) with
  | none => exact ⟨[], rfl, .of_closed horderly List.mem_cons_self hhot⟩
  | some hot =>
      apply Safe.ledger hlayout
      intro seen entries hscanned
      exact ⟨_, rfl, hscanned.listed⟩

end Listing

/-- A request for the ledger of a datamart with a root is answered with a list. -/
theorem listed_serve (c : Coordinator) (r : Request) :
    (c.serve r).Safe (c.Serves r.datamart)
      (fun trail result => r.command = .readLedger →
        (∃ s ws, c.Serves r.datamart s ∧ result = .ok (.writes ws) ∧ Listed s trail ws) ∨
          ∃ e, result = .error e ∧ Answered c r trail (.error e)) [] := by
  by_cases hcommand : r.command = .readLedger
  · obtain ⟨datamart, command⟩ := r
    cases hcommand
    apply safe_serve_of_asked (fun _ => rfl)
    · exact fun trail e hanswered _ => .inr ⟨e, rfl, hanswered⟩
    · intro s trail hasked hbegun
      refine (safe_readLedger (s := s) rfl).mono ?_
      rintro trail' result ⟨ws, rfl, hlisted⟩ -
      exact .inl ⟨s, ws, hasked.serves, rfl, hlisted⟩
  · exact (safe_serve c r).mono fun _ _ _ hcommand' => absurd hcommand' hcommand

namespace Cluster

variable {ι : Type} [DecidableEq ι] {time : DateTime} {roots : List (Name × String)}
variable {actions : List (Action ι)} {i : ι} {task : Task} {s : Site}

/-- Only for lack of a root a request for the ledger is answered as one that fails. -/
theorem has_root_eq_false_of_answered {e : Failure}
    (hi : (run time roots actions).task? i = some task)
    (hcommand : task.request.command = .readLedger) (hserves : task.Sites s)
    (hanswered : Answered task.coordinator task.request task.trail (.error e)) :
    (run time roots actions).history.now.has s.root = false := by
  have hsound := sound_run time roots actions
  obtain ⟨u, hle, halone⟩ : ∃ u, u ≤ (run time roots actions).history ∧ ∀ now,
      (task.coordinator.serve task.request).runAlone now u.now = (.error e, u.now) := by
    cases hanswered with
    | unaided _ halone => exact ⟨_, History.le_refl _, fun now => halone now _⟩
    | @within u hspans halone => exact ⟨u, hspans.le (hsound.tasks i task hi).precedes, halone⟩
  rw [hsound.orderly.has_root hle s, ← Bool.not_eq_true]
  intro hroot
  have horderly := hsound.orderly.of_le hle
  have hlayout : (scopeAt task.coordinator task.request s).layout = s.layout := rfl
  obtain ⟨entries, -, hrun⟩ :=
    runAlone_readLedger time hlayout (horderly.kept s) (horderly.valid s)
  have hasked : Asked task.coordinator task.request s
      (scopeAt task.coordinator task.request s).readLedger .writes :=
    .of_command hserves hcommand rfl rfl
  cases hasked.eq_told hroot hrun (halone time)

end Cluster

open Cluster

/-- Every finished request for the ledger was answered with a list of what its calls met there,
unless the datamart has no root. -/
theorem readLedger_listed {ι : Type} [DecidableEq ι] {time : DateTime}
    {roots : List (Name × String)} {actions : List (Action ι)} {i : ι}
    {result : Except Failure Response}
    (hresult : (run time roots actions).result? i = some result) :
    ∃ task, (run time roots actions).task? i = some task ∧
      (task.request.command = .readLedger →
        (∃ s ws, task.Sites s ∧ result = .ok (.writes ws) ∧ Listed s task.trail ws) ∨
          (∃ e, result = .error e) ∧
            ∀ s, task.Sites s → (run time roots actions).history.now.has s.root = false) := by
  obtain ⟨task, hi, htask⟩ := Option.bind_eq_some_iff.mp hresult
  refine ⟨task, hi, ?_⟩
  intro hcommand
  rcases post_of_result listed_serve hi htask hcommand with hlisted | ⟨e, rfl, hanswered⟩
  · exact .inl hlisted
  · exact .inr ⟨⟨e, rfl⟩, fun s hserves =>
      has_root_eq_false_of_answered hi hcommand hserves hanswered⟩

section Samples

/-- After the numbers of two writes were listed, one is withdrawn, the other fails, and a third
is registered. -/
def overtakenList : List (Action Nat) :=
  Sample.alone 0 .openDelta ++ Sample.alone 1 (.registerWrite ⟨"a", "a_ext", "q"⟩) ++
    Sample.alone 2 (.registerWrite ⟨"b", "b_ext", "q"⟩) ++
    [Sample.begins 3 .readLedger] ++ Sample.proceeds 3 4 ++
    Sample.alone 4 (.withdrawWrite 0) ++ Sample.alone 5 (.failWrite 1) ++
    Sample.alone 6 (.registerWrite ⟨"c", "c_ext", "q"⟩) ++ Sample.proceeds 3 20

theorem readLedger_listed_overtakenList :
    ∃ task, (run Sample.time Sample.roots overtakenList).task? 3 = some task ∧
      Listed Sample.site task.trail [⟨"dtm", "b", "b_ext", "q", 1, .error⟩] := by
  have hrun : (run Sample.time Sample.roots overtakenList).result? 3 =
        some (.ok (.writes [⟨"dtm", "b", "b_ext", "q", 1, .error⟩])) ∧
      ((run Sample.time Sample.roots overtakenList).task? 3).any
        (fun task => decide (task.coordinator = Sample.coordinator ∧
          task.request = ⟨"dtm", .readLedger⟩)) = true := by decide +kernel
  obtain ⟨hresult, hasking⟩ := hrun
  obtain ⟨task, hi, htold⟩ := readLedger_listed hresult
  rw [hi, Option.any_some, decide_eq_true_eq] at hasking
  obtain ⟨hcoordinator, hrequest⟩ := hasking
  have hcommand : task.request.command = .readLedger := by rw [hrequest]
  refine ⟨task, hi, ?_⟩
  rcases htold hcommand with ⟨s, ws, hserves, hsame, hlisted⟩ | ⟨⟨e, hfailed⟩, -⟩
  · have hsample : task.Sites Sample.site := by
      rw [Task.Sites, hcoordinator, hrequest]
      exact Sample.serves_site
    cases hsame
    cases hserves.unique hsample
    exact hlisted
  · cases hfailed

end Samples

end DeltaLedger
