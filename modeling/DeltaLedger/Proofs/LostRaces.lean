import DeltaLedger.Proofs.Rivals
import DeltaLedger.Proofs.UndisturbedRequests

/-!
# Lost races

In a run of requests over a store that only they write, no transaction is aborted for nothing.
Between the first read of the attempt and the moment when its transaction was served, another
client has committed a transaction of the same datamart.  So a request that gives up for lost
races has met as many commits as it made attempts, and a request that meets none is settled by
its first attempt, as it would be settled alone.
-/

namespace DeltaLedger

namespace Trail

variable {trail : Trail} {j : History}

theorem mem_of_firstRead (hfirst : trail.firstRead = some j) : ∃ c, .answered c j ∈ trail := by
  induction trail with
  | nil => cases hfirst
  | cons sight trail ih =>
      cases sight with
      | told now =>
          obtain ⟨c, hmem⟩ := ih hfirst
          exact ⟨c, List.mem_cons_of_mem _ hmem⟩
      | answered c h =>
          unfold firstRead at hfirst
          split at hfirst
          next =>
            cases hbefore : firstRead trail with
            | none =>
                rw [hbefore] at hfirst
                cases hfirst
                exact ⟨c, List.mem_cons_self⟩
            | some first =>
                rw [hbefore] at hfirst
                cases hfirst
                obtain ⟨c', hmem⟩ := ih hbefore
                exact ⟨c', List.mem_cons_of_mem _ hmem⟩
          next => cases hfirst

/-- What was submitted before an inquiry was served before it began. -/
theorem le_firstRead {c : Call} {h : History} (hchronological : trail.Chronological)
    (hfirst : trail.firstRead = some j) (hmem : .answered c h ∈ trail)
    (hkind : c.inquires = false) : h ≤ j := by
  induction trail with
  | nil => cases hfirst
  | cons sight trail ih =>
      cases sight with
      | told now => exact ih hchronological hfirst (by simpa using hmem)
      | answered c' h' =>
          obtain ⟨hprecedes, hrest⟩ := hchronological
          unfold firstRead at hfirst
          split at hfirst
          next hinquires =>
            rcases List.mem_cons.mp hmem with hhead | htail
            · cases hhead
              rw [hkind] at hinquires
              cases hinquires
            · cases hbefore : firstRead trail with
              | none =>
                  rw [hbefore] at hfirst
                  cases hfirst
                  exact hprecedes.le htail
              | some first =>
                  rw [hbefore] at hfirst
                  cases hfirst
                  exact ih hrest hbefore htail
          next => cases hfirst

theorem Chronological.of_append {later : Trail} (hchronological : Chronological (later ++ trail)) :
    trail.Chronological := by
  induction later with
  | nil => exact hchronological
  | cons sight later ih =>
      cases sight with
      | told now => exact ih hchronological
      | answered c h => exact ih hchronological.2

theorem Raced.exists_between {between : History → History → Prop} {later before : Trail}
    {c : Call} {h : History} (hraced : Raced between (later ++ .answered c h :: before))
    (hlost : Sight.lost (.answered c h) = true) :
    ∃ j, firstRead before = some j ∧ between j h :=
  hraced.of_append.2 hlost

/-- Lost races follow each other, and so do those who won them. -/
theorem Raced.exists_winners {wins : Nat → History → History → Prop}
    (hraced : trail.Raced fun j h => ∃ n, wins n j h) (hchronological : trail.Chronological)
    (hordered : ∀ {m n j j' h h'}, wins m j h → wins n j' h' → h ≤ j' → m < n) :
    ∃ ns : List Nat, ns.Pairwise (fun n m => m < n) ∧ ns.length = trail.losses ∧
      ∀ n ∈ ns, ∃ c j c' h, .answered c j ∈ trail ∧ .answered c' h ∈ trail ∧
        c'.inquires = false ∧ wins n j h := by
  induction trail with
  | nil => exact ⟨[], .nil, rfl, fun _ hmem => absurd hmem List.not_mem_nil⟩
  | cons sight trail ih =>
      have hlater : ∀ ns : List Nat, (∀ n ∈ ns, ∃ c j c' h, .answered c j ∈ trail ∧
          .answered c' h ∈ trail ∧ c'.inquires = false ∧ wins n j h) →
          ∀ n ∈ ns, ∃ c j c' h, .answered c j ∈ sight :: trail ∧
            .answered c' h ∈ sight :: trail ∧ c'.inquires = false ∧ wins n j h := by
        intro ns hns n hn
        obtain ⟨c, j, c', h, hmem, hmem', hkind, hwins⟩ := hns n hn
        exact ⟨c, j, c', h, List.mem_cons_of_mem _ hmem, List.mem_cons_of_mem _ hmem', hkind,
          hwins⟩
      cases sight with
      | told now =>
          obtain ⟨ns, hsorted, hlength, hns⟩ := ih hraced hchronological
          exact ⟨ns, hsorted, hlength, hlater ns hns⟩
      | answered c h =>
          obtain ⟨ns, hsorted, hlength, hns⟩ := ih hraced.1 hchronological.2
          cases hlost : Sight.lost (.answered c h) with
          | false =>
              refine ⟨ns, hsorted, ?_, hlater ns hns⟩
              rw [hlength, losses, losses, List.countP_cons_of_neg (by simp [hlost])]
          | true =>
              obtain ⟨j, hfirst, n, hwins⟩ := hraced.2 hlost
              obtain ⟨c', hmem⟩ := mem_of_firstRead hfirst
              have hkind : c.inquires = false := by
                cases hinquires : c.inquires with
                | false => rfl
                | true =>
                    rw [Sight.lost_of_inquires hinquires] at hlost
                    cases hlost
              refine ⟨n :: ns, List.pairwise_cons.mpr ⟨?_, hsorted⟩, ?_, ?_⟩
              · intro m hm
                obtain ⟨_, _, c'', h', _, hmem', hkind', hwins'⟩ := hns m hm
                exact hordered hwins' hwins (le_firstRead hchronological.2 hfirst hmem' hkind')
              · rw [List.length_cons, hlength, losses, losses, List.countP_cons_of_pos hlost]
              · refine List.forall_mem_cons.mpr ⟨?_, hlater ns hns⟩
                exact ⟨c', j, c, h, List.mem_cons_of_mem _ hmem, List.mem_cons_self, hkind, hwins⟩

end Trail

/-! ## Requests without rivals -/

namespace Task

variable (s : Site) (task : Task)

/-- Without a transaction, the request has ended as it would have ended alone at any of the
moments when it made a call. -/
def EndsAlone (result : Except Failure Response) : Prop :=
  task.trail.Idle ∧ ∃ time, (∀ now, .told now ∈ task.trail → now = time) ∧
    ∀ c h, .answered c h ∈ task.trail →
      (task.coordinator.serve task.request).runAlone time h.now = (result, h.now)

/-- How a request ends whose first attempt settles it: with a transaction, with nothing to
change, with a failure of its checks, or with a number that would leave its range. -/
inductive Settled : Except Failure Response → Prop where
  | committed {steps : List Step} {h : History} {before : Trail} {response : Response}
      (htrail : task.trail = .answered (.transact steps) h :: before)
      (hcommits : (Call.transact steps).commits h.now = true) (hfirst : before.Idle) :
      Settled (.ok response)
  | content {response : Response} (hspares : task.request.command.Spares)
      (halone : task.EndsAlone (.ok response)) : Settled (.ok response)
  | refused {e : Failure} (hcalm : e.isAlarming = false) (halone : task.EndsAlone (.error e)) :
      Settled (.error e)
  | exceeded {e : Failure} {c : Call} {h : History} (hmem : .answered c h ∈ task.trail)
      (hexceeds : task.request.command.Exceeds (s.book h.now))
      (halone : task.EndsAlone (.error e)) : Settled (.error e)

end Task

theorem Trail.Lossless.idle {trail : Trail} (hlossless : trail.Lossless)
    (huncommitted : trail.Uncommitted) : trail.Idle := by
  intro steps h hmem
  have hlost := hlossless _ hmem
  simp [Sight.lost, Call.isTransaction, (huncommitted _ h hmem).1] at hlost

namespace Cluster

section Runs

variable {ι : Type} [DecidableEq ι] {k : Cluster ι} {s : Site} {i : ι} {task : Task}
variable {time : DateTime} {roots : List (Name × String)} {actions : List (Action ι)}

theorem run_serve (c : Coordinator) (r : Request) :
    (c.serve r).Safe (c.Serves r.datamart) (fun seen result => (c.serve r).Run [] seen result) [] :=
  (accounted_serve c r).run.mono fun _ _ hboth => hboth.2

theorem raced_run (hi : (run time roots actions).task? i = some task)
    (hserves : task.coordinator.Serves task.request.datamart s) :
    task.trail.Raced (fun j h => ∃ n, Rival time roots actions s i n j h) ∧
      task.trail.Chronological := by
  have hsound := sound_run time roots actions
  have hpromises := promises_run run_serve time roots actions i task hi
  obtain ⟨later, result, hrun⟩ :=
    Program.Safe.exists_end hpromises hsound.orderly (hsound.tasks i task hi).precedes
  constructor
  · apply (contested_serve hserves hrun).raced.of_append.mono
    rintro j c h hmem _ ⟨u, hj, hu, hchanged⟩
    exact exists_rival hi hmem hj hu hchanged
  · exact (hrun.chronological trivial).of_append

section Unrivalled

variable (hi : (run time roots actions).task? i = some task)
variable (hserves : task.coordinator.Serves task.request.datamart s)
variable (hunrivalled : ∀ n, ¬Overlapped time roots actions s i task n)

include hi hunrivalled

/-- All calls of the request saw the same subtree. -/
theorem agree_of_unrivalled {c c' : Call} {h h' : History} (hmem : .answered c h ∈ task.trail)
    (hmem' : .answered c' h' ∈ task.trail) : s.Agree h'.now h.now := by
  have hforth : ∀ c c' h h', .answered c h ∈ task.trail → .answered c' h' ∈ task.trail →
      h ≤ h' → s.Agree h'.now h.now := by
    intro c c' h h' hmem hmem' hle
    refine Classical.byContradiction fun hchanged => ?_
    obtain ⟨n, hrival⟩ := exists_rival hi hmem' hle (History.le_refl h') hchanged
    exact hunrivalled n ⟨c, h, c', h', hmem, hmem', hrival⟩
  have hprecedes := ((sound_run time roots actions).tasks i task hi).precedes
  rcases History.le_or_le (hprecedes.le hmem) (hprecedes.le hmem') with hle | hle
  · exact hforth c c' h h' hmem hmem' hle
  · exact (hforth c' c h' h hmem' hmem hle).symm

include hserves

theorem lossless_of_unrivalled : task.trail.Lossless := by
  intro sight hmem
  cases sight with
  | told now => rfl
  | answered c h =>
      rw [← Bool.not_eq_true]
      intro hlost
      obtain ⟨later, before, htrail⟩ := List.append_of_mem hmem
      have hraced := (raced_run hi hserves).1
      rw [htrail] at hraced
      obtain ⟨j, hfirst, n, hrival⟩ := hraced.exists_between hlost
      obtain ⟨c', hread⟩ := Trail.mem_of_firstRead hfirst
      exact hunrivalled n ⟨c', j, c, h, by simp [htrail, hread], hmem, hrival⟩

theorem endsAlone_of_unrivalled {result : Except Failure Response}
    (hresult : task.result? = some result) (huncommitted : task.trail.Uncommitted) :
    task.EndsAlone result := by
  have hlossless := lossless_of_unrivalled hi hserves hunrivalled
  have hidle := hlossless.idle huncommitted
  obtain ⟨⟨now, htold⟩, halone⟩ :=
    asAlone_serve hlossless hserves (post_of_result run_serve hi hresult)
  refine ⟨hidle, now, htold, fun c h hmem => ?_⟩
  have hsteady : task.trail.Steady s now h.now :=
    ⟨fun c' h' hmem' => agree_of_unrivalled hi hunrivalled hmem hmem', htold⟩
  obtain ⟨hends, htree⟩ := halone now h.now hsteady
  exact Prod.ext hends (htree hidle)

/-- A request that meets no rival is settled by its first attempt. -/
theorem settled_of_unrivalled {result : Except Failure Response}
    (hresult : task.result? = some result) : task.Settled s result := by
  have hlossless := lossless_of_unrivalled hi hserves hunrivalled
  have haccounted := post_of_result accounted_serve hi hresult
  have halone := endsAlone_of_unrivalled hi hserves hunrivalled hresult
  cases haccounted with
  | @failed e huncommitted =>
      rcases calm_serve hlossless hserves (post_of_result run_serve hi hresult) rfl
        fun c h c' h' => agree_of_unrivalled hi hunrivalled with hcalm | ⟨c, h, hmem, hexceeds⟩
      · exact .refused hcalm (halone huncommitted)
      · exact .exceeded hmem hexceeds (halone huncommitted)
  | spared huncommitted hspares => exact .content hspares (halone huncommitted)
  | @committed _ before _ _ _ _ htrail huncommitted _ hcommits =>
      have hbefore : before.Lossless := fun sight hmem =>
        hlossless sight (by rw [htrail]; exact List.mem_cons_of_mem _ hmem)
      exact .committed htrail hcommits (hbefore.idle huncommitted)

end Unrivalled

/-! ## Requests that run alone -/

/-- Left to itself, a request comes to its end. -/
theorem exists_end (hi : k.task? i = some task) (now : DateTime) :
    ∃ n result, ((List.replicate n (.proceed i now)).foldl act k).result? i = some result := by
  have hstep : ∀ {k : Cluster ι} {task : Task}, k.task? i = some task →
      (k.act (.proceed i now)).task? i = some (task.step k.history now) := by
    intro k task hi
    rw [act_proceed hi]
    exact advance_self hi
  obtain ⟨c, r, rest, trail⟩ := task
  induction rest generalizing k trail with
  | done result => exact ⟨0, result, by simp [Cluster.result?, hi, Task.result?]⟩
  | call _ next ih =>
      obtain ⟨n, result, hresult⟩ := ih _ _ (hstep hi)
      exact ⟨n + 1, result, hresult⟩
  | clock next ih =>
      obtain ⟨n, result, hresult⟩ := ih now _ (hstep hi)
      exact ⟨n + 1, result, hresult⟩
  | note notice next ih =>
      obtain ⟨n, result, hresult⟩ := ih _ (hstep hi)
      exact ⟨n + 1, result, hresult⟩

theorem step_same (task : Task) (h : History) (now : DateTime) :
    (task.step h now).coordinator = task.coordinator ∧
      (task.step h now).request = task.request := by
  unfold Task.step
  cases task.rest <;> exact ⟨rfl, rfl⟩

/-- A request that has made no calls makes them later. -/
theorem since_run_of_idle (hi : (run time roots actions).task? i = some task)
    (hnew : task.trail = []) (more : List (Action ι)) :
    ∃ task', (run time roots (actions ++ more)).task? i = some task' ∧
      task'.coordinator = task.coordinator ∧ task'.request = task.request ∧
        task'.trail.Since (run time roots actions).history := by
  induction more using List.reverseRecOn with
  | nil =>
      rw [List.append_nil]
      refine ⟨task, hi, rfl, rfl, fun c h hmem => ?_⟩
      rw [hnew] at hmem
      cases hmem
  | append_singleton more action ih =>
      obtain ⟨task', hi', hcoordinator, hrequest, hsince⟩ := ih
      rw [← List.append_assoc, run_append_singleton]
      rcases task?_act hi' action with hsame | ⟨now, hstep⟩
      · exact ⟨task', hsame, hcoordinator, hrequest, hsince⟩
      · obtain ⟨hcoordinator', hrequest'⟩ :=
          step_same task' (run time roots (actions ++ more)).history now
        exact ⟨_, hstep, hcoordinator'.trans hcoordinator, hrequest'.trans hrequest,
          Task.since_step hsince le_history_run now⟩

/-- Nobody commits while a request runs alone, but the request itself. -/
theorem not_overlapped_of_alone {n : Nat} {now : DateTime}
    (hsince : task.trail.Since (run time roots actions).history) (m : Nat) :
    ¬Overlapped time roots (actions ++ List.replicate n (.proceed i now)) s i task m := by
  rintro ⟨c, j, _, _, hmem, _, rival, now', _, _, _, hother, hm, hcommit, hfrom, _⟩
  by_cases hbefore : m < actions.length
  · have htake : (actions ++ List.replicate n (Action.proceed i now)).take m = actions.take m :=
      List.take_append_of_le_length (Nat.le_of_lt hbefore)
    rw [List.getElem?_append_left hbefore] at hm
    rw [htake] at hcommit hfrom
    obtain ⟨t, hnext⟩ := hcommit.exists_next
    rw [← run_take_succ hm] at hnext
    have hprefix : (run time roots (actions.take (m + 1))).history ≤
        (run time roots actions).history := by
      conv_rhs => rw [← List.take_append_drop (m + 1) actions]
      exact le_history_run
    rw [hnext] at hprefix
    exact History.not_next_le
      (History.le_trans hprefix (History.le_trans (hsince c j hmem) hfrom))
  · rw [List.getElem?_append_right (Nat.le_of_not_lt hbefore)] at hm
    obtain ⟨_, hproceed⟩ := List.getElem?_eq_some_iff.mp hm
    rw [List.getElem_replicate] at hproceed
    cases hproceed
    exact hother rfl

/-- A request that runs alone is settled by its first attempt. -/
theorem settled_alone (hi : (run time roots actions).task? i = some task) (hnew : task.trail = [])
    (hserves : task.coordinator.Serves task.request.datamart s) (now : DateTime) :
    ∃ n task' result,
      (run time roots (actions ++ List.replicate n (.proceed i now))).task? i = some task' ∧
        task'.result? = some result ∧ task'.request = task.request ∧ task'.Settled s result := by
  obtain ⟨n, result, hresult⟩ := exists_end hi now
  obtain ⟨task', hi', hcoordinator, hrequest, hsince⟩ :=
    since_run_of_idle hi hnew (List.replicate n (.proceed i now))
  have hend : task'.result? = some result := by
    rw [run, ← List.foldl_append] at hresult
    change (run time roots (actions ++ List.replicate n (.proceed i now))).result? i = _ at hresult
    rwa [Cluster.result?, hi'] at hresult
  rw [← hcoordinator, ← hrequest] at hserves
  exact ⟨n, task', result, hi', hend, hrequest,
    settled_of_unrivalled hi' hserves (not_overlapped_of_alone hsince) hend⟩

/-- A transaction is aborted only if another client has committed one of the same datamart
between the first read of the attempt and the moment when it was served.  So a request that
no such commit overlaps is settled by its first attempt, and alone every request is; and one
that gives up for lost races was overlapped by as many commits of other clients as it may
make attempts. -/
theorem aborted_transactions_lost_races {ι : Type} [DecidableEq ι] (time : DateTime)
    (roots : List (Name × String)) (actions : List (Action ι)) (i : ι) (task : Task) (s : Site)
    (hi : (run time roots actions).task? i = some task)
    (hserves : task.coordinator.Serves task.request.datamart s) :
    (∀ later steps h (before : Trail),
      task.trail = later ++ .answered (.transact steps) h :: before →
      (Call.transact steps).commits h.now = false →
        ∃ j n, before.firstRead = some j ∧ Rival time roots actions s i n j h) ∧
      ((∀ n, ¬Overlapped time roots actions s i task n) →
        ∀ result, task.result? = some result → task.Settled s result) ∧
      (task.trail = [] → ∀ now, ∃ n task' result,
        (run time roots (actions ++ List.replicate n (.proceed i now))).task? i = some task' ∧
          task'.result? = some result ∧ task'.request = task.request ∧ task'.Settled s result) ∧
      ∀ message, task.result? = some (.error (.conflict message)) →
        ∃ ns : List Nat, ns.Pairwise (fun n m => m < n) ∧
          ns.length = task.coordinator.attempts ∧
            ∀ n ∈ ns, Overlapped time roots actions s i task n := by
  obtain ⟨hraced, hchronological⟩ := raced_run hi hserves
  refine ⟨?_, fun hunrivalled result => settled_of_unrivalled hi hserves hunrivalled,
    fun hnew => settled_alone hi hnew hserves, ?_⟩
  · intro later steps h before htrail haborted
    rw [htrail] at hraced
    obtain ⟨j, hfirst, n, hrival⟩ := hraced.exists_between (by simp [Sight.lost,
      Call.isTransaction, haborted])
    exact ⟨j, n, hfirst, hrival⟩
  · intro message hresult
    have hcontested := contested_serve hserves (post_of_result run_serve hi hresult)
    obtain ⟨ns, hsorted, hlength, hns⟩ := hraced.exists_winners hchronological Rival.lt
    refine ⟨ns, hsorted, hlength.trans (hcontested.lost _ rfl rfl), fun n hn => ?_⟩
    obtain ⟨c, j, c', h, hmem, hmem', _, hrival⟩ := hns n hn
    exact ⟨c, j, c', h, hmem, hmem', hrival⟩

end Runs

section Samples

/-- Three marks of others are committed, each between the reads of an attempt and its
transaction. -/
def lostMark : List (Action Nat) :=
  Sample.alone 0 .openDelta ++ Sample.begins 9 (.failDelta 9) ::
    (Sample.proceeds 9 3 ++ Sample.alone 1 (.failDelta 1) ++
      Sample.proceeds 9 6 ++ Sample.alone 2 (.failDelta 2) ++
        Sample.proceeds 9 6 ++ Sample.alone 3 (.failDelta 3) ++
          Sample.proceeds 9 20)

theorem aborted_transactions_lost_races_threeTimes :
    ∃ task, (run Sample.time Sample.roots lostMark).task? 9 = some task ∧
      task.result? = some (.error (.lostRaces .failDelta "dtm" 3)) ∧
        ∃ ns : List Nat, ns.Pairwise (fun n m => m < n) ∧ ns.length = 3 ∧
          ∀ n ∈ ns, Overlapped Sample.time Sample.roots lostMark Sample.site 9 task n := by
  have hlost : ((run Sample.time Sample.roots lostMark).task? 9).any (fun task =>
      decide (task.coordinator = Sample.coordinator ∧ task.request.datamart = "dtm" ∧
        task.result? = some (.error (.lostRaces .failDelta "dtm" 3)))) = true := by
    decide +kernel
  obtain ⟨task, hi, hlost⟩ := (Option.any_eq_true _ _).mp hlost
  rw [decide_eq_true_iff] at hlost
  obtain ⟨hcoordinator, hdatamart, hresult⟩ := hlost
  have hserves : task.coordinator.Serves task.request.datamart Sample.site := by
    rw [hcoordinator, hdatamart]
    exact Sample.serves_site
  obtain ⟨ns, hsorted, hlength, hns⟩ := (aborted_transactions_lost_races Sample.time Sample.roots
    lostMark 9 task Sample.site hi hserves).2.2.2 _ hresult
  rw [hcoordinator] at hlength
  exact ⟨task, hi, hresult, ns, hsorted, hlength, hns⟩

end Samples

end Cluster

end DeltaLedger
