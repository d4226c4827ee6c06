import DeltaLedger.Proofs.ClusterSteps

/-!
# Change numbers

The change numbers of a datamart count its registrations.  One that is committed takes
the number that is next, which is how many there were before it, and goes on to answer
with it.  Nothing else uses a number up: an epoch that ends keeps the numbers of its
writes, whether it is committed or discarded, and a registration that fails has
committed nothing.
-/

namespace DeltaLedger

namespace Book

variable {b b' : Book} {m : Move} {datamart : String} {r : Registration}

theorem Moves.nextCn_eq (hmoves : b.Moves m b')
    (hother : ∀ datamart r, m ≠ .registered datamart r) :
    b'.sequence.nextCn = b.sequence.nextCn := by
  cases hmoves with
  | opened => exact congrArg Counters.nextCn (sequence_opened b)
  | registered => exact absurd rfl (hother _ _)
  | promoted _ hcounters =>
      rw [sequence_of_counters hcounters]
      rfl
  | _ => rfl

theorem Moves.entry_registered (hmoves : b.Moves (.registered datamart r) b') :
    b'.sequence.nextCn = b.sequence.nextCn + 1 ∧
      b'.write b.sequence.nextCn = some ⟨r.entry datamart b.sequence.nextCn, 0⟩ := by
  cases hmoves with
  | registered _ hcounters =>
      rw [sequence_of_counters hcounters]
      exact ⟨rfl, if_pos rfl⟩

end Book

/-! ## Registrations -/

namespace Task

variable {task : Task} {s : Site} {n : Nat} {h h' : History} {now : DateTime} {call : Call}

/-- The request is to register a write at a site. -/
def Registers (task : Task) (s : Site) : Prop :=
  task.Sites s ∧ task.request.operation = .registerWrite

instance (task : Task) (s : Site) : Decidable (task.Registers s) :=
  inferInstanceAs (Decidable ((s.env = task.coordinator.env ∧
    s.datamart.text = task.request.datamart) ∧ task.request.operation = .registerWrite))

theorem registers_step : (task.step h now).Registers s ↔ task.Registers s := by
  unfold Task.step
  split <;> exact Iff.rfl

theorem command_step : (task.step h now).request.command = task.request.command := by
  unfold Task.step
  split <;> rfl

theorem Registers.exists_command (hregisters : task.Registers s) :
    ∃ r, task.request.command = .registerWrite r := by
  have hoperation := hregisters.2
  unfold Request.operation at hoperation
  cases hcommand : task.request.command with
  | registerWrite r => exact ⟨r, rfl⟩
  | _ =>
      rw [hcommand] at hoperation
      cases hoperation

theorem Registers.not_spares (hregisters : task.Registers s) :
    ¬task.request.command.Spares := by
  obtain ⟨r, hcommand⟩ := hregisters.exists_command
  rw [hcommand]
  exact not_false

/-- A registration that has succeeded has committed a transaction. -/
theorem Accounted.exists_commit {response : Response} (haccounted : task.Accounted)
    (hresult : task.result? = some (.ok response)) (hregisters : task.Registers s) :
    ∃ call h, .answered call h ∈ task.trail ∧ call.commits h.now = true := by
  unfold Task.Accounted at haccounted
  rw [rest_of_result? hresult] at haccounted
  cases haccounted with
  | spared _ hspares => exact absurd hspares hregisters.not_spares
  | committed htrail _ _ hcommits =>
      rw [htrail]
      exact ⟨_, _, List.mem_cons_self, hcommits⟩

/-- The request has registered a write under the number that was next, and goes on to
answer with this number. -/
structure Issued (task : Task) (s : Site) (n : Nat) : Prop where
  registers : task.Registers s
  entered : ∃ r call h before, task.request.command = .registerWrite r ∧
    task.trail = .answered call h :: before ∧ call.commits h.now = true ∧
      (s.book h.now).sequence.nextCn = n ∧ (s.book h.now).write n = none ∧
        (s.book (h.now.answer call).2).write n = some ⟨r.entry s.datamart.text n, 0⟩
  concludes : task.rest.Concludes (.ok (.sysCn n))

theorem Issued.step (hissued : task.Issued s n) : (task.step h now).Issued s n := by
  have hconcludes := hissued.concludes
  unfold Task.step
  split
  next => exact hissued
  next c next hrest =>
    rw [hrest] at hconcludes
    exact hconcludes.elim
  next next hrest =>
    rw [hrest] at hconcludes
    exact hconcludes.elim
  next notice next hrest =>
    rw [hrest] at hconcludes
    exact ⟨hissued.registers, hissued.entered, hconcludes⟩

theorem Issued.result {result : Except Failure Response} (hissued : task.Issued s n)
    (hresult : task.result? = some result) : result = .ok (.sysCn n) := by
  have hconcludes := hissued.concludes
  rw [rest_of_result? hresult] at hconcludes
  exact hconcludes

/-- A request that has committed a transaction did it before or does it now. -/
theorem mem_trail_or_commits (hmem : .answered call h' ∈ (task.step h now).trail)
    (hcommits : call.commits h'.now = true) :
    .answered call h' ∈ task.trail ∨ task.commits h.now = true := by
  unfold Task.step at hmem
  unfold Task.commits
  cases hrest : task.rest with
  | call c next =>
      rw [hrest] at hmem
      rcases List.mem_cons.mp hmem with hhead | hbefore
      · cases hhead
        exact .inr hcommits
      · exact .inl hbefore
  | clock next =>
      rw [hrest] at hmem
      rcases List.mem_cons.mp hmem with hhead | hbefore
      · cases hhead
      · exact .inl hbefore
  | _ =>
      rw [hrest] at hmem
      exact .inl hmem

end Task

namespace Cluster

variable {ι : Type} [DecidableEq ι] {k : Cluster ι} {s : Site} {i : ι} {task : Task}
variable {action : Action ι} {ids : List ι} {now : DateTime} {m : Move} {response : Response}

/-- The request whose registration at a site an action commits, if it does. -/
def registered? (k : Cluster ι) (s : Site) : Action ι → Option ι
  | .begin _ _ _ => none
  | .proceed i _ =>
    if (k.task? i).any fun task => decide (task.Registers s) && task.commits k.history.now then
      some i
    else none

/-- The requests that register writes at a site, in the order of their commits. -/
def registrations (k : Cluster ι) (s : Site) : List (Action ι) → List ι
  | [] => []
  | action :: actions =>
    (k.registered? s action).toList ++ (k.act action).registrations s actions

omit [DecidableEq ι] in
theorem registered?_eq_some_iff :
    k.registered? s action = some i ↔ ∃ now task, action = .proceed i now ∧
      k.task? i = some task ∧ task.Registers s ∧ task.commits k.history.now = true := by
  cases action with
  | begin j c r => simp [registered?]
  | proceed j now =>
      simp only [registered?, Option.any_eq_true, Bool.and_eq_true, decide_eq_true_eq,
        Option.ite_none_right_eq_some, Option.some.injEq, Action.proceed.injEq]
      constructor
      · intro hregistered
        obtain ⟨⟨task, hj, hregisters, hcommits⟩, rfl⟩ := hregistered
        exact ⟨now, task, ⟨rfl, rfl⟩, hj, hregisters, hcommits⟩
      · intro hregistered
        obtain ⟨_, task, ⟨rfl, _⟩, hj, hregisters, hcommits⟩ := hregistered
        exact ⟨⟨task, hj, hregisters, hcommits⟩, rfl⟩

/-- A request that is there stays where it is or makes a step. -/
theorem task?_act (hi : k.task? i = some task) (action : Action ι) :
    (k.act action).task? i = some task ∨
      ∃ now, (k.act action).task? i = some (task.step k.history now) := by
  cases action with
  | begin j c r =>
      left
      cases hj : k.task? j with
      | some found =>
          simp only [act, hj]
          exact hi
      | none =>
          simp only [act, hj]
          rw [withTask_of_ne, hi]
          rintro rfl
          rw [hi] at hj
          cases hj
  | proceed j now =>
      cases hj : k.task? j with
      | none =>
          left
          simp only [act, hj]
          exact hi
      | some found =>
          rw [act_proceed hj]
          by_cases hsame : i = j
          · subst hsame
            rw [hi] at hj
            cases hj
            exact .inr ⟨now, advance_self hi⟩
          · left
            rw [advance_of_ne hsame, hi]

theorem Commits.exists_call (hcommit : k.Commits s i now task m response) :
    ∃ call, (task.step k.history now).trail = .answered call k.history :: task.trail ∧
      call.commits k.history.now = true ∧
        (k.act (.proceed i now)).history.now = (k.history.now.answer call).2 := by
  have hcommits := hcommit.commits
  unfold Task.commits at hcommits
  rw [act_proceed hcommit.found, advance, Task.step]
  cases hrest : task.rest with
  | call c next =>
      rw [hrest] at hcommits
      exact ⟨c, rfl, hcommits, rfl⟩
  | _ =>
      rw [hrest] at hcommits
      cases hcommits

theorem Commits.registers {datamart : String} {r : Registration}
    (hcommit : k.Commits s i now task (.registered datamart r) response) : task.Registers s := by
  have heffect := hcommit.effect
  refine ⟨hcommit.serves, ?_⟩
  unfold Request.operation
  generalize task.request.command = command at heffect
  cases heffect with
  | registered => rfl

theorem exists_registering (hsound : k.Sound) (haccounted : k.Accounted)
    (hregistered : k.registered? s action = some i) :
    ∃ now task m response, action = .proceed i now ∧ task.Registers s ∧
      k.Commits s i now task m response := by
  obtain ⟨now, task, haction, hi, hregisters, hcommits⟩ := registered?_eq_some_iff.mp hregistered
  obtain ⟨s', m, response, hcommit⟩ := exists_commits hsound haccounted hi hcommits now
  cases hcommit.serves.unique hregisters.1
  exact ⟨now, task, m, response, haction, hregisters, hcommit⟩

/-- A registration that is committed takes the next number. -/
theorem Commits.issued {n : Nat} (hcommit : k.Commits s i now task m response)
    (hsound : k.Sound) (hregisters : task.Registers s)
    (hnext : (s.book k.history.now).sequence.nextCn = n) :
    (task.step k.history now).Issued s n ∧
      (s.book (k.act (.proceed i now)).history.now).sequence.nextCn = n + 1 := by
  obtain ⟨r, hcommand⟩ := hregisters.exists_command
  obtain ⟨call, htrail, hcommits, hafter⟩ := hcommit.exists_call
  have hfree := (hsound.orderly.valid s).write_nextCn
  have hmoves := hcommit.turns.moves
  have heffect := hcommit.effect
  have hconcludes := hcommit.concludes
  rw [hcommand] at heffect
  cases heffect with
  | registered =>
      obtain ⟨hgrown, hentry⟩ := hmoves.entry_registered
      rw [hnext] at hfree hgrown hentry hconcludes
      rw [hafter] at hentry
      refine ⟨⟨Task.registers_step.mpr hregisters, ?_, hconcludes⟩, hgrown⟩
      rw [Task.command_step]
      exact ⟨r, call, k.history, task.trail, hcommand, htrail, hcommits, hnext, hfree, hentry⟩

/-! ## Counting -/

/-- The change numbers of a site up to now were given to these requests, in this order,
and no other request has committed a registration. -/
structure Issues (k : Cluster ι) (s : Site) (ids : List ι) : Prop where
  count : (s.book k.history.now).sequence.nextCn = ids.length
  issued : ∀ n i, ids[n]? = some i → ∃ task, k.task? i = some task ∧ task.Issued s n
  complete : ∀ i task call h, k.task? i = some task → task.Registers s →
    .answered call h ∈ task.trail → call.commits h.now = true → i ∈ ids

omit [DecidableEq ι] in
theorem issues_start {t : Tree} (hfounded : t.Founded) : (start t : Cluster ι).Issues s [] where
  count := by
    change (s.book t).sequence.nextCn = 0
    rw [Site.book_of_founded hfounded]
    rfl
  issued _ _ hfound := by cases hfound
  complete _ _ _ _ hi := by cases hi

theorem Issues.count_act (hissues : k.Issues s ids) (hsound : k.Sound) (haccounted : k.Accounted)
    (action : Action ι) : (s.book (k.act action).history.now).sequence.nextCn =
      (ids ++ (k.registered? s action).toList).length := by
  have hcount := hissues.count
  cases hregistered : k.registered? s action with
  | some i =>
      obtain ⟨now, task, m, response, rfl, hregisters, hcommit⟩ :=
        exists_registering hsound haccounted hregistered
      rw [(hcommit.issued hsound hregisters hcount).2]
      simp
  | none =>
      rw [Option.toList_none, List.append_nil, ← hcount]
      rcases book_act hsound haccounted s action with hsame | ⟨i, now, task, m, response, rfl, hcommit⟩
      · rw [hsame]
      · apply hcommit.turns.moves.nextCn_eq
        rintro datamart r rfl
        have hcontra := registered?_eq_some_iff.mpr
          ⟨now, task, rfl, hcommit.found, hcommit.registers, hcommit.commits⟩
        rw [hregistered] at hcontra
        cases hcontra

theorem Issues.issued_act (hissues : k.Issues s ids) (hsound : k.Sound) (haccounted : k.Accounted)
    (action : Action ι) {n : Nat}
    (hfound : (ids ++ (k.registered? s action).toList)[n]? = some i) :
    ∃ task, (k.act action).task? i = some task ∧ task.Issued s n := by
  by_cases hold : n < ids.length
  · rw [List.getElem?_append_left hold] at hfound
    obtain ⟨task, hi, hissued⟩ := hissues.issued n i hfound
    rcases task?_act hi action with hsame | ⟨now, hstep⟩
    · exact ⟨task, hsame, hissued⟩
    · exact ⟨_, hstep, hissued.step⟩
  · rw [List.getElem?_append_right (Nat.not_lt.mp hold)] at hfound
    cases hregistered : k.registered? s action with
    | none =>
        rw [hregistered] at hfound
        cases hfound
    | some j =>
        rw [hregistered, Option.toList_some, List.getElem?_singleton] at hfound
        split at hfound
        next hlast =>
          cases hfound
          have hn : n = ids.length := by omega
          subst hn
          obtain ⟨now, task, m, response, rfl, hregisters, hcommit⟩ :=
            exists_registering hsound haccounted hregistered
          have hissued := (hcommit.issued hsound hregisters hissues.count).1
          rw [act_proceed hcommit.found]
          exact ⟨_, advance_self hcommit.found, hissued⟩
        next => cases hfound

theorem Issues.complete_act (hissues : k.Issues s ids) (action : Action ι) {call : Call}
    {h : History} (hi : (k.act action).task? i = some task) (hregisters : task.Registers s)
    (hmem : .answered call h ∈ task.trail) (hcommits : call.commits h.now = true) :
    i ∈ ids ++ (k.registered? s action).toList := by
  apply List.mem_append.mpr
  rcases task_act hi with hold | ⟨c, r, _, rfl⟩ | ⟨now, before, rfl, hbefore, rfl⟩
  · exact .inl (hissues.complete i task call h hold hregisters hmem hcommits)
  · cases hmem
  · have hregisters' := Task.registers_step.mp hregisters
    rcases Task.mem_trail_or_commits hmem hcommits with hearlier | hnow
    · exact .inl (hissues.complete i before call h hbefore hregisters' hearlier hcommits)
    · have hregistered := registered?_eq_some_iff.mpr ⟨now, before, rfl, hbefore, hregisters', hnow⟩
      rw [hregistered]
      exact .inr List.mem_cons_self

theorem Issues.act (hissues : k.Issues s ids) (hsound : k.Sound) (haccounted : k.Accounted)
    (action : Action ι) : (k.act action).Issues s (ids ++ (k.registered? s action).toList) where
  count := hissues.count_act hsound haccounted action
  issued _ _ hfound := hissues.issued_act hsound haccounted action hfound
  complete _ _ _ _ hi hregisters hmem hcommits :=
    hissues.complete_act action hi hregisters hmem hcommits

theorem Issues.foldl (hissues : k.Issues s ids) (hsound : k.Sound) (haccounted : k.Accounted)
    (actions : List (Action ι)) :
    (actions.foldl Cluster.act k).Issues s (ids ++ k.registrations s actions) := by
  induction actions generalizing k ids with
  | nil =>
      rw [registrations, List.append_nil]
      exact hissues
  | cons action actions ih =>
      rw [registrations, ← List.append_assoc]
      have hnext := hissues.act hsound haccounted action
      exact ih hnext (hsound.act action) (haccounted.act hsound action)

theorem issues_run (time : DateTime) (roots : List (Name × String)) (actions : List (Action ι))
    (s : Site) : (run time roots actions).Issues s
      ((start (.rooted time roots)).registrations s actions) := by
  have hfounded := founded_rooted time roots
  exact (issues_start hfounded).foldl (sound_start hfounded) accounted_start actions

omit [DecidableEq ι] in
theorem Issues.nodup (hissues : k.Issues s ids) : ids.Nodup := by
  apply List.nodup_iff_getElem?_ne_getElem?.mpr
  intro m n hlt hn hsame
  have hfound := List.getElem?_eq_getElem hn
  obtain ⟨task, hi, hissued⟩ := hissues.issued n _ hfound
  obtain ⟨task', hi', hissued'⟩ := hissues.issued m _ (hsame.trans hfound)
  cases hi.symm.trans hi'
  have hanswers := hissued.concludes.unique hissued'.concludes
  injection hanswers with hanswers
  injection hanswers with hanswers
  omega

end Cluster

open Cluster

/-- Whatever requests are at work, the change numbers of every datamart are given to its
registrations in the order of their commits, from zero on, and to nothing else. -/
theorem registrations_issued {ι : Type} [DecidableEq ι] (time : DateTime)
    (roots : List (Name × String)) (actions : List (Action ι)) (s : Site) :
    (s.book (run time roots actions).history.now).sequence.nextCn =
        ((start (.rooted time roots)).registrations s actions).length ∧
      ((start (.rooted time roots)).registrations s actions).Nodup ∧
      (∀ n i, ((start (.rooted time roots)).registrations s actions)[n]? = some i →
        ∃ task, (run time roots actions).task? i = some task ∧ task.Issued s n) ∧
      ∀ i task, (run time roots actions).task? i = some task → task.Registers s →
        (∀ e, task.result? = some (.error e) →
          i ∉ (start (.rooted time roots)).registrations s actions) ∧
        ∀ response, task.result? = some (.ok response) →
          ∃ n : Nat, ((start (.rooted time roots)).registrations s actions)[n]? = some i ∧
            response = .sysCn n := by
  have hissues := issues_run time roots actions s
  have haccounted := accounted_run time roots actions
  generalize (start (.rooted time roots)).registrations s actions = ids at hissues
  generalize run time roots actions = k at hissues haccounted
  refine ⟨hissues.count, hissues.nodup, hissues.issued, ?_⟩
  intro i task hi hregisters
  have hanswer : ∀ n : Nat, ids[n]? = some i → ∀ result, task.result? = some result →
      result = .ok (.sysCn n) := by
    intro n hn result hresult
    obtain ⟨found, hfound, hissued⟩ := hissues.issued n i hn
    cases hi.symm.trans hfound
    exact hissued.result hresult
  constructor
  · intro e hresult hmem
    obtain ⟨n, hn⟩ := List.mem_iff_getElem?.mp hmem
    cases hanswer n hn _ hresult
  · intro response hresult
    obtain ⟨call, h, hcall, hcommits⟩ := (haccounted i task hi).exists_commit hresult hregisters
    have hmem := hissues.complete i task call h hi hregisters hcall hcommits
    obtain ⟨n, hn⟩ := List.mem_iff_getElem?.mp hmem
    cases hanswer n hn _ hresult
    exact ⟨n, hn, rfl⟩

section Samples

/-- A registration comes too early.  Of two that meet in an epoch, the first to read is
the last to commit. -/
def racingRegistrations : List (Action Nat) :=
  Sample.alone 0 (.registerWrite ⟨"a", "a_ext", "q"⟩) ++ Sample.alone 1 .openDelta ++
    [Sample.begins 2 (.registerWrite ⟨"a", "a_ext", "q"⟩),
      Sample.begins 3 (.registerWrite ⟨"b", "b_ext", "q"⟩)] ++
    Sample.proceeds 2 5 ++ Sample.proceeds 3 20 ++ Sample.proceeds 2 20

theorem registrations_issued_racing :
    (start (.rooted Sample.time Sample.roots)).registrations Sample.site racingRegistrations =
        [3, 2] ∧
      (Sample.site.book (run Sample.time Sample.roots racingRegistrations).history.now).sequence.nextCn =
        2 ∧
      ∃ task, (run Sample.time Sample.roots racingRegistrations).task? 2 = some task ∧
        task.Issued Sample.site 1 := by
  have hids : (start (.rooted Sample.time Sample.roots)).registrations Sample.site
      racingRegistrations = [3, 2] := by decide +kernel
  obtain ⟨hcount, _, hissued, _⟩ :=
    registrations_issued Sample.time Sample.roots racingRegistrations Sample.site
  rw [hids] at hcount hissued
  exact ⟨hids, hcount, hissued 1 2 rfl⟩

end Samples

end DeltaLedger
