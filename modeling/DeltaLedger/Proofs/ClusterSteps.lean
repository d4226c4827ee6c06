import DeltaLedger.Proofs.Cluster
import Mathlib.Data.List.Induction

/-!
# Steps of a cluster

What one step of a request does to the store.  Since the end of every request is
accounted for, the effect of a transaction is known as soon as it is committed: a
request that could go on to make another call would not be accounted for.
-/

namespace DeltaLedger

namespace Program

variable {ε α : Type} {sites : Site → Prop} {post : Trail → Except ε α → Prop} {trail : Trail}
variable {p : Program ε α}

/-- The program makes no more calls and has a result. -/
def Concludes (result : Except ε α) : Program ε α → Prop
  | .done found => found = result
  | .note _ next => next.Concludes result
  | _ => False

theorem Concludes.unique {result result' : Except ε α} (hconcludes : p.Concludes result)
    (hconcludes' : p.Concludes result') : result = result' := by
  induction p with
  | done found => exact hconcludes.symm.trans hconcludes'
  | call c next => exact hconcludes.elim
  | clock next => exact hconcludes.elim
  | note notice next ih => exact ih hconcludes hconcludes'

/-- A safe program can always go on to its end. -/
theorem Safe.exists_end {h : History} (hsafe : p.Safe sites post trail) (horderly : h.Orderly)
    (hprecedes : trail.Precedes h) : ∃ later result, post (later ++ trail) result := by
  induction p generalizing trail h with
  | done result => exact ⟨[], result, hsafe⟩
  | call c next ih =>
      obtain ⟨hproper, hnext⟩ := hsafe h horderly hprecedes
      have hlater := horderly.next hproper.changes
      obtain ⟨later, result, hpost⟩ := ih _ hnext hlater hprecedes.answered
      refine ⟨later ++ [.answered c h], result, ?_⟩
      rw [List.append_assoc]
      exact hpost
  | clock next ih =>
      obtain ⟨time, _⟩ := trail.exists_clocked
      obtain ⟨later, result, hpost⟩ := ih time (hsafe time) horderly hprecedes.told
      refine ⟨later ++ [.told time], result, ?_⟩
      rw [List.append_assoc]
      exact hpost
  | note notice next ih => exact ih hsafe horderly hprecedes

/-- A safe program that has to end with what it has seen is over. -/
theorem Safe.exists_conclusion {h : History} (hsafe : p.Safe sites post trail)
    (horderly : h.Orderly) (hprecedes : trail.Precedes h)
    (hlast : ∀ later result, post (later ++ trail) result → later = []) :
    ∃ result, p.Concludes result ∧ post trail result := by
  induction p with
  | done result => exact ⟨result, rfl, hsafe⟩
  | call c next =>
      obtain ⟨hproper, hnext⟩ := hsafe h horderly hprecedes
      have hlater := horderly.next hproper.changes
      obtain ⟨later, result, hpost⟩ := hnext.exists_end hlater hprecedes.answered
      have hnone := hlast (later ++ [.answered c h]) result
      rw [List.append_assoc] at hnone
      exact absurd (hnone hpost) (by simp)
  | clock next =>
      obtain ⟨time, _⟩ := trail.exists_clocked
      obtain ⟨later, result, hpost⟩ := (hsafe time).exists_end horderly hprecedes.told
      have hnone := hlast (later ++ [.told time]) result
      rw [List.append_assoc] at hnone
      exact absurd (hnone hpost) (by simp)
  | note notice next ih => exact ih hsafe

end Program

/-! ## One request -/

namespace Task

variable {task : Task} {h : History} {now : DateTime}

/-- The request after its next step. -/
def step (task : Task) (h : History) (now : DateTime) : Task :=
  match task.rest with
  | .done _ => task
  | .call c next =>
    { task with rest := next (h.now.answer c).1, trail := .answered c h :: task.trail }
  | .clock next => { task with rest := next now, trail := .told now :: task.trail }
  | .note _ next => { task with rest := next }

theorem since_step {j : History} (hsince : task.trail.Since j) (hle : j ≤ h) (now : DateTime) :
    (task.step h now).trail.Since j := by
  unfold step
  cases task.rest with
  | done result => exact hsince
  | call c next =>
      intro c' h' hmem
      rcases List.mem_cons.mp hmem with hhead | htail
      · cases hhead
        exact hle
      · exact hsince c' h' htail
  | clock next =>
      intro c' h' hmem
      rcases List.mem_cons.mp hmem with hhead | htail
      · cases hhead
      · exact hsince c' h' htail
  | note notice next => exact hsince

/-- The next step of the request commits a transaction. -/
def commits (task : Task) (t : Tree) : Bool :=
  match task.rest with
  | .call c _ => c.commits t
  | _ => false

/-- What a request does next is safe, and its end will be as stated. -/
def Promises (post : Coordinator → Request → Trail → Except Failure Response → Prop)
    (task : Task) : Prop :=
  task.rest.Safe task.Sites (post task.coordinator task.request) task.trail

theorem Promises.step {post : Coordinator → Request → Trail → Except Failure Response → Prop}
    (hpromises : task.Promises post) (horderly : h.Orderly) (hprecedes : task.trail.Precedes h) :
    (task.step h now).Promises post := by
  unfold Task.Promises at hpromises
  unfold Task.step
  split
  next => exact hpromises
  next c next hrest =>
    rw [hrest] at hpromises
    exact (hpromises h horderly hprecedes).2
  next next hrest =>
    rw [hrest] at hpromises
    exact hpromises now
  next notice next hrest =>
    rw [hrest] at hpromises
    exact hpromises

/-- The end of the request will be accounted for. -/
def Accounted (task : Task) : Prop :=
  task.rest.Safe task.Sites (DeltaLedger.Accounted task.coordinator task.request) task.trail

end Task

section Committing

variable {c : Coordinator} {r : Request} {call : Call} {h : History} {trail later : Trail}
variable {result : Except Failure Response}

/-- A call that has committed a transaction is the last one, and had the effect of the
request. -/
theorem Accounted.of_commits (haccounted : Accounted c r trail result)
    (hmem : .answered call h ∈ trail) (hcommits : call.commits h.now = true) :
    ∃ before : Trail, ∃ s m response, trail = .answered call h :: before ∧ before.Uncommitted ∧
      result = .ok response ∧ c.Serves r.datamart s ∧
        s.Turns m h.now (h.now.answer call).2 ∧ Effect s before h r.command m response := by
  have hcontra : ∀ seen : Trail, seen.Uncommitted → .answered call h ∉ seen := by
    intro seen huncommitted hseen
    rw [(huncommitted call h hseen).1] at hcommits
    cases hcommits
  cases haccounted with
  | failed huncommitted => exact absurd hmem (hcontra _ huncommitted)
  | spared huncommitted => exact absurd hmem (hcontra _ huncommitted)
  | committed htrail huncommitted hserves _ hturns heffect =>
      rw [htrail] at hmem
      rcases List.mem_cons.mp hmem with hhead | hbefore
      · cases hhead
        exact ⟨_, _, _, _, htrail, huncommitted, rfl, hserves, hturns, heffect⟩
      · exact absurd hbefore (hcontra _ huncommitted)

theorem Accounted.eq_nil_of_commits
    (haccounted : Accounted c r (later ++ .answered call h :: trail) result)
    (hcommits : call.commits h.now = true) : later = [] := by
  obtain ⟨before, _, _, _, htrail, huncommitted, _⟩ := haccounted.of_commits (by simp) hcommits
  cases later with
  | nil => rfl
  | cons sight later =>
      rw [List.cons_append] at htrail
      injection htrail with _ hbefore
      have hmem : .answered call h ∈ before := by simp [← hbefore]
      rw [(huncommitted call h hmem).1] at hcommits
      cases hcommits

theorem Accounted.same_of_not_commits (haccounted : Accounted c r trail result)
    (hmem : .answered call h ∈ trail) (hcommits : call.commits h.now = false) :
    (h.now.answer call).2 = h.now := by
  cases haccounted with
  | failed huncommitted => exact (huncommitted call h hmem).2
  | spared huncommitted => exact (huncommitted call h hmem).2
  | committed htrail huncommitted _ hcommitted =>
      rw [htrail] at hmem
      rcases List.mem_cons.mp hmem with hhead | hbefore
      · cases hhead
        rw [hcommits] at hcommitted
        cases hcommitted
      · exact (huncommitted call h hbefore).2

end Committing

/-! ## The cluster -/

namespace Cluster

variable {ι : Type} [DecidableEq ι] {k : Cluster ι} {i j : ι} {task : Task} {now : DateTime}

theorem act_proceed (hi : k.task? i = some task) :
    k.act (.proceed i now) = k.advance i now task := by
  simp only [act, hi]

theorem advance_self (hi : k.task? i = some task) :
    (k.advance i now task).task? i = some (task.step k.history now) := by
  unfold advance Task.step
  cases task.rest with
  | done result => exact hi
  | call c next => exact withTask_self
  | clock next => exact withTask_self
  | note notice next => exact withTask_self

theorem advance_of_ne (hne : j ≠ i) : (k.advance i now task).task? j = k.task? j := by
  unfold advance
  cases task.rest with
  | done result => rfl
  | call c next => exact withTask_of_ne hne
  | clock next => exact withTask_of_ne hne
  | note notice next => exact withTask_of_ne hne

/-- A request of a cluster after an action: it was there, it has just come in, or it has
made a step. -/
theorem task_act {action : Action ι} (hj : (k.act action).task? j = some task) :
    k.task? j = some task ∨
      (∃ c r, action = .begin j c r ∧ task = ⟨c, r, c.serve r, []⟩) ∨
      ∃ now before, action = .proceed j now ∧ k.task? j = some before ∧
        task = before.step k.history now := by
  cases action with
  | begin i c r =>
      cases hi : k.task? i with
      | some found =>
          simp only [act, hi] at hj
          exact .inl hj
      | none =>
          simp only [act, hi] at hj
          by_cases hsame : j = i
          · subst hsame
            rw [withTask_self] at hj
            cases hj
            exact .inr (.inl ⟨c, r, rfl, rfl⟩)
          · rw [withTask_of_ne hsame] at hj
            exact .inl hj
  | proceed i now =>
      cases hi : k.task? i with
      | none =>
          simp only [act, hi] at hj
          exact .inl hj
      | some before =>
          rw [act_proceed hi] at hj
          by_cases hsame : j = i
          · subst hsame
            rw [advance_self hi] at hj
            cases hj
            exact .inr (.inr ⟨now, before, rfl, hi, rfl⟩)
          · rw [advance_of_ne hsame] at hj
            exact .inl hj

/-- Every request of the cluster will be accounted for. -/
def Accounted (k : Cluster ι) : Prop :=
  ∀ i task, k.task? i = some task → task.Accounted

omit [DecidableEq ι] in
theorem accounted_start {t : Tree} : (start t : Cluster ι).Accounted := by
  intro i task hi
  cases hi

/-- What is shown of every request from its beginning holds of it at every step. -/
theorem promises_act {post : Coordinator → Request → Trail → Except Failure Response → Prop}
    (hserve : ∀ (c : Coordinator) r, (c.serve r).Safe (c.Serves r.datamart) (post c r) [])
    (hpromises : ∀ i task, k.task? i = some task → task.Promises post) (hsound : k.Sound)
    (action : Action ι) : ∀ i task, (k.act action).task? i = some task → task.Promises post := by
  intro i task hi
  rcases task_act hi with hold | ⟨c, r, _, rfl⟩ | ⟨now, before, _, hbefore, rfl⟩
  · exact hpromises i task hold
  · exact hserve c r
  · have hprecedes := (hsound.tasks i before hbefore).precedes
    exact (hpromises i before hbefore).step hsound.orderly hprecedes

theorem Accounted.act (haccounted : k.Accounted) (hsound : k.Sound) (action : Action ι) :
    (k.act action).Accounted :=
  promises_act accounted_serve haccounted hsound action

/-- What holds at the start and is kept by every action holds after every run. -/
theorem run_induction {motive : Cluster ι → Prop} {time : DateTime} {roots : List (Name × String)}
    (hstart : motive (start (.rooted time roots)))
    (hact : ∀ k action, k.Sound → k.Accounted → motive k → motive (k.act action))
    (actions : List (Action ι)) : motive (run time roots actions) := by
  have hfold : ∀ k : Cluster ι, k.Sound → k.Accounted → motive k →
      motive (actions.foldl Cluster.act k) := by
    induction actions with
    | nil => exact fun k _ _ hk => hk
    | cons action actions ih =>
        intro k hsound haccounted hk
        have hafter := hact k action hsound haccounted hk
        exact ih _ (hsound.act action) (haccounted.act hsound action) hafter
  exact hfold _ (sound_start (founded_rooted time roots)) accounted_start hstart

theorem run_append_singleton (time : DateTime) (roots : List (Name × String))
    (actions : List (Action ι)) (action : Action ι) :
    run time roots (actions ++ [action]) = (run time roots actions).act action := by
  unfold run
  rw [List.foldl_append]
  rfl

theorem promises_run {post : Coordinator → Request → Trail → Except Failure Response → Prop}
    (hserve : ∀ (c : Coordinator) r, (c.serve r).Safe (c.Serves r.datamart) (post c r) [])
    (time : DateTime) (roots : List (Name × String)) (actions : List (Action ι)) :
    ∀ i task, (run time roots actions).task? i = some task → task.Promises post := by
  apply run_induction
    (motive := fun k => ∀ i task, k.task? i = some task → task.Promises post)
  · exact fun i task hi => nomatch hi
  · intro k action hsound _ hpromises
    exact promises_act hserve hpromises hsound action

theorem accounted_run (time : DateTime) (roots : List (Name × String))
    (actions : List (Action ι)) : (run time roots actions).Accounted :=
  promises_run accounted_serve time roots actions

/-- What is shown of every request from its beginning holds of its result in a run. -/
theorem post_of_result {post : Coordinator → Request → Trail → Except Failure Response → Prop}
    (hserve : ∀ (c : Coordinator) r, (c.serve r).Safe (c.Serves r.datamart) (post c r) [])
    {time : DateTime} {roots : List (Name × String)} {actions : List (Action ι)}
    {result : Except Failure Response} (hi : (run time roots actions).task? i = some task)
    (hresult : task.result? = some result) :
    post task.coordinator task.request task.trail result := by
  have hpromises := promises_run hserve time roots actions i task hi
  unfold Task.Promises at hpromises
  rw [Task.rest_of_result? hresult] at hpromises
  exact hpromises

/-- A step of a request that commits a transaction of a site: the move it makes there, by
the command of the request, and the answer that the request goes on to give. -/
structure Commits (k : Cluster ι) (s : Site) (i : ι) (now : DateTime) (task : Task) (m : Move)
    (response : Response) : Prop where
  found : k.task? i = some task
  commits : task.commits k.history.now = true
  serves : task.coordinator.Serves task.request.datamart s
  turns : s.Turns m k.history.now (k.act (.proceed i now)).history.now
  effect : Effect s task.trail k.history task.request.command m response
  concludes : (task.step k.history now).rest.Concludes (.ok response)

section Steps

variable (hsound : k.Sound) (haccounted : k.Accounted) (hi : k.task? i = some task)

include hsound haccounted hi

theorem exists_commits (hcommits : task.commits k.history.now = true) (now : DateTime) :
    ∃ s m response, k.Commits s i now task m response := by
  have hsafe := haccounted i task hi
  have hprecedes := (hsound.tasks i task hi).precedes
  have hnow : task.commits k.history.now = true := hcommits
  unfold Task.Accounted at hsafe
  unfold Task.commits at hcommits
  cases hrest : task.rest with
  | call c next =>
      rw [hrest] at hsafe hcommits
      obtain ⟨hproper, hnext⟩ := hsafe k.history hsound.orderly hprecedes
      have hlater := hsound.orderly.next hproper.changes
      obtain ⟨result, hconcludes, hpost⟩ := hnext.exists_conclusion hlater hprecedes.answered
        fun later result hpost => hpost.eq_nil_of_commits hcommits
      obtain ⟨before, s, m, response, htrail, _, rfl, hserves, hturns, heffect⟩ :=
        hpost.of_commits List.mem_cons_self hcommits
      injection htrail with _ hbefore
      subst hbefore
      have hafter : (k.act (.proceed i now)).history.now = (k.history.now.answer c).2 := by
        rw [act_proceed hi, advance, hrest]
        rfl
      refine ⟨s, m, response, hi, hnow, hserves, ?_, heffect, ?_⟩
      · rw [hafter]
        exact hturns
      · rw [Task.step, hrest]
        exact hconcludes
  | _ =>
      rw [hrest] at hcommits
      cases hcommits

theorem now_of_not_commits (hcommits : task.commits k.history.now = false) (now : DateTime) :
    (k.act (.proceed i now)).history.now = k.history.now := by
  have hsafe := haccounted i task hi
  have hprecedes := (hsound.tasks i task hi).precedes
  unfold Task.Accounted at hsafe
  unfold Task.commits at hcommits
  rw [act_proceed hi]
  unfold advance
  cases hrest : task.rest with
  | call c next =>
      rw [hrest] at hsafe hcommits
      obtain ⟨hproper, hnext⟩ := hsafe k.history hsound.orderly hprecedes
      have hlater := hsound.orderly.next hproper.changes
      obtain ⟨later, result, hpost⟩ := hnext.exists_end hlater hprecedes.answered
      exact hpost.same_of_not_commits (by simp) hcommits
  | _ => rfl

omit [DecidableEq ι] in
theorem quiet_of_not_commits
    (hnone : ∀ c h, .answered c h ∈ task.trail → c.commits h.now = false) :
    task.trail.Quiet := by
  have hprecedes := (hsound.tasks i task hi).precedes
  obtain ⟨later, result, hpost⟩ := (haccounted i task hi).exists_end hsound.orderly hprecedes
  intro c h hmem
  exact hpost.same_of_not_commits (List.mem_append_right _ hmem) (hnone c h hmem)

end Steps

theorem history_begin {c : Coordinator} {r : Request} :
    (k.act (.begin i c r)).history = k.history := by
  cases hi : k.task? i with
  | some task => simp only [act, hi]
  | none =>
      simp only [act, hi]
      rfl

theorem history_proceed_of_none (hi : k.task? i = none) :
    (k.act (.proceed i now)).history = k.history := by
  simp only [act, hi]

theorem history_act
    (hchanged : (k.act (.proceed i now)).history ≠ k.history) :
    ∃ task c next, k.task? i = some task ∧ task.rest = .call c next ∧
      (k.act (.proceed i now)).history = k.history.next (k.history.now.answer c).2 := by
  cases hi : k.task? i with
  | none =>
      simp only [Cluster.act, hi] at hchanged
      exact absurd rfl hchanged
  | some task =>
      have hact : k.act (.proceed i now) = k.advance i now task := by
        simp only [Cluster.act, hi]
      rw [hact] at hchanged ⊢
      unfold Cluster.advance at hchanged ⊢
      cases hrest : task.rest with
      | done result =>
          rw [hrest] at hchanged
          exact absurd rfl hchanged
      | call c next => exact ⟨task, c, next, rfl, hrest, rfl⟩
      | clock next =>
          rw [hrest] at hchanged
          exact absurd rfl hchanged
      | note notice next =>
          rw [hrest] at hchanged
          exact absurd rfl hchanged

theorem history_eq_or_next (action : Action ι) :
    (k.act action).history = k.history ∨ ∃ t, (k.act action).history = k.history.next t := by
  by_cases hsame : (k.act action).history = k.history
  · exact .inl hsame
  · cases action with
    | begin i c r => exact absurd history_begin hsame
    | proceed i now =>
        obtain ⟨_, c, _, _, _, hnext⟩ := history_act hsame
        exact .inr ⟨_, hnext⟩

theorem le_or_eq_of_le_act {h : History} {action : Action ι} (hle : h ≤ (k.act action).history) :
    h ≤ k.history ∨ h = (k.act action).history := by
  rcases history_eq_or_next (k := k) action with hsame | ⟨t, hnext⟩
  · rw [hsame] at hle
    exact .inl hle
  · rw [hnext] at hle ⊢
    cases hle with
    | refl => exact .inr rfl
    | next hle => exact .inl hle

theorem le_history_act (action : Action ι) : k.history ≤ (k.act action).history := by
  rcases history_eq_or_next (k := k) action with hsame | ⟨t, hnext⟩
  · rw [hsame]
    exact History.le_refl _
  · rw [hnext]
    exact History.le_next (History.le_refl _) t

theorem le_history_run {time : DateTime} {roots : List (Name × String)}
    {actions more : List (Action ι)} :
    (run time roots actions).history ≤ (run time roots (actions ++ more)).history := by
  unfold run
  rw [List.foldl_append]
  generalize actions.foldl act (start (.rooted time roots)) = k
  induction more generalizing k with
  | nil => exact History.le_refl _
  | cons action more ih => exact History.le_trans (le_history_act action) (ih _)

/-- A request that came in after some actions makes its calls after them. -/
theorem since_run {time : DateTime} {roots : List (Name × String)} {actions more : List (Action ι)}
    (hnone : (run time roots actions).task? i = none)
    (hi : (run time roots (actions ++ more)).task? i = some task) :
    task.trail.Since (run time roots actions).history := by
  induction more using List.reverseRecOn generalizing task with
  | nil =>
      rw [List.append_nil, hnone] at hi
      cases hi
  | append_singleton more action ih =>
      rw [← List.append_assoc, run_append_singleton] at hi
      rcases task_act hi with hold | ⟨c, r, _, rfl⟩ | ⟨now, before, _, hbefore, rfl⟩
      · exact ih hold
      · exact fun _ _ hmem => absurd hmem List.not_mem_nil
      · exact Task.since_step (ih hbefore) le_history_run now

/-- What an action does to the nodes of a site: nothing, unless it commits. -/
theorem nodes_act (hsound : k.Sound) (haccounted : k.Accounted) (s : Site) (action : Action ι) :
    (∀ p, p = s.root ∨ s.Owns p →
      (k.act action).history.now.nodes[p]? = k.history.now.nodes[p]?) ∨
        ∃ i now task m response, action = .proceed i now ∧ k.Commits s i now task m response := by
  cases action with
  | begin i c r =>
      left
      rw [history_begin]
      exact fun p _ => rfl
  | proceed i now =>
      cases hi : k.task? i with
      | none =>
          left
          rw [history_proceed_of_none hi]
          exact fun p _ => rfl
      | some task =>
          cases hcommits : task.commits k.history.now with
          | false =>
              left
              rw [now_of_not_commits hsound haccounted hi hcommits now]
              exact fun p _ => rfl
          | true =>
              obtain ⟨s', m, response, hcommit⟩ := exists_commits hsound haccounted hi hcommits now
              by_cases hsame : s = s'
              · subst hsame
                exact .inr ⟨i, now, task, m, response, rfl, hcommit⟩
              · left
                rintro p (rfl | howns)
                · exact hcommit.turns.frame _ Site.not_owns_root
                · exact (hcommit.turns.other hsame howns).symm

/-- What an action does to the book of a site: nothing, or the effect of a commit. -/
theorem book_act (hsound : k.Sound) (haccounted : k.Accounted) (s : Site) (action : Action ι) :
    s.book (k.act action).history.now = s.book k.history.now ∨
      ∃ i now task m response, action = .proceed i now ∧ k.Commits s i now task m response :=
  (nodes_act hsound haccounted s action).imp_left fun hsame =>
    Site.book_congr fun p howns => hsame p (.inr howns)

end Cluster

end DeltaLedger
