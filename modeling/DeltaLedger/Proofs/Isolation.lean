import DeltaLedger.Proofs.SeparateSubtrees

/-!
# Isolation of datamarts

Requests of different datamarts do not notice each other.  Take any run over any store, and
leave out all actions of the clients that are at work elsewhere: the clients of one datamart
hear the same replies to the same calls, and leave the subtree of the datamart the same.

This is shown step by step.  An action of a client of the datamart is made in both runs, and
its call has the same reply, as the two stores agree on the subtree.  An action of another
client is made in one run only, and leaves the subtree alone.
-/

namespace DeltaLedger

open Program

/-! ## What a request knows -/

/-- What a request hears: the reply to a call, or the time. -/
inductive Heard where
  | reply (c : Call) (reply : c.Reply)
  | told (now : DateTime)

def Sight.heard : Sight → Heard
  | .answered c h => .reply c (h.now.answer c).1
  | .told now => .told now

namespace Task

variable {task task' : Task} {h h' : History} {s : Site}

/-- All that a request knows, and all that it may still do: the calls of all its attempts so
far with their replies, and what follows, which is its result in the end. -/
def view (task : Task) : Coordinator × Request × List Heard × Program Failure Response :=
  (task.coordinator, task.request, task.trail.map Sight.heard, task.rest)

theorem result?_of_view (hview : task.view = task'.view) : task.result? = task'.result? := by
  simp only [view, Prod.mk.injEq] at hview
  simp only [result?, hview.2.2.2]

/-- The tree after the next step of a request. -/
def treeAfter (task : Task) (t : Tree) : Tree :=
  match task.rest with
  | .call c _ => (t.answer c).2
  | _ => t

theorem makes_step {holds : Call → Prop} {now : DateTime} (hmakes : task.rest.Makes holds) :
    (task.step h now).rest.Makes holds := by
  unfold step
  cases hrest : task.rest with
  | done result => rwa [hrest] at hmakes ⊢
  | call c next =>
      rw [hrest] at hmakes
      exact hmakes.2 _
  | clock next =>
      rw [hrest] at hmakes
      exact hmakes now
  | note notice next =>
      rw [hrest] at hmakes
      exact hmakes

/-- Two requests that know the same, in trees that agree, know the same after a step. -/
theorem view_step (now : DateTime) (hview : task.view = task'.view) (hmakes : task.rest.Makes (Call.Within s))
    (hagree : s.Agree h.now h'.now) : (task.step h now).view = (task'.step h' now).view ∧
      s.Agree (task.treeAfter h.now) (task'.treeAfter h'.now) := by
  obtain ⟨c, r, rest, trail⟩ := task
  obtain ⟨c', r', rest', trail'⟩ := task'
  simp only [view, Prod.mk.injEq] at hview
  obtain ⟨rfl, rfl, hheard, rfl⟩ := hview
  cases rest with
  | done result => exact ⟨by simp [step, view, hheard], hagree⟩
  | call call next =>
      obtain ⟨hreply, htrees⟩ := hagree.answer hmakes.1
      exact ⟨by simp [step, view, hheard, hreply, Sight.heard], htrees⟩
  | clock next => exact ⟨by simp [step, view, hheard], hagree⟩
  | note notice next => exact ⟨by simp [step, view, hheard], hagree⟩

theorem agree_treeAfter {t : Tree}
    (hmakes : task.rest.Makes fun c => ∃ s', s' ≠ s ∧ c.Within s') :
    s.Agree (task.treeAfter t) t := by
  unfold treeAfter
  cases hrest : task.rest with
  | call c next =>
      rw [hrest] at hmakes
      obtain ⟨s', hne, hwithin⟩ := hmakes.1
      exact t.agree_answer hwithin hne
  | _ => exact .refl s t

end Task

/-! ## Names that are refused -/

/-- A name that is refused comes to no store: neither as the name of a datamart, in a request
or for its root, nor as that of an environment. -/
structure Refuses (name : String) (fault : Name.Fault) : Prop where
  request (c : Coordinator) (command : Command) : (c.serve ⟨name, command⟩).Concludes
    (.error (command.fault?.getD (.badRequest
      (StoreError.invalidInput (fault.message "datamart")).message)))
  rootExists (env : Name) :
    (Datamart.rootExists env name).Concludes (.error (.invalidInput (fault.message "datamart")))
  ensureRoot (env : Name) :
    (Datamart.ensureRoot env name).Concludes (.error (.invalidInput (fault.message "datamart")))
  settings (settings : Settings) (henv : settings.envName = name) :
    settings.coordinator = .error (.badName fault)

theorem concludes_of_parseRoot {c : Coordinator} {r : Request} {e : StoreError}
    (hroot : Datamart.parseRoot c.env r.datamart = .error e) :
    (c.serve r).Concludes (.error (r.command.fault?.getD (.badRequest e.message))) := by
  unfold Coordinator.serve Coordinator.execute
  cases r.command.fault? with
  | some failure => rfl
  | none =>
      unfold Scope.enter
      rw [hroot]
      rfl

theorem refuses_of_parse {name : String} {fault : Name.Fault}
    (hparse : Name.parse name = .error fault) : Refuses name fault := by
  have hroot : ∀ env, Datamart.parseRoot env name =
      .error (.invalidInput (fault.message "datamart")) := by
    intro env
    simp only [Datamart.parseRoot, Datamart.parseName, Name.parseField, hparse]
  constructor
  case request =>
    intro c command
    exact concludes_of_parseRoot (r := ⟨name, command⟩) (hroot c.env)
  case rootExists =>
    intro env
    unfold Datamart.rootExists
    rw [hroot]
    rfl
  case ensureRoot =>
    intro env
    unfold Datamart.ensureRoot
    rw [hroot]
    rfl
  case settings =>
    rintro settings rfl
    unfold Settings.coordinator
    rw [hparse]

theorem makes_apart {c : Coordinator} {r : Request} {s : Site}
    (hsite : ∀ s', c.Serves r.datamart s' → s' ≠ s) :
    (c.serve r).Makes fun call => ∃ s', s' ≠ s ∧ call.Within s' := by
  rcases parseRoot_cases c r.datamart with ⟨s', hserves, _⟩ | ⟨e, hroot⟩
  · apply (confined_serve fun s'' hserves' => hserves'.unique hserves).makes.mono
    exact fun call hwithin => ⟨s', hsite s' hserves, hwithin⟩
  · exact (concludes_of_parseRoot hroot).makes

/-! ## Two runs -/

/-- The client that takes the action. -/
def Action.client {ι : Type} : Action ι → ι
  | .begin i _ _ => i
  | .proceed i _ => i

namespace Cluster

variable {ι : Type} {k k' : Cluster ι} {s : Site} {mine : ι → Bool} {i : ι}
variable {task : Task} {now : DateTime} {action : Action ι}

/-- Two clusters look the same to some clients, all at work at one site; the other clients
of the first are at work elsewhere. -/
structure Matches (s : Site) (mine : ι → Bool) (k k' : Cluster ι) : Prop where
  views : ∀ i, mine i = true → (k.task? i).map Task.view = (k'.task? i).map Task.view
  trees : s.Agree k.history.now k'.history.now
  within : ∀ i task, mine i = true → k.task? i = some task → task.rest.Makes (Call.Within s)
  apart : ∀ i task, mine i = false → k.task? i = some task →
    task.rest.Makes fun c => ∃ s', s' ≠ s ∧ c.Within s'

theorem matches_start (s : Site) (mine : ι → Bool) (t : Tree) :
    Matches s mine (start t) (start t) where
  views _ _ := rfl
  trees := .refl s t
  within _ _ _ hi := nomatch hi
  apart _ _ _ hi := nomatch hi

variable [DecidableEq ι]

theorem now_advance (hi : k.task? i = some task) :
    (k.act (.proceed i now)).history.now = task.treeAfter k.history.now := by
  rw [act_proceed hi]
  unfold advance Task.treeAfter
  cases task.rest <;> rfl

theorem task?_act_of_ne {j : ι} (hne : j ≠ action.client) :
    (k.act action).task? j = k.task? j := by
  cases action with
  | begin i c r =>
      cases hi : k.task? i with
      | some found => simp only [act, hi]
      | none =>
          simp only [act, hi]
          exact withTask_of_ne hne
  | proceed i now =>
      cases hi : k.task? i with
      | none => simp only [act, hi]
      | some found =>
          rw [act_proceed hi]
          exact advance_of_ne hne

/-- What the calls of some requests keep to, they keep to after an action. -/
theorem makes_act {among : Bool} {holds : Call → Prop}
    (hmakes : ∀ i task, mine i = among → k.task? i = some task → task.rest.Makes holds)
    (hbegins : ∀ i c r, action = .begin i c r → mine i = among → (c.serve r).Makes holds) :
    ∀ i task, mine i = among → (k.act action).task? i = some task → task.rest.Makes holds := by
  intro i task hamong hi
  rcases task_act hi with hold | ⟨c, r, rfl, rfl⟩ | ⟨now, before, _, hbefore, rfl⟩
  · exact hmakes i task hamong hold
  · exact hbegins i c r rfl hamong
  · exact Task.makes_step (hmakes i before hamong hbefore)

namespace Matches

variable (hmatches : k.Matches s mine k')
variable (hbegins : ∀ i c r, action = .begin i c r →
  ∀ s', c.Serves r.datamart s' → (mine i = true ↔ s' = s))

include hmatches

omit [DecidableEq ι] in
theorem exists_task {task : Task} (hmine : mine i = true) (hi : k.task? i = some task) :
    ∃ task', k'.task? i = some task' ∧ task.view = task'.view := by
  have hview := hmatches.views i hmine
  rw [hi, Option.map_some, eq_comm, Option.map_eq_some_iff] at hview
  obtain ⟨task', hi', hsame⟩ := hview
  exact ⟨task', hi', hsame.symm⟩

omit [DecidableEq ι] in
theorem eq_none (hmine : mine i = true) (hi : k.task? i = none) : k'.task? i = none := by
  have hview := hmatches.views i hmine
  rwa [hi, Option.map_none, eq_comm, Option.map_eq_none_iff] at hview

/-- The step that both clusters take. -/
theorem step_both (hmine : mine action.client = true) :
    ((k.act action).task? action.client).map Task.view =
        ((k'.act action).task? action.client).map Task.view ∧
      s.Agree (k.act action).history.now (k'.act action).history.now := by
  cases action with
  | begin i c r =>
      change mine i = true at hmine
      rw [history_begin, history_begin]
      refine ⟨?_, hmatches.trees⟩
      cases hi : k.task? i with
      | none =>
          have hi' := hmatches.eq_none hmine hi
          simp only [act, hi, hi', Action.client, withTask_self]
      | some task =>
          obtain ⟨task', hi', hview⟩ := hmatches.exists_task hmine hi
          simp only [act, hi, hi', Action.client, Option.map_some, hview]
  | proceed i now =>
      change mine i = true at hmine
      cases hi : k.task? i with
      | none =>
          have hi' := hmatches.eq_none hmine hi
          rw [history_proceed_of_none hi, history_proceed_of_none hi']
          simp only [act, Action.client, hi, hi']
          exact ⟨trivial, hmatches.trees⟩
      | some task =>
          obtain ⟨task', hi', hview⟩ := hmatches.exists_task hmine hi
          obtain ⟨hviews, htrees⟩ :=
            Task.view_step now hview (hmatches.within i task hmine hi) hmatches.trees
          rw [now_advance hi, now_advance hi', act_proceed hi, act_proceed hi']
          exact ⟨by simp only [Action.client, advance_self hi, advance_self hi', Option.map_some,
            hviews], htrees⟩

include hbegins

theorem within_act : ∀ i task, mine i = true → (k.act action).task? i = some task →
    task.rest.Makes (Call.Within s) := by
  apply makes_act hmatches.within
  intro i c r haction hmine
  apply (confined_serve _).makes
  intro s' hserves
  exact (hbegins i c r haction s' hserves).mp hmine

theorem apart_act : ∀ i task, mine i = false → (k.act action).task? i = some task →
    task.rest.Makes fun c => ∃ s', s' ≠ s ∧ c.Within s' := by
  apply makes_act hmatches.apart
  intro i c r haction hother
  apply makes_apart
  rintro s' hserves rfl
  rw [(hbegins i c r haction s' hserves).mpr rfl] at hother
  cases hother

/-- An action of one of the clients keeps the match, if both clusters take it. -/
theorem act_both (hmine : mine action.client = true) :
    (k.act action).Matches s mine (k'.act action) where
  views j hj := by
    by_cases hsame : j = action.client
    · subst hsame
      exact (hmatches.step_both hmine).1
    · rw [task?_act_of_ne hsame, task?_act_of_ne hsame]
      exact hmatches.views j hj
  trees := (hmatches.step_both hmine).2
  within := hmatches.within_act hbegins
  apart := hmatches.apart_act hbegins

/-- An action of another client keeps the match, if only the first cluster takes it. -/
theorem act_first (hother : mine action.client = false) :
    (k.act action).Matches s mine k' where
  views j hj := by
    have hne : j ≠ action.client := by
      rintro rfl
      rw [hj] at hother
      cases hother
    rw [task?_act_of_ne hne]
    exact hmatches.views j hj
  trees := by
    cases action with
    | begin i c r =>
        rw [history_begin]
        exact hmatches.trees
    | proceed i now =>
        cases hi : k.task? i with
        | none =>
            rw [history_proceed_of_none hi]
            exact hmatches.trees
        | some task =>
            rw [now_advance hi]
            exact (Task.agree_treeAfter (hmatches.apart i task hother hi)).trans hmatches.trees
  within := hmatches.within_act hbegins
  apart := hmatches.apart_act hbegins

end Matches

/-- A run over any store. -/
def runFrom (t : Tree) (actions : List (Action ι)) : Cluster ι :=
  actions.foldl act (start t)

/-- What some clients do in a run. -/
def among (mine : ι → Bool) (actions : List (Action ι)) : List (Action ι) :=
  actions.filter fun action => mine action.client

/-- Leaving out what the other clients do keeps the match. -/
theorem Matches.filter {actions : List (Action ι)} (hmatches : k.Matches s mine k')
    (hsites : ∀ i c r, .begin i c r ∈ actions →
      ∀ s', c.Serves r.datamart s' → (mine i = true ↔ s' = s)) :
    (actions.foldl act k).Matches s mine ((among mine actions).foldl act k') := by
  induction actions generalizing k k' with
  | nil => exact hmatches
  | cons action actions ih =>
      have hbegins : ∀ i c r, action = .begin i c r →
          ∀ s', c.Serves r.datamart s' → (mine i = true ↔ s' = s) := by
        rintro i c r rfl
        exact hsites i c r List.mem_cons_self
      have hlater : ∀ i c r, .begin i c r ∈ actions →
          ∀ s', c.Serves r.datamart s' → (mine i = true ↔ s' = s) :=
        fun i c r hmem => hsites i c r (List.mem_cons_of_mem _ hmem)
      cases hmine : mine action.client with
      | true =>
          rw [among, List.filter_cons_of_pos (by simp [hmine])]
          exact ih (hmatches.act_both hbegins hmine) hlater
      | false =>
          rw [among, List.filter_cons_of_neg (by simp [hmine])]
          exact ih (hmatches.act_first hbegins hmine) hlater

omit [DecidableEq ι] in
theorem Matches.result?_eq (hmatches : k.Matches s mine k') (hmine : mine i = true) :
    k.result? i = k'.result? i := by
  unfold result?
  cases hi : k.task? i with
  | none => rw [hmatches.eq_none hmine hi]
  | some task =>
      obtain ⟨task', hi', hview⟩ := hmatches.exists_task hmine hi
      rw [hi']
      exact Task.result?_of_view hview

/-- Datamarts are isolated.  Whatever is in the store and however the requests take turns, the
clients of one datamart hear and answer the same as if those of the others had never come,
and leave its subtree the same, contents and versions.  No request for the datamart changes a
node outside of the subtree, and a text that is not a name is refused before any call. -/
theorem datamarts_isolated {ι : Type} [DecidableEq ι] (t : Tree) (s : Site) (mine : ι → Bool)
    (actions : List (Action ι))
    (hsites : ∀ i c r, .begin i c r ∈ actions →
      ∀ s', c.Serves r.datamart s' → (mine i = true ↔ s' = s)) :
    (∀ i, mine i = true →
        ((runFrom t actions).task? i).map Task.view =
            ((runFrom t (among mine actions)).task? i).map Task.view ∧
          (runFrom t actions).result? i = (runFrom t (among mine actions)).result? i) ∧
      s.Agree (runFrom t actions).history.now (runFrom t (among mine actions)).history.now ∧
      (∀ (c : Coordinator) r, c.Serves r.datamart s → (c.serve r).Makes fun call =>
        ∀ (t' : Tree) p, ¬s.Region p → (t'.answer call).2.nodes[p]? = t'.nodes[p]?) ∧
      ∀ name fault, Name.parse name = .error fault → Refuses name fault := by
  have hmatches := (matches_start s mine t).filter hsites
  refine ⟨fun i hmine => ⟨hmatches.views i hmine, hmatches.result?_eq hmine⟩, hmatches.trees,
    fun c r hserves => ?_, fun name fault => refuses_of_parse⟩
  apply (confined_serve fun s' hserves' => hserves'.unique hserves).makes.mono
  exact fun call hwithin t' p hp => t'.getElem?_answer hwithin hp

section Samples

/-- Two datamarts, one with the other's name for its beginning, are opened at once. -/
def neighbours : List (Action Nat) :=
  Sample.begins 0 .openDelta :: .begin 1 Sample.coordinator ⟨"dtm2", .openDelta⟩ ::
    (List.replicate 20 [.proceed 0 Sample.time, .proceed 1 Sample.time]).flatten

/-- The roots of both. -/
def neighbouringRoots : Tree :=
  .rooted Sample.time [(Sample.env, "dtm"), (Sample.env, "dtm2")]

theorem datamarts_isolated_neighbours :
    ((runFrom neighbouringRoots neighbours).result? 0).any Except.isOk = true ∧
      ((runFrom neighbouringRoots neighbours).result? 1).any Except.isOk = true ∧
      (∀ i c r, .begin i c r ∈ neighbours →
        ∀ s', c.Serves r.datamart s' → (decide (i = 0) = true ↔ s' = Sample.site)) ∧
      (runFrom neighbouringRoots neighbours).result? 0 =
        (runFrom neighbouringRoots (among (fun i => decide (i = 0)) neighbours)).result? 0 := by
  have hsites : ∀ i c r, .begin i c r ∈ neighbours →
      ∀ s', c.Serves r.datamart s' → (decide (i = 0) = true ↔ s' = Sample.site) := by
    intro i c r hmem s' hserves
    simp only [neighbours, Sample.begins, List.mem_cons, Action.begin.injEq] at hmem
    rcases hmem with ⟨rfl, rfl, rfl⟩ | ⟨rfl, rfl, rfl⟩ | hmem
    · exact iff_of_true rfl (hserves.unique Sample.serves_site)
    · refine iff_of_false (by decide) ?_
      rintro rfl
      exact absurd hserves.2 (by decide)
    · simp at hmem
  exact ⟨by decide +kernel, by decide +kernel, hsites,
    ((datamarts_isolated neighbouringRoots Sample.site (fun i => decide (i = 0)) neighbours
      hsites).1 0 rfl).2⟩

end Samples

end Cluster
end DeltaLedger
