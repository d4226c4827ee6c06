import DeltaLedger.Proofs.Issuance
import DeltaLedger.Proofs.SeparateSubtrees

/-!
# Rivals

Only a commit of its datamart changes the subtree of a site.  So if the subtree was not the
same when a request made two of its calls, another client has committed a transaction of the
datamart in between.  The request does not race against itself: after a commit of its own it
makes no more calls.
-/

namespace DeltaLedger

theorem Program.Concludes.step {task : Task} {result : Except Failure Response} {h : History}
    {now : DateTime} (hconcludes : task.rest.Concludes result) :
    (task.step h now).rest.Concludes result ∧ (task.step h now).trail = task.trail := by
  unfold Task.step
  cases hrest : task.rest with
  | done found =>
      rw [hrest] at hconcludes
      exact ⟨by rw [hrest]; exact hconcludes, rfl⟩
  | call c next =>
      rw [hrest] at hconcludes
      exact hconcludes.elim
  | clock next =>
      rw [hrest] at hconcludes
      exact hconcludes.elim
  | note notice next =>
      rw [hrest] at hconcludes
      exact ⟨hconcludes, rfl⟩

namespace Cluster

variable {ι : Type} [DecidableEq ι] {k : Cluster ι} {s : Site} {i : ι} {now : DateTime}
variable {task : Task} {m : Move} {response : Response}

/-- What an action does to the subtree of a site: nothing, unless it commits. -/
theorem agree_act (hsound : k.Sound) (haccounted : k.Accounted) (s : Site) (action : Action ι) :
    s.Agree (k.act action).history.now k.history.now ∨
      ∃ i now task m response, action = .proceed i now ∧ k.Commits s i now task m response :=
  (nodes_act hsound haccounted s action).imp_left fun hsame =>
    ⟨hsame s.root (.inl rfl), fun p hregion => hsame p (.inr hregion.owns)⟩

theorem Commits.exists_next (hcommit : k.Commits s i now task m response) :
    ∃ t, (k.act (.proceed i now)).history = k.history.next t := by
  have hcommits := hcommit.commits
  unfold Task.commits at hcommits
  rw [act_proceed hcommit.found, advance]
  cases hrest : task.rest with
  | call c next => exact ⟨_, rfl⟩
  | _ =>
      rw [hrest] at hcommits
      cases hcommits

section Runs

variable {time : DateTime} {roots : List (Name × String)} {actions : List (Action ι)}

/-- After a commit the trail of the request stays as it is. -/
theorem Commits.trail_run (hcommit : (run time roots actions).Commits s i now task m response)
    (later : List (Action ι)) :
    ∃ task', (run time roots (actions ++ .proceed i now :: later)).task? i = some task' ∧
      task'.rest.Concludes (.ok response) ∧
        task'.trail = (task.step (run time roots actions).history now).trail := by
  induction later using List.reverseRecOn with
  | nil =>
      rw [run_append_singleton, act_proceed hcommit.found]
      exact ⟨_, advance_self hcommit.found, hcommit.concludes, rfl⟩
  | append_singleton later action ih =>
      obtain ⟨task', hi, hconcludes, htrail⟩ := ih
      rw [← List.cons_append, ← List.append_assoc, run_append_singleton]
      rcases task?_act hi action with hsame | ⟨now', hstep⟩
      · exact ⟨task', hsame, hconcludes, htrail⟩
      · obtain ⟨hconcludes', htrail'⟩ := hconcludes.step
        exact ⟨_, hstep, hconcludes', htrail'.trans htrail⟩

/-- At step `n` of a run a client other than `i` commits a transaction of a site, after one
moment and before another. -/
def Rival (time : DateTime) (roots : List (Name × String)) (actions : List (Action ι)) (s : Site)
    (i : ι) (n : Nat) (j h : History) : Prop :=
  ∃ rival now task m response, rival ≠ i ∧ actions[n]? = some (.proceed rival now) ∧
    (run time roots (actions.take n)).Commits s rival now task m response ∧
      j ≤ (run time roots (actions.take n)).history ∧
        (run time roots (actions.take (n + 1))).history ≤ h

/-- Another client commits at step `n`, between two calls of the request. -/
def Overlapped (time : DateTime) (roots : List (Name × String)) (actions : List (Action ι))
    (s : Site) (i : ι) (task : Task) (n : Nat) : Prop :=
  ∃ c j c' h, .answered c j ∈ task.trail ∧ .answered c' h ∈ task.trail ∧
    Rival time roots actions s i n j h

theorem run_take_succ {n : Nat} {action : Action ι} (hn : actions[n]? = some action) :
    run time roots (actions.take (n + 1)) = (run time roots (actions.take n)).act action := by
  rw [← run_append_singleton, List.take_add_one, hn]
  rfl

theorem exists_commit_between {j u : History} (hu : u ≤ (run time roots actions).history)
    (hj : j ≤ u) (hchanged : ¬s.Agree u.now j.now) :
    ∃ n i now task m response, actions[n]? = some (.proceed i now) ∧
      (run time roots (actions.take n)).Commits s i now task m response ∧
        j ≤ (run time roots (actions.take n)).history ∧
          (run time roots (actions.take (n + 1))).history ≤ u := by
  induction actions using List.reverseRecOn generalizing u with
  | nil =>
      cases hu with
      | refl =>
          cases hj with
          | refl => exact absurd (.refl s _) hchanged
  | append_singleton actions action ih =>
      have hkeep : ∀ {u' : History}, u' ≤ u →
          (∃ n i now task m response, actions[n]? = some (.proceed i now) ∧
            (run time roots (actions.take n)).Commits s i now task m response ∧
              j ≤ (run time roots (actions.take n)).history ∧
                (run time roots (actions.take (n + 1))).history ≤ u') →
          ∃ n i now task m response, (actions ++ [action])[n]? = some (.proceed i now) ∧
            (run time roots ((actions ++ [action]).take n)).Commits s i now task m response ∧
              j ≤ (run time roots ((actions ++ [action]).take n)).history ∧
                (run time roots ((actions ++ [action]).take (n + 1))).history ≤ u := by
        rintro u' hle ⟨n, i, now, task, m, response, hn, hcommit, hfrom, hto⟩
        have hlt : n < actions.length := (List.getElem?_eq_some_iff.mp hn).1
        have htake : (actions ++ [action]).take n = actions.take n :=
          List.take_append_of_le_length (Nat.le_of_lt hlt)
        have htake' : (actions ++ [action]).take (n + 1) = actions.take (n + 1) :=
          List.take_append_of_le_length hlt
        refine ⟨n, i, now, task, m, response, (List.getElem?_append_left hlt).trans hn, ?_⟩
        rw [htake, htake']
        exact ⟨hcommit, hfrom, History.le_trans hto hle⟩
      rw [run_append_singleton] at hu
      rcases le_or_eq_of_le_act hu with hbefore | rfl
      · exact hkeep (History.le_refl u) (ih hbefore hj hchanged)
      · rcases le_or_eq_of_le_act hj with hbefore | rfl
        · have hsound := sound_run time roots actions
          rcases agree_act hsound (accounted_run time roots actions) s action with
            hagree | ⟨i, now, task, m, response, rfl, hcommit⟩
          · exact hkeep (le_history_act action) (ih (History.le_refl _) hbefore
              fun hsame => hchanged (hagree.trans hsame))
          · have hlast : (actions ++ [Action.proceed i now])[actions.length]? =
                some (.proceed i now) := List.getElem?_concat_length
            refine ⟨actions.length, i, now, task, m, response, hlast, ?_⟩
            rw [run_take_succ hlast, List.take_left]
            exact ⟨hcommit, hbefore, History.le_refl _⟩
        · exact absurd (.refl s _) hchanged

/-- What changes between two calls of a request was changed by another client. -/
theorem exists_rival {c : Call} {j u h : History}
    (hi : (run time roots actions).task? i = some task) (hmem : .answered c h ∈ task.trail)
    (hj : j ≤ u) (hu : u ≤ h) (hchanged : ¬s.Agree u.now j.now) :
    ∃ n, Rival time roots actions s i n j h := by
  have hh := ((sound_run time roots actions).tasks i task hi).precedes.le hmem
  obtain ⟨n, rival, now, task', m, response, hn, hcommit, hfrom, hto⟩ :=
    exists_commit_between (History.le_trans hu hh) hj hchanged
  obtain ⟨t, hnext⟩ := hcommit.exists_next
  have hto' := History.le_trans hto hu
  refine ⟨n, rival, now, task', m, response, ?_, hn, hcommit, hfrom, hto'⟩
  rintro rfl
  -- After its commit the request would have made no other call.
  rw [run_take_succ hn, hnext] at hto'
  obtain ⟨hlt, hget⟩ := List.getElem?_eq_some_iff.mp hn
  have hsplit : actions = actions.take n ++ .proceed rival now :: actions.drop (n + 1) := by
    rw [← hget, List.getElem_cons_drop, List.take_append_drop]
  obtain ⟨found, hfound, _, htrail⟩ := hcommit.trail_run (actions.drop (n + 1))
  rw [← hsplit, hi] at hfound
  cases hfound
  obtain ⟨call, hcall, _⟩ := hcommit.exists_call
  rw [htrail, hcall] at hmem
  rcases List.mem_cons.mp hmem with hhead | htail
  · cases hhead
    exact History.not_next_le hto'
  · have hsound := (sound_run time roots (actions.take n)).tasks rival task' hcommit.found
    exact History.not_next_le (History.le_trans hto' (hsound.precedes.le htail))

theorem Rival.lt {n n' : Nat} {j j' h h' : History} (hrival : Rival time roots actions s i n j h)
    (hrival' : Rival time roots actions s i n' j' h') (hle : h ≤ j') : n < n' := by
  obtain ⟨_, now, _, _, _, _, hn, hcommit, _, hto⟩ := hrival
  obtain ⟨_, _, _, _, _, _, _, _, hfrom, _⟩ := hrival'
  obtain ⟨t, hnext⟩ := hcommit.exists_next
  rw [run_take_succ hn, hnext] at hto
  refine Nat.lt_of_not_le fun hback => ?_
  have hprefix : (run time roots (actions.take n')).history ≤
      (run time roots (actions.take n)).history := by
    obtain ⟨more, hmore⟩ := List.take_prefix_take_left hback
    rw [← hmore]
    exact le_history_run
  exact History.not_next_le
    (History.le_trans hto (History.le_trans hle (History.le_trans hfrom hprefix)))

end Runs

end Cluster

end DeltaLedger
