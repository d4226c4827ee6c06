import DeltaLedger.NodeTree.Observed
import DeltaLedger.Proofs.AttemptRuns
import DeltaLedger.Proofs.UnopposedAttempts

/-!
# Races of a request

A transaction of a request is aborted only if the subtree of its datamart changed since the
first read of the attempt: otherwise the attempt would have gone as it goes alone, and alone
it is not beaten.  A request gives up for lost races only after as many aborted transactions
as it may make attempts, and everything else that it fails with is final.
-/

namespace DeltaLedger

open Program

/-- Between two moments the subtree of a site changed. -/
def Site.Disturbed (s : Site) (j h : History) : Prop :=
  ∃ u, j ≤ u ∧ u ≤ h ∧ ¬s.Agree u.now j.now

/-- The sight of a transaction that was aborted. -/
def Sight.lost : Sight → Bool
  | .answered c h => c.isTransaction && !c.commits h.now
  | .told _ => false

theorem Sight.lost_of_inquires {c : Call} {h : History} (hinquires : c.inquires = true) :
    Sight.lost (.answered c h) = false := by
  cases c with
  | read | children => rfl
  | _ => cases hinquires

namespace Trail

variable {between between' : History → History → Prop} {trail window : Trail}

/-- Every transaction that was aborted lost a race, between the first read of its attempt and
the moment when it was served. -/
def Raced (between : History → History → Prop) : Trail → Prop
  | [] => True
  | .told _ :: trail => Raced between trail
  | .answered c h :: trail => Raced between trail ∧
      (Sight.lost (.answered c h) = true → ∃ j, firstRead trail = some j ∧ between j h)

/-- How many transactions were aborted. -/
def losses (trail : Trail) : Nat :=
  trail.countP Sight.lost

theorem Inquires.tail {sight : Sight} (hinquires : Inquires (sight :: window)) : Inquires window :=
  fun c h hmem => hinquires c h (List.mem_cons_of_mem _ hmem)

theorem Raced.append (hraced : trail.Raced between) (hinquires : window.Inquires) :
    Raced between (window ++ trail) := by
  induction window with
  | nil => exact hraced
  | cons sight window ih =>
      have hrest := ih hinquires.tail
      cases sight with
      | told now => exact hrest
      | answered c h =>
          refine ⟨hrest, fun hlost => ?_⟩
          rw [Sight.lost_of_inquires (hinquires c h List.mem_cons_self)] at hlost
          cases hlost

theorem losses_append (trail : Trail) (hinquires : window.Inquires) :
    losses (window ++ trail) = losses trail := by
  have hnone : window.countP Sight.lost = 0 := by
    rw [List.countP_eq_zero]
    intro sight hmem
    cases sight with
    | told now => exact Bool.false_ne_true
    | answered c h => simp [Sight.lost_of_inquires (hinquires c h hmem)]
  rw [losses, List.countP_append, hnone, Nat.zero_add]
  rfl

theorem Raced.of_append (hraced : Raced between (window ++ trail)) : trail.Raced between := by
  induction window with
  | nil => exact hraced
  | cons sight window ih =>
      cases sight with
      | told now => exact ih hraced
      | answered c h => exact ih hraced.1

theorem Raced.mono (hraced : trail.Raced between)
    (himp : ∀ j c h, .answered c h ∈ trail → Sight.lost (.answered c h) = true →
      between j h → between' j h) : trail.Raced between' := by
  induction trail with
  | nil => trivial
  | cons sight trail ih =>
      have hrest : ∀ j c h, .answered c h ∈ trail → Sight.lost (.answered c h) = true →
          between j h → between' j h :=
        fun j c h hmem => himp j c h (List.mem_cons_of_mem _ hmem)
      cases sight with
      | told now => exact ih hraced hrest
      | answered c h =>
          refine ⟨ih hraced.1 hrest, fun hlost => ?_⟩
          obtain ⟨j, hfirst, hbetween⟩ := hraced.2 hlost
          exact ⟨j, hfirst, himp j c h List.mem_cons_self hlost hbetween⟩

end Trail

/-! ## Attempts -/

/-- Where a request stands before an attempt. -/
structure Trail.Entered (s : Site) (trail : Trail) : Prop where
  fresh : trail.firstRead = none
  chronological : trail.Chronological
  root : ∃ c h, .answered c h ∈ trail ∧ h.now.has s.root = true
  raced : trail.Raced s.Disturbed

section Attempts

variable {γ : Type} {attempt : Program Failure (Option γ)} {trail seen window : Trail} {s : Site}
variable {looks : Bool} {h : History} {steps : List Step} {command : Command}
variable (htries : attempt.Tries s looks) (hprevails : attempt.Prevails s command)

include htries hprevails

/-- An attempt is aborted only if the subtree changed since its first read. -/
theorem exists_disturbed (hentered : trail.Entered s) (hwindow : window.Inquires)
    (horderly : h.Orderly) (hprecedes : Trail.Precedes (window ++ trail) h)
    (hrun : attempt.Run trail (.answered (.transact steps) h :: (window ++ trail)) (.ok none)) :
    ∃ j, Trail.firstRead (window ++ trail) = some j ∧ s.Disturbed j h := by
  obtain ⟨submitted, hseen, _, ⟨time, htime⟩, halone⟩ := htries.asAlone hrun
  obtain rfl : .answered (.transact steps) h :: window = submitted :=
    List.append_cancel_right hseen
  have hroot : h.now.has s.root = true := by
    obtain ⟨c, first, hmem, hroot⟩ := hentered.root
    rw [horderly.has_root (hprecedes.le (List.mem_append_right _ hmem)) s, hroot]
  have hchronological := (hrun.chronological hentered.chronological).2
  rcases Trail.firstRead_append hwindow hentered.fresh hchronological with
    ⟨_, hempty⟩ | ⟨j, hfirst, ⟨c, hmem⟩, hle⟩
  · -- Without a read there is nothing to be outdated.
    have hsteady : Trail.Steady s time h.now (.answered (.transact steps) h :: window) := by
      refine ⟨fun c u hmem => ?_, htime⟩
      rcases List.mem_cons.mp hmem with hhead | htail
      · cases hhead
        exact .refl s _
      · exact absurd htail (hempty c u)
    exact absurd (halone time h.now hsteady).1
      (hprevails.not_beaten (horderly.kept s) (horderly.valid s) hroot)
  · refine ⟨j, hfirst, Classical.byContradiction fun hcalm => ?_⟩
    have hj : j ≤ h := hprecedes.le (List.mem_append_left _ hmem)
    have hagree : ∀ u, j ≤ u → u ≤ h → s.Agree u.now j.now :=
      fun u hfrom hto => Classical.byContradiction fun hnot => hcalm ⟨u, hfrom, hto, hnot⟩
    have hsteady : Trail.Steady s time j.now (.answered (.transact steps) h :: window) := by
      refine ⟨fun c u hmem => ?_, htime⟩
      rcases List.mem_cons.mp hmem with hhead | htail
      · cases hhead
        exact hagree h hj (History.le_refl h)
      · exact hagree u (hle c u htail) (hprecedes.le (List.mem_append_left _ htail))
    have horderly' := horderly.of_le hj
    rw [horderly.has_root hj s] at hroot
    exact hprevails.not_beaten (horderly'.kept s) (horderly'.valid s) hroot
      (halone time j.now hsteady).1

/-- After an attempt that was beaten the request is ready for the next one. -/
theorem entered_of_beaten (hentered : trail.Entered s)
    (hrun : attempt.Run trail seen (.ok none)) :
    seen.Entered s ∧ seen.losses = trail.losses + 1 := by
  have hchronological := hrun.chronological hentered.chronological
  have hattempted := htries.attempted hrun
  generalize hresult : (Except.ok none : Except Failure (Option γ)) = result at hattempted
  cases hattempted with
  | failed | content | committed => cases hresult
  | @aborted window steps h hwindow horderly hprecedes hcommits =>
      have hlost : Sight.lost (.answered (.transact steps) h) = true := by
        simp [Sight.lost, Call.isTransaction, hcommits]
      have hraced := hentered.raced.append hwindow
      constructor
      · obtain ⟨c, first, hmem, hroot⟩ := hentered.root
        refine ⟨rfl, hchronological, ⟨c, first, by simp [hmem], hroot⟩, hraced, fun _ => ?_⟩
        exact exists_disturbed htries hprevails hentered hwindow horderly hprecedes hrun
      · rw [Trail.losses, List.countP_cons_of_pos hlost, ← Trail.losses_append trail hwindow]
        rfl

end Attempts

/-! ## Requests -/

/-- The end of a request: what was aborted lost a race, and what fails the request is final,
unless all its attempts lost their races. -/
structure Contested {α : Type} (s : Site) (attempts : Nat) (seen : Trail)
    (result : Except Failure α) : Prop where
  raced : seen.Raced s.Disturbed
  lost : ∀ e, result = .error e → e.isRetryable = true → seen.losses = attempts

section Requests

variable {γ : Type} {attempt : Program Failure (Option γ)} {trail seen : Trail} {s : Site}
variable {looks : Bool} {scope : Scope} {command : Command}

theorem contested_of_final {α : Type} {e : Failure} {attempts : Nat}
    (hraced : seen.Raced s.Disturbed) (hfinal : e.isRetryable = false) :
    Contested s attempts seen (.error e : Except Failure α) := by
  refine ⟨hraced, ?_⟩
  rintro e' ⟨⟩ hretry
  rw [hfinal] at hretry
  cases hretry

theorem contested_attempts {result : Except Failure γ} (htries : attempt.Tries s looks)
    (hprevails : attempt.Prevails s command) (left : Nat) (hentered : trail.Entered s)
    (hrun : (scope.attempts attempt left).Run trail seen result) :
    Contested s (trail.losses + left) seen result := by
  induction left generalizing trail with
  | zero =>
      obtain ⟨rfl, rfl⟩ := hrun
      exact ⟨hentered.raced, fun _ _ _ => rfl⟩
  | succ left ih =>
      rcases hrun.of_bind with ⟨e, herror, rfl⟩ | ⟨middle, found, hok, hlater⟩
      · have hattempted := htries.attempted herror
        cases hattempted with
        | failed hwindow hfinal => exact contested_of_final (hentered.raced.append hwindow) hfinal
      · cases found with
        | none =>
            obtain ⟨hentered', hlosses⟩ := entered_of_beaten htries hprevails hentered hok
            have hcontested := ih hentered' hlater
            rw [hlosses, Nat.add_assoc, Nat.add_comm 1 left] at hcontested
            exact hcontested
        | some a =>
            obtain ⟨rfl, rfl⟩ := hlater
            have hattempted := htries.attempted hok
            cases hattempted with
            | content hwindow => exact ⟨hentered.raced.append hwindow, nofun⟩
            | committed hwindow hcommits =>
                refine ⟨⟨hentered.raced.append hwindow, fun hlost => ?_⟩, nofun⟩
                simp [Sight.lost, hcommits] at hlost

theorem Scope.Carries.contested {result : Except Failure Response}
    (hcarries : scope.Carries s command looks) (hentered : trail.Entered s)
    (hrun : (scope.perform command).Run trail seen result) :
    Contested s (trail.losses + scope.coordinator.attempts) seen result := by
  obtain ⟨⟨notice, hperform⟩, htries, hprevails⟩ := hcarries
  rw [hperform] at hrun
  rcases hrun.of_bind with ⟨e, herror, rfl⟩ | ⟨middle, a, hok, hlater⟩
  · obtain ⟨hraced, hlost⟩ := contested_attempts htries hprevails _ hentered herror
    exact ⟨hraced, fun e' he => hlost e' (by cases he; rfl)⟩
  · obtain ⟨rfl, rfl⟩ := hlater
    exact ⟨(contested_attempts htries hprevails _ hentered hok).raced, nofun⟩

theorem Trail.Entered.told (hentered : trail.Entered s) (now : DateTime) :
    Trail.Entered s (.told now :: trail) := by
  obtain ⟨hfresh, hchronological, ⟨c, h, hmem, hroot⟩, hraced⟩ := hentered
  exact ⟨hfresh, hchronological, ⟨c, h, List.mem_cons_of_mem _ hmem, hroot⟩, hraced⟩

theorem contested_perform {result : Except Failure Response} (hlayout : scope.layout = s.layout)
    (hentered : trail.Entered s) (hrun : (scope.perform command).Run trail seen result) :
    Contested s (trail.losses + scope.coordinator.attempts) seen result := by
  rcases asks_or_carries hlayout command with hasks | rfl | ⟨looks, hcarries⟩
  · obtain ⟨hblameless, window, rfl, hwindow, _⟩ := (confined_asks hlayout hasks).run hrun
    refine ⟨hentered.raced.append hwindow, fun e he hretry => ?_⟩
    rw [(hblameless e he).2 rfl] at hretry
    cases hretry
  · rw [perform_commitDelta_none] at hrun
    obtain ⟨now, hlater⟩ := hrun
    have hcontested := (carries_promote hlayout _).contested (hentered.told now) hlater
    exact hcontested
  · exact hcarries.contested hentered hrun

/-- A request is refused at sight, does not find its datamart, or carries out its command. -/
theorem Program.Run.of_serve {c : Coordinator} {r : Request} {result : Except Failure Response}
    (hrun : (c.serve r).Run [] seen result) (hserves : c.Serves r.datamart s) :
    (r.command.fault? = some .noTableName ∧ seen = [] ∧ result = .error .noTableName) ∨
      r.command.fault? = none ∧ ∃ h : History, h.Orderly ∧
        ((h.now.has s.root = false ∧ seen = [.answered (.stat s.root.text) h] ∧
            result = .error (.noDatamart r.datamart)) ∨
          (h.now.has s.root = true ∧ ((scopeAt c r s).perform r.command).Run
            [.answered (.stat s.root.text) h] seen result)) := by
  obtain ⟨middle, found, hexecute, hconclude⟩ := Run.of_andThen hrun
  have hend : seen = middle ∧ result = found := by
    cases found <;> exact hconclude
  obtain ⟨rfl, rfl⟩ := hend
  unfold Coordinator.execute at hexecute
  cases hfault : r.command.fault? with
  | some failure =>
      rw [hfault] at hexecute
      obtain rfl := eq_noTableName_of_fault? hfault
      exact .inl ⟨rfl, hexecute⟩
  | none =>
      rw [hfault] at hexecute
      unfold Scope.enter at hexecute
      rw [parseRoot_of_serves hserves] at hexecute
      obtain ⟨h, horderly, hprecedes, hnext⟩ := hexecute
      rw [Tree.answer_stat] at hnext
      refine .inr ⟨rfl, h, horderly, ?_⟩
      cases hnode : h.now.find? s.root with
      | none =>
          rw [hnode] at hnext
          exact .inl ⟨by simp [Tree.has, hnode], hnext⟩
      | some node =>
          rw [hnode] at hnext
          have hperform : ((scopeAt c r s).perform r.command).Run
              [.answered (.stat s.root.text) h] seen result := by
            unfold scopeAt
            rw [s.layout_eq_below]
            exact hnext
          exact .inr ⟨by simp [Tree.has, hnode], hperform⟩

theorem contested_serve {c : Coordinator} {r : Request} {result : Except Failure Response}
    (hserves : c.Serves r.datamart s) (hrun : (c.serve r).Run [] seen result) :
    Contested s c.attempts seen result := by
  rcases hrun.of_serve hserves with
    ⟨_, rfl, rfl⟩ | ⟨_, h, _, ⟨_, rfl, rfl⟩ | ⟨hroot, hperform⟩⟩
  · exact contested_of_final trivial rfl
  · exact contested_of_final ⟨trivial, nofun⟩ rfl
  · have hentered : Trail.Entered s [.answered (.stat s.root.text) h] :=
      ⟨rfl, ⟨nofun, trivial⟩, ⟨_, h, List.mem_cons_self, hroot⟩, trivial, nofun⟩
    have hcontested := contested_perform scopeAt_layout hentered hperform
    exact ⟨hcontested.raced, fun e he hretry => (hcontested.lost e he hretry).trans
      (Nat.zero_add _)⟩

end Requests

end DeltaLedger
