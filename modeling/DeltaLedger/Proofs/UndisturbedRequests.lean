import DeltaLedger.Proofs.RacedRequests

/-!
# Requests that lose no race

A request that loses no race makes one attempt.  While the subtree of its site stays as it is,
it ends as it would end alone, and it changes nothing unless it submits a transaction.  What
fails it then is one of its checks, or a number that would leave its range.
-/

namespace DeltaLedger

open Program

/-- No transaction was aborted. -/
def Trail.Lossless (trail : Trail) : Prop :=
  ∀ sight ∈ trail, Sight.lost sight = false

section Requests

variable {γ : Type} {attempt : Program Failure (Option γ)} {trail seen : Trail} {s : Site}
variable {looks : Bool} {scope : Scope} {command : Command} {result : Except Failure Response}
variable (hlossless : seen.Lossless)

include hlossless

theorem Program.Tries.not_beaten (htries : attempt.Tries s looks) :
    ¬attempt.Run trail seen (.ok none) := by
  intro hrun
  have hattempted := htries.attempted hrun
  generalize hbeaten : (Except.ok none : Except Failure (Option γ)) = found at hattempted
  cases hattempted with
  | failed | content | committed => cases hbeaten
  | aborted _ _ _ hcommits =>
      have hlost := hlossless _ List.mem_cons_self
      simp [Sight.lost, Call.isTransaction, hcommits] at hlost

/-- Without losses the first attempt is the only one. -/
theorem Program.Tries.only_attempt {found : Except Failure γ} (htries : attempt.Tries s looks)
    (hrun : (scope.persist attempt).Run trail seen found) :
    attempt.Run trail seen (found.map some) := by
  obtain ⟨left, hleft⟩ := Nat.exists_eq_succ_of_ne_zero
    (Nat.pos_iff_ne_zero.mp scope.coordinator.attempts_pos)
  unfold Scope.persist at hrun
  rw [hleft] at hrun
  rcases hrun.of_bind with ⟨e, herror, rfl⟩ | ⟨middle, decided, hok, hlater⟩
  · exact herror
  · cases decided with
    | some a =>
        obtain ⟨rfl, rfl⟩ := hlater
        exact hok
    | none =>
        obtain ⟨later, rfl⟩ := hlater.exists_append
        have hbefore : Trail.Lossless middle :=
          fun sight hmem => hlossless sight (List.mem_append_right _ hmem)
        exact absurd hok (htries.not_beaten hbefore)

theorem Scope.Carries.asAlone (hcarries : scope.Carries s command looks)
    (hrun : (scope.perform command).Run trail seen result) :
    ∃ window, seen = window ++ trail ∧ (looks = false → ∀ now, .told now ∉ window) ∧
      (scope.perform command).AsAlone s window result := by
  obtain ⟨hdecides, htries, _⟩ := hcarries
  have ⟨notice, hperform⟩ := hdecides
  rw [hperform] at hrun
  rcases hrun.of_bind with ⟨e, herror, rfl⟩ | ⟨middle, a, hok, hlater⟩
  · obtain ⟨window, rfl, hsilent, htime, halone⟩ :=
      htries.asAlone (htries.only_attempt hlossless herror)
    refine ⟨window, rfl, hsilent, htime, fun time t hsteady => ?_⟩
    obtain ⟨hresult, htree⟩ := halone time t hsteady
    rw [hdecides.of_error (Prod.ext hresult rfl)]
    exact ⟨rfl, htree⟩
  · obtain ⟨rfl, rfl⟩ := hlater
    obtain ⟨window, rfl, hsilent, htime, halone⟩ :=
      htries.asAlone (htries.only_attempt hlossless hok)
    refine ⟨window, rfl, hsilent, htime, fun time t hsteady => ?_⟩
    obtain ⟨hresult, htree⟩ := halone time t hsteady
    rw [hdecides.of_ok (Prod.ext hresult rfl)]
    exact ⟨rfl, htree⟩

theorem asAlone_perform (hlayout : scope.layout = s.layout)
    (hrun : (scope.perform command).Run trail seen result) :
    ∃ window, seen = window ++ trail ∧ (scope.perform command).AsAlone s window result := by
  rcases asks_or_carries hlayout command with hasks | rfl | ⟨looks, hcarries⟩
  · obtain ⟨_, window, rfl, _, hsilent, halone⟩ := (confined_asks hlayout hasks).run hrun
    exact ⟨window, rfl, .of_runAlone hsilent halone⟩
  · rw [perform_commitDelta_none] at hrun ⊢
    obtain ⟨now, hlater⟩ := hrun
    obtain ⟨later, rfl, hsilent, halone⟩ :=
      (carries_promote hlayout _).asAlone hlossless hlater
    exact ⟨later ++ [.told now], by simp, halone.look (hsilent rfl)⟩
  · obtain ⟨window, rfl, _, halone⟩ := hcarries.asAlone hlossless hrun
    exact ⟨window, rfl, halone⟩

variable {c : Coordinator} {r : Request} (hserves : c.Serves r.datamart s)
variable (hrun : (c.serve r).Run [] seen result)

include hserves hrun

theorem asAlone_serve : (c.serve r).AsAlone s seen result := by
  rcases hrun.of_serve hserves with
    ⟨hfault, rfl, rfl⟩ | ⟨hfault, h, _, ⟨hroot, rfl, rfl⟩ | ⟨hroot, hperform⟩⟩
  · exact .of_runAlone (fun _ => List.not_mem_nil) fun _ _ _ => runAlone_serve_of_fault hfault
  · refine .of_runAlone (Trail.silent_answered _ h) fun time t hsteady => ?_
    rw [(hsteady.agree _ h List.mem_cons_self).has (.inl rfl)] at hroot
    exact runAlone_serve_of_missing hserves hfault hroot
  · obtain ⟨window, rfl, ⟨time, htime⟩, halone⟩ :=
      asAlone_perform hlossless scopeAt_layout hperform
    refine ⟨⟨time, fun now hmem => htime now (by simpa using hmem)⟩, fun time t hsteady => ?_⟩
    obtain ⟨hlater, hfirst⟩ := hsteady.of_append
    rw [(hfirst.agree _ h List.mem_cons_self).has (.inl rfl)] at hroot
    rw [runAlone_serve_of_root hserves hfault hroot]
    obtain ⟨hresult, htree⟩ := halone time t hlater
    exact ⟨hresult, fun hidle => htree hidle.of_append⟩

/-- On a subtree that stays the same, a request fails only by its checks, or for a number that
would leave its range. -/
theorem calm_serve {e : Failure} (hfailed : result = .error e)
    (hsame : ∀ c h c' h', .answered c h ∈ seen → .answered c' h' ∈ seen → s.Agree h'.now h.now) :
    e.isAlarming = false ∨
      ∃ c h, .answered c h ∈ seen ∧ r.command.Exceeds (s.book h.now) := by
  subst hfailed
  rcases hrun.of_serve hserves with
    ⟨_, _, herror⟩ | ⟨_, h, horderly, ⟨_, _, herror⟩ | ⟨hroot, hperform⟩⟩
  · cases herror
    exact .inl rfl
  · cases herror
    exact .inl rfl
  · obtain ⟨window, rfl, ⟨time, htime⟩, halone⟩ :=
      asAlone_perform hlossless scopeAt_layout hperform
    have hmem : .answered (.stat s.root.text) h ∈
        window ++ [.answered (.stat s.root.text) h] := by simp
    have hsteady : Trail.Steady s time h.now window :=
      ⟨fun c' h' hmem' => hsame _ h c' h' hmem (List.mem_append_left _ hmem'), htime⟩
    rcases calm_perform scopeAt_layout (horderly.kept s) (horderly.valid s) hroot
      (halone time h.now hsteady).1 with hcalm | hexceeds
    · exact .inl hcalm
    · exact .inr ⟨_, h, hmem, hexceeds⟩

end Requests

end DeltaLedger
