import DeltaLedger.Proofs.Linearization

/-!
# Requests that are answered as at some moment

A request that finds its datamart is left with its command.  One that does not, or is
refused at once, gives the answer that it would have given alone at a moment between its
first and its last call, and so do many of the questions about the epochs of a datamart.
-/

namespace DeltaLedger

open Program

/-- The answer that the request would have given alone at a moment between its first and its
last call.  A request that made no call would give it on every tree. -/
inductive Answered (c : Coordinator) (r : Request) (trail : Trail)
    (result : Except Failure Response) : Prop where
  | unaided (hcalls : ∀ call h, .answered call h ∉ trail)
      (halone : ∀ time t, (c.serve r).runAlone time t = (result, t))
  | within {u : History} (hspans : trail.Spans u)
      (halone : ∀ time, (c.serve r).runAlone time u.now = (result, u.now))

section Answering

variable {c : Coordinator} {r : Request} {s : Site} {trail : Trail}

theorem Answered.explained {e : Failure} (hanswered : Answered c r trail (.error e))
    (hquiet : trail.Quiet) : Explained c r trail (.error e) := by
  cases hanswered with
  | unaided hcalls halone => exact .unaided hcalls halone
  | within hspans halone => exact .refused hquiet (.of_quiet hquiet hspans halone rfl)

/-- The answer is right at a moment that is not before what was there when the calls began. -/
theorem Answered.exists_moment {result : Except Failure Response} {j top : History}
    (hanswered : Answered c r trail result) (hj : j ≤ top)
    (hsince : trail.Since j) (hprecedes : trail.Precedes top) :
    ∃ u, j ≤ u ∧ u ≤ top ∧ ∀ time, (c.serve r).runAlone time u.now = (result, u.now) := by
  cases hanswered with
  | unaided _ halone => exact ⟨j, History.le_refl j, hj, fun time => halone time j.now⟩
  | @within u hspans halone =>
      exact ⟨u, hspans.le_of_since hsince, hspans.le hprecedes, halone⟩

theorem Trail.uncommitted_stat (s : Site) (h : History) :
    Trail.Uncommitted [.answered (.stat s.root.text) h] :=
  uncommitted_nil.answered rfl (by rw [Tree.answer_stat])

theorem Trail.begun_stat {h : History} (hroot : h.now.has s.root = true) :
    Trail.Begun s [.answered (.stat s.root.text) h] :=
  ⟨.singleton (by rw [Tree.answer_stat]), _, h, List.mem_cons_self, hroot⟩

/-- What holds of errors that are answered as at some moment, and of the command in its
datamart, holds of the whole request. -/
theorem safe_serve_of_perform {post : Trail → Except Failure Response → Prop}
    (hrefused : ∀ trail e, trail.Uncommitted → Answered c r trail (.error e) →
      post trail (.error e))
    (hperform : ∀ s h, c.Serves r.datamart s → r.command.fault? = none →
      h.now.has s.root = true →
        ((scopeAt c r s).perform r.command).Safe (c.Serves r.datamart) post
          [.answered (.stat s.root.text) h]) :
    (c.serve r).Safe (c.Serves r.datamart) post [] := by
  have hexecute : (c.execute r).Safe (c.Serves r.datamart) post [] := by
    unfold Coordinator.execute
    cases hfault : r.command.fault? with
    | some failure =>
        apply hrefused _ _ Trail.uncommitted_nil
        exact .unaided (fun _ _ => List.not_mem_nil) fun time t => runAlone_serve_of_fault hfault
    | none =>
        apply Safe.enter
        · intro e hroot
          apply hrefused _ _ Trail.uncommitted_nil
          exact .unaided (fun _ _ => List.not_mem_nil)
            fun time t => runAlone_serve_of_bad hfault hroot
        · intro s h hserves _ _ hroot
          apply hrefused _ _ (Trail.uncommitted_stat s h)
          exact .within (Trail.spans_of_mem List.mem_cons_self)
            fun time => runAlone_serve_of_missing hserves hfault hroot
        · intro s h hserves _ _ hroot
          exact hperform s h hserves hfault hroot
  apply hexecute.andThen
  intro trail result hpost
  cases result with
  | ok response => exact hpost
  | error failure => exact hpost

end Answering

/-! ## Questions -/

/-- The command of a request asks what a program reads. -/
structure Asked (c : Coordinator) (r : Request) (s : Site) {γ : Type} (p : Program Failure γ)
    (answer : γ → Response) : Prop where
  serves : c.Serves r.datamart s
  fault : r.command.fault? = none
  perform : (scopeAt c r s).perform r.command = answer <$> p

namespace Asked

variable {c : Coordinator} {r : Request} {s : Site} {trail : Trail} {γ : Type}
variable {p : Program Failure γ} {answer : γ → Response}

theorem of_command {command : Command} (hserves : c.Serves r.datamart s)
    (hcommand : r.command = command) (hfault : command.fault? = none)
    (hperform : (scopeAt c r s).perform command = answer <$> p) : Asked c r s p answer := by
  subst hcommand
  exact ⟨hserves, hfault, hperform⟩

theorem runAlone {t : Tree} {time : DateTime} {told : Except Failure γ}
    (hasked : Asked c r s p answer) (hroot : t.has s.root = true)
    (hrun : p.runAlone time t = (told, t)) :
    (c.serve r).runAlone time t = (told.map answer, t) := by
  rw [runAlone_serve_of_root hasked.serves hasked.fault hroot, hasked.perform]
  cases told with
  | ok a => exact runAlone_map_of_ok hrun
  | error e => exact runAlone_map_of_error hrun

theorem answered {u : History} {told : Except Failure γ} (hasked : Asked c r s p answer)
    (hspans : trail.Spans u) (hroot : u.now.has s.root = true)
    (hrun : ∀ time, p.runAlone time u.now = (told, u.now)) :
    Answered c r trail (told.map answer) :=
  .within hspans fun time => hasked.runAlone hroot (hrun time)

/-- What a request gives alone is what it reads there. -/
theorem eq_told {t : Tree} {time : DateTime} {told : Except Failure γ}
    {result : Except Failure Response} (hasked : Asked c r s p answer)
    (hroot : t.has s.root = true) (hrun : p.runAlone time t = (told, t))
    (halone : (c.serve r).runAlone time t = (result, t)) : result = told.map answer := by
  rw [hasked.runAlone hroot hrun] at halone
  exact (Prod.mk.inj halone).1.symm

theorem safe {post : Trail → Except Failure Response → Prop} {sites : Site → Prop}
    (hasked : Asked c r s p answer)
    (hsafe : p.Safe sites (fun trail result => post trail (result.map answer)) trail) :
    ((scopeAt c r s).perform r.command).Safe sites post trail := by
  rw [hasked.perform]
  exact hsafe.map (fun _ _ hpost => hpost) fun _ _ hpost => hpost

end Asked

/-- What holds of a question in its datamart, and of errors that are answered as at some
moment, holds of the whole request. -/
theorem safe_serve_of_asked {c : Coordinator} {r : Request} {γ : Type}
    {p : Scope → Program Failure γ} {answer : γ → Response}
    {post : Trail → Except Failure Response → Prop}
    (hperform : ∀ scope : Scope, scope.perform r.command = answer <$> p scope)
    (hrefused : ∀ trail e, Answered c r trail (.error e) → post trail (.error e))
    (hsafe : ∀ s trail, Asked c r s (p (scopeAt c r s)) answer → trail.Begun s →
      (p (scopeAt c r s)).Safe (c.Serves r.datamart)
        (fun trail result => post trail (result.map answer)) trail) :
    (c.serve r).Safe (c.Serves r.datamart) post [] := by
  apply safe_serve_of_perform
  · exact fun trail e _ hanswered => hrefused trail e hanswered
  · intro s h hserves hfault hroot
    have hasked : Asked c r s (p (scopeAt c r s)) answer := ⟨hserves, hfault, hperform _⟩
    exact hasked.safe (hsafe s _ hasked (Trail.begun_stat hroot))

end DeltaLedger
