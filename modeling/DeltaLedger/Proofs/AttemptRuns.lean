import DeltaLedger.Proofs.SeparateSubtrees

/-!
# Runs of attempts

A run of a program under interference leads from one trail to another: every call was served
at some moment of an orderly history, after the calls before it.  What is safe can be read
off the runs.

The run of an attempt is an inquiry, with at most one transaction at its end.  While the
subtree of the site stays as it is in some tree, the attempt goes as it would alone on that
tree, whatever happens elsewhere.
-/

namespace DeltaLedger

namespace Program

variable {ε ε' α β : Type} {trail seen : Trail}

/-- From one trail to another, the program comes to a result. -/
def Run : Program ε α → Trail → Trail → Except ε α → Prop
  | .done found, trail, seen, result => seen = trail ∧ result = found
  | .call c next, trail, seen, result => ∃ h : History, h.Orderly ∧ trail.Precedes h ∧
      (next (h.now.answer c).1).Run (.answered c h :: trail) seen result
  | .clock next, trail, seen, result => ∃ now, (next now).Run (.told now :: trail) seen result
  | .note _ next, trail, seen, result => next.Run trail seen result

theorem Safe.run {sites : Site → Prop} {post : Trail → Except ε α → Prop} {p : Program ε α}
    (hsafe : p.Safe sites post trail) :
    p.Safe sites (fun seen result => post seen result ∧ p.Run trail seen result) trail := by
  induction p generalizing trail with
  | done result => exact ⟨hsafe, rfl, rfl⟩
  | call c next ih =>
      intro h horderly hprecedes
      obtain ⟨hproper, hnext⟩ := hsafe h horderly hprecedes
      exact ⟨hproper, (ih _ hnext).mono fun seen result hboth =>
        ⟨hboth.1, h, horderly, hprecedes, hboth.2⟩⟩
  | clock next ih =>
      exact fun now => (ih now (hsafe now)).mono fun seen result hboth =>
        ⟨hboth.1, now, hboth.2⟩
  | note notice next ih => exact ih hsafe

theorem Run.of_bind {p : Program ε α} {f : α → Program ε β} {result : Except ε β}
    (hrun : (p >>= f).Run trail seen result) :
    (∃ e, p.Run trail seen (.error e) ∧ result = .error e) ∨
      ∃ middle a, p.Run trail middle (.ok a) ∧ (f a).Run middle seen result := by
  induction p generalizing trail with
  | done found =>
      cases found with
      | ok a => exact .inr ⟨trail, a, ⟨rfl, rfl⟩, hrun⟩
      | error e => exact .inl ⟨e, ⟨hrun.1, rfl⟩, hrun.2⟩
  | call c next ih =>
      obtain ⟨h, horderly, hprecedes, hnext⟩ := hrun
      rcases ih _ hnext with ⟨e, herror, hresult⟩ | ⟨middle, a, hok, hlater⟩
      · exact .inl ⟨e, ⟨h, horderly, hprecedes, herror⟩, hresult⟩
      · exact .inr ⟨middle, a, ⟨h, horderly, hprecedes, hok⟩, hlater⟩
  | clock next ih =>
      obtain ⟨now, hnext⟩ := hrun
      rcases ih now hnext with ⟨e, herror, hresult⟩ | ⟨middle, a, hok, hlater⟩
      · exact .inl ⟨e, ⟨now, herror⟩, hresult⟩
      · exact .inr ⟨middle, a, ⟨now, hok⟩, hlater⟩
  | note notice next ih => exact ih hrun

theorem Run.of_andThen {p : Program ε α} {f : Except ε α → Program ε' β} {result : Except ε' β}
    (hrun : (p.andThen f).Run trail seen result) :
    ∃ middle found, p.Run trail middle found ∧ (f found).Run middle seen result := by
  induction p generalizing trail with
  | done found => exact ⟨trail, found, ⟨rfl, rfl⟩, hrun⟩
  | call c next ih =>
      obtain ⟨h, horderly, hprecedes, hnext⟩ := hrun
      obtain ⟨middle, found, hfound, hlater⟩ := ih _ hnext
      exact ⟨middle, found, ⟨h, horderly, hprecedes, hfound⟩, hlater⟩
  | clock next ih =>
      obtain ⟨now, hnext⟩ := hrun
      obtain ⟨middle, found, hfound, hlater⟩ := ih now hnext
      exact ⟨middle, found, ⟨now, hfound⟩, hlater⟩
  | note notice next ih => exact ih hrun

/-- A run only adds to the trail. -/
theorem Run.exists_append {p : Program ε α} {result : Except ε α} (hrun : p.Run trail seen result) :
    ∃ later, seen = later ++ trail := by
  induction p generalizing trail with
  | done found => exact ⟨[], hrun.1⟩
  | call c next ih =>
      obtain ⟨h, _, _, hnext⟩ := hrun
      obtain ⟨later, rfl⟩ := ih _ hnext
      exact ⟨later ++ [.answered c h], by simp⟩
  | clock next ih =>
      obtain ⟨now, hnext⟩ := hrun
      obtain ⟨later, rfl⟩ := ih now hnext
      exact ⟨later ++ [.told now], by simp⟩
  | note notice next ih => exact ih hrun

end Program

/-! ## Trails in order -/

namespace Trail

variable {trail window : Trail}

/-- Every call of the trail is later than those before. -/
def Chronological : Trail → Prop
  | [] => True
  | .answered _ h :: trail => Precedes trail h ∧ Chronological trail
  | .told _ :: trail => Chronological trail

/-- The trail of an inquiry, which may end with a look at the clock. -/
def Inquires (window : Trail) : Prop :=
  ∀ c h, .answered c h ∈ window → c.inquires = true

/-- The moment of the first call of the inquiry under way: of the first read since a datamart
was entered or a transaction submitted. -/
def firstRead : Trail → Option History
  | [] => none
  | .answered c h :: trail => if c.inquires then some ((firstRead trail).getD h) else none
  | .told _ :: trail => firstRead trail

/-- The clock and the subtree of the site were the same all the time. -/
structure Steady (s : Site) (time : DateTime) (t : Tree) (window : Trail) : Prop where
  agree : ∀ c h, .answered c h ∈ window → s.Agree h.now t
  told : ∀ now, .told now ∈ window → now = time

/-- No transaction was submitted. -/
def Idle (window : Trail) : Prop :=
  ∀ steps h, .answered (.transact steps) h ∉ window

theorem Idle.of_append {later : Trail} (hidle : Idle (later ++ window)) : later.Idle :=
  fun steps h hmem => hidle steps h (List.mem_append_left _ hmem)

theorem exists_time_of_silent (hsilent : ∀ now, .told now ∉ window) :
    ∃ time, ∀ now, .told now ∈ window → now = time := by
  obtain ⟨time, _⟩ := exists_clocked window
  exact ⟨time, fun now hmem => absurd hmem (hsilent now)⟩

theorem silent_answered (c : Call) (h : History) (now : DateTime) :
    .told now ∉ ([.answered c h] : Trail) :=
  fun hmem => nomatch List.mem_singleton.mp hmem

theorem inquires_nil : Inquires [] :=
  fun _ _ hmem => absurd hmem List.not_mem_nil

theorem Inquires.append {later : Trail} (hlater : later.Inquires) (hinquires : window.Inquires) :
    Inquires (later ++ window) := by
  intro c h hmem
  rcases List.mem_append.mp hmem with hmem | hmem
  · exact hlater c h hmem
  · exact hinquires c h hmem

theorem Steady.of_append {s : Site} {time : DateTime} {t : Tree} {later : Trail}
    (hsteady : Steady s time t (later ++ window)) :
    later.Steady s time t ∧ window.Steady s time t :=
  ⟨⟨fun c h hmem => hsteady.agree c h (List.mem_append_left _ hmem),
      fun now hmem => hsteady.told now (List.mem_append_left _ hmem)⟩,
    fun c h hmem => hsteady.agree c h (List.mem_append_right _ hmem),
      fun now hmem => hsteady.told now (List.mem_append_right _ hmem)⟩

/-- The first read of an inquiry is the earliest of its calls. -/
theorem firstRead_append (hinquires : window.Inquires) (hstart : trail.firstRead = none)
    (hchronological : Chronological (window ++ trail)) :
    (firstRead (window ++ trail) = none ∧ ∀ c h, .answered c h ∉ window) ∨
      ∃ j, firstRead (window ++ trail) = some j ∧ (∃ c, .answered c j ∈ window) ∧
        ∀ c h, .answered c h ∈ window → j ≤ h := by
  induction window with
  | nil => exact .inl ⟨hstart, fun _ _ => List.not_mem_nil⟩
  | cons sight window ih =>
      have hbefore : Inquires window := fun c h hmem => hinquires c h (List.mem_cons_of_mem _ hmem)
      cases sight with
      | told now =>
          rcases ih hbefore hchronological with ⟨hnone, hempty⟩ | ⟨j, hfirst, ⟨c, hmem⟩, hle⟩
          · exact .inl ⟨hnone, fun c h hmem => by simpa using hempty c h (by simpa using hmem)⟩
          · exact .inr ⟨j, hfirst, ⟨c, by simp [hmem]⟩,
              fun c h hmem => hle c h (by simpa using hmem)⟩
      | answered c h =>
          obtain ⟨hprecedes, hrest⟩ := hchronological
          right
          simp only [List.cons_append, firstRead, hinquires c h List.mem_cons_self, if_true]
          rcases ih hbefore hrest with ⟨hnone, hempty⟩ | ⟨j, hfirst, ⟨c', hmem⟩, hle⟩
          · refine ⟨h, by rw [hnone]; rfl, ⟨c, List.mem_cons_self⟩, ?_⟩
            intro c' h' hmem
            rcases List.mem_cons.mp hmem with hhead | htail
            · cases hhead
              exact History.le_refl _
            · exact absurd htail (hempty c' h')
          · refine ⟨j, by rw [hfirst]; rfl, ⟨c', List.mem_cons_of_mem _ hmem⟩, ?_⟩
            intro c'' h' hmem'
            rcases List.mem_cons.mp hmem' with hhead | htail
            · cases hhead
              exact hprecedes.le (List.mem_append_left _ hmem)
            · exact hle c'' h' htail

end Trail

theorem Call.answer_of_inquires {c : Call} (t : Tree)
    (hinquires : c.inquires = true) : (t.answer c).2 = t := by
  cases c with
  | read | children => rfl
  | _ => cases hinquires

namespace Program

variable {ε α γ : Type} {trail seen : Trail} {s : Site} {looks : Bool}

theorem Run.chronological {p : Program ε α} {result : Except ε α} (hrun : p.Run trail seen result)
    (htrail : trail.Chronological) : seen.Chronological := by
  induction p generalizing trail with
  | done found => exact hrun.1 ▸ htrail
  | call c next ih =>
      obtain ⟨h, _, hprecedes, hnext⟩ := hrun
      exact ih _ hnext ⟨hprecedes, htrail⟩
  | clock next ih =>
      obtain ⟨now, hnext⟩ := hrun
      exact ih now hnext htrail
  | note notice next ih => exact ih hrun htrail

/-- While the subtree stays the same, the program comes to its result as it would alone, and
without a transaction it leaves the tree as it is. -/
def AsAlone (s : Site) (p : Program ε α) (window : Trail) (result : Except ε α) : Prop :=
  (∃ time, ∀ now, .told now ∈ window → now = time) ∧
    ∀ time t, window.Steady s time t →
      (p.runAlone time t).1 = result ∧ (window.Idle → (p.runAlone time t).2 = t)

theorem AsAlone.of_runAlone {p : Program ε α} {window : Trail} {result : Except ε α}
    (hsilent : ∀ now, .told now ∉ window)
    (halone : ∀ time t, window.Steady s time t → p.runAlone time t = (result, t)) :
    p.AsAlone s window result := by
  refine ⟨Trail.exists_time_of_silent hsilent, fun time t hsteady => ?_⟩
  rw [halone time t hsteady]
  exact ⟨rfl, fun _ => rfl⟩

theorem AsAlone.look {scope : Scope} {f : DateTime → Program Failure α} {now : DateTime}
    {later : Trail} {result : Except Failure α} (hsilent : ∀ now', .told now' ∉ later)
    (halone : (f (now.atOffset scope.coordinator.zone).wholeSecond).AsAlone s later result) :
    (scope.localTime >>= f).AsAlone s (later ++ [.told now]) result := by
  refine ⟨⟨now, fun now' hmem => ?_⟩, fun time t hsteady => ?_⟩
  · rcases List.mem_append.mp hmem with hmem | hmem
    · exact absurd hmem (hsilent now')
    · cases List.mem_singleton.mp hmem
      rfl
  · obtain ⟨hlater, hfirst⟩ := hsteady.of_append
    obtain rfl := hfirst.told now List.mem_cons_self
    obtain ⟨hresult, htree⟩ := halone.2 now t hlater
    exact ⟨hresult, fun hidle => htree hidle.of_append⟩

/-- The run of an inquiry. -/
theorem Confined.run {p : Program Failure α} {result : Except Failure α}
    (hinquiry : p.Confined s .inquiry) (hrun : p.Run trail seen result) :
    Blameless .inquiry result ∧ ∃ window, seen = window ++ trail ∧ window.Inquires ∧
      (∀ now, .told now ∉ window) ∧
      ∀ time t, window.Steady s time t → p.runAlone time t = (result, t) := by
  induction p generalizing trail with
  | done found =>
      obtain ⟨rfl, rfl⟩ := hrun
      exact ⟨hinquiry, [], rfl, nofun, fun _ => List.not_mem_nil, fun _ _ _ => rfl⟩
  | call c next ih =>
      obtain ⟨hwithin, hinquires, hok, hexcused, _⟩ := hinquiry
      obtain ⟨h, _, _, hnext⟩ := hrun
      have hrest : (next (h.now.answer c).1).Confined s .inquiry := by
        rcases h.now.answer_within hwithin with ⟨found, hanswer⟩ | ⟨e, hanswer, hexcuses⟩
        · rw [hanswer]
          exact hok found
        · rw [hanswer]
          exact hexcused e hexcuses
      obtain ⟨hblameless, window, rfl, hwindow, htold, halone⟩ := ih _ hrest hnext
      refine ⟨hblameless, window ++ [.answered c h], by simp, ?_, ?_, ?_⟩
      · apply hwindow.append
        intro c' h' hmem
        cases List.mem_singleton.mp hmem
        exact hinquires rfl
      · intro now hmem
        rcases List.mem_append.mp hmem with hmem | hmem
        · exact htold now hmem
        · cases List.mem_singleton.mp hmem
      · intro time t hsteady
        obtain ⟨hlater, hfirst⟩ := hsteady.of_append
        have hreply := ((hfirst.agree c h List.mem_cons_self).answer hwithin).1
        unfold runAlone
        rw [Call.answer_of_inquires t (hinquires rfl), ← hreply]
        exact halone time t hlater
  | clock next => cases hinquiry.1
  | note notice next ih => exact ih hinquiry hrun

end Program

/-! ## Attempts -/

/-- What an attempt comes to, by its trail: after an inquiry it fails, is content or submits
one transaction, and goes by the outcome. -/
inductive Attempted {γ : Type} (trail : Trail) : Trail → Except Failure (Option γ) → Prop where
  | failed {window : Trail} {e : Failure} (hwindow : window.Inquires)
      (hfinal : e.isRetryable = false) : Attempted trail (window ++ trail) (.error e)
  | content {window : Trail} {a : γ} (hwindow : window.Inquires) :
      Attempted trail (window ++ trail) (.ok (some a))
  | committed {window : Trail} {steps : List Step} {h : History} {a : γ}
      (hwindow : window.Inquires) (hcommits : (Call.transact steps).commits h.now = true) :
      Attempted trail (.answered (.transact steps) h :: (window ++ trail)) (.ok (some a))
  | aborted {window : Trail} {steps : List Step} {h : History} (hwindow : window.Inquires)
      (horderly : h.Orderly) (hprecedes : Trail.Precedes (window ++ trail) h)
      (hcommits : (Call.transact steps).commits h.now = false) :
      Attempted trail (.answered (.transact steps) h :: (window ++ trail)) (.ok none)

section Attempts

variable {γ : Type} {attempt : Program Failure (Option γ)} {trail seen window : Trail} {s : Site}
variable {looks : Bool} {result : Except Failure (Option γ)}

theorem Attempted.prepend (hwindow : window.Inquires)
    (hattempted : Attempted (window ++ trail) seen result) : Attempted trail seen result := by
  cases hattempted with
  | failed hlater hfinal =>
      rw [← List.append_assoc]
      exact .failed (hlater.append hwindow) hfinal
  | content hlater =>
      rw [← List.append_assoc]
      exact .content (hlater.append hwindow)
  | committed hlater hcommits =>
      rw [← List.append_assoc]
      exact .committed (hlater.append hwindow) hcommits
  | aborted hlater horderly hprecedes hcommits =>
      rw [← List.append_assoc] at hprecedes ⊢
      exact .aborted (hlater.append hwindow) horderly hprecedes hcommits

theorem attempted_commit {scope : Scope} {steps : List Step} {a : γ}
    (hpaths : ∀ step ∈ steps, ∃ p : Path, step.path = p.text)
    (hrun : (scope.commit steps a).Run trail seen result) : Attempted trail seen result := by
  obtain ⟨h, horderly, hprecedes, hnext⟩ := hrun
  have hanswer : h.now.answer (.transact steps) = h.now.transact steps := rfl
  rcases Tree.transact_cases hpaths with ⟨t', _, htransact⟩ | ⟨index, path, conflict, htransact⟩
  · rw [hanswer, htransact] at hnext
    obtain ⟨rfl, rfl⟩ := hnext
    exact .committed Trail.inquires_nil (by simp [Call.commits, htransact])
  · rw [hanswer, htransact] at hnext
    obtain ⟨rfl, rfl⟩ := hnext
    exact .aborted Trail.inquires_nil horderly hprecedes (by simp [Call.commits, htransact])

theorem Program.Tries.attempted (htries : attempt.Tries s looks)
    (hrun : attempt.Run trail seen result) : Attempted trail seen result := by
  induction htries generalizing trail with
  | failed hfinal =>
      obtain ⟨rfl, rfl⟩ := hrun
      exact .failed Trail.inquires_nil hfinal
  | content a =>
      obtain ⟨rfl, rfl⟩ := hrun
      exact .content Trail.inquires_nil
  | commit a hsteps =>
      apply attempted_commit _ hrun
      intro step hstep
      obtain ⟨place, hpath⟩ := hsteps step hstep
      exact ⟨s.path place, hpath⟩
  | inquire hinquiry _ ih =>
      rcases hrun.of_bind with ⟨e, herror, rfl⟩ | ⟨middle, a, hok, hlater⟩
      · obtain ⟨hblameless, window, rfl, hwindow, _⟩ := hinquiry.run herror
        exact .failed hwindow ((hblameless e rfl).2 rfl)
      · obtain ⟨_, window, rfl, hwindow, _⟩ := hinquiry.run hok
        exact (ih a hlater).prepend hwindow
  | look _ ih =>
      obtain ⟨now, hnext⟩ := hrun
      have htold : Trail.Inquires [.told now] :=
        fun c h hmem => nomatch List.mem_singleton.mp hmem
      exact (ih _ hnext).prepend htold

/-- The reply to the transaction settles how an attempt ends. -/
theorem run_commit {scope : Scope} {steps : List Step} {a : γ}
    (hrun : (scope.commit steps a).Run trail seen result) :
    ∃ h, seen = .answered (.transact steps) h :: trail ∧ ∀ time t,
      (h.now.answer (.transact steps)).1 = (t.answer (.transact steps)).1 →
        ((scope.commit steps a).runAlone time t).1 = result := by
  obtain ⟨h, _, _, hnext⟩ := hrun
  refine ⟨h, ?_, ?_⟩
  · revert hnext
    rcases (h.now.answer (.transact steps)).1 with e | outcome
    · exact fun hnext => hnext.1
    · cases outcome <;> exact fun hnext => hnext.1
  · intro time t hreply
    unfold Scope.commit
    change (Program.runAlone time (Program.bind _ _) (t.answer (.transact steps)).2).1 = result
    revert hnext
    rw [hreply]
    rcases (t.answer (.transact steps)).1 with e | outcome
    · exact fun hnext => hnext.2.symm
    · cases outcome <;> exact fun hnext => hnext.2.symm

/-- While the subtree stays the same, the attempt goes as it would alone. -/
theorem Program.Tries.asAlone (htries : attempt.Tries s looks)
    (hrun : attempt.Run trail seen result) :
    ∃ window, seen = window ++ trail ∧ (looks = false → ∀ now, .told now ∉ window) ∧
      attempt.AsAlone s window result := by
  induction htries generalizing trail with
  | failed hfinal =>
      obtain ⟨rfl, rfl⟩ := hrun
      exact ⟨[], rfl, fun _ _ => List.not_mem_nil,
        .of_runAlone (fun _ => List.not_mem_nil) fun _ _ _ => rfl⟩
  | content a =>
      obtain ⟨rfl, rfl⟩ := hrun
      exact ⟨[], rfl, fun _ _ => List.not_mem_nil,
        .of_runAlone (fun _ => List.not_mem_nil) fun _ _ _ => rfl⟩
  | @commit _ scope steps a hsteps =>
      obtain ⟨h, rfl, halone⟩ := run_commit hrun
      have hsilent := Trail.silent_answered (.transact steps) h
      refine ⟨[.answered (.transact steps) h], rfl, fun _ => hsilent,
        Trail.exists_time_of_silent hsilent, ?_⟩
      intro time t hsteady
      have hagree := hsteady.agree _ h List.mem_cons_self
      exact ⟨halone time t (hagree.answer (.transact hsteps)).1,
        fun hidle => absurd List.mem_cons_self (hidle steps h)⟩
  | @inquire looks α p f hinquiry _ ih =>
      rcases hrun.of_bind with ⟨e, herror, rfl⟩ | ⟨middle, a, hok, hlater⟩
      · obtain ⟨_, window, rfl, _, hsilent, halone⟩ := hinquiry.run herror
        exact ⟨window, rfl, fun _ => hsilent, .of_runAlone hsilent fun time t hsteady =>
          runAlone_bind_of_error (halone time t hsteady)⟩
      · obtain ⟨_, window, rfl, _, hsilent, halone⟩ := hinquiry.run hok
        obtain ⟨later, rfl, hsilent', ⟨time, htime⟩, halone'⟩ := ih a hlater
        refine ⟨later ++ window, by rw [List.append_assoc], ?_, ⟨time, ?_⟩, ?_⟩
        · intro hlooks now hmem
          rcases List.mem_append.mp hmem with hmem | hmem
          · exact hsilent' hlooks now hmem
          · exact hsilent now hmem
        · intro now hmem
          rcases List.mem_append.mp hmem with hmem | hmem
          · exact htime now hmem
          · exact absurd hmem (hsilent now)
        · intro time t hsteady
          obtain ⟨hsteady', hfirst⟩ := hsteady.of_append
          rw [runAlone_bind_of_ok (halone time t hfirst)]
          obtain ⟨hresult, htree⟩ := halone' time t hsteady'
          exact ⟨hresult, fun hidle => htree hidle.of_append⟩
  | @look scope f _ ih =>
      obtain ⟨now, hnext⟩ := hrun
      obtain ⟨later, rfl, hsilent, halone⟩ := ih _ hnext
      exact ⟨later ++ [.told now], by simp, nofun, halone.look (hsilent rfl)⟩

end Attempts

end DeltaLedger
