import DeltaLedger.Proofs.AloneRules

/-!
# Linearization

When a request is over, its trail and its result can often be explained by one
moment: had the whole request run alone on the tree of that moment, it would have
given the same answer and made the same change.  Such a moment lies between two calls
of the request, and an error may also be explained by a call that only read.
-/

namespace DeltaLedger

namespace History

def length : History → Nat
  | start _ => 0
  | next h _ => h.length + 1

theorem length_le {h h' : History} (hle : h ≤ h') : h.length ≤ h'.length := by
  induction hle with
  | refl => exact Nat.le_refl _
  | next _ ih => exact Nat.le_succ_of_le ih

theorem not_next_le {h : History} {t : Tree} : ¬h.next t ≤ h := by
  intro hle
  exact Nat.not_succ_le_self _ (length_le hle)

end History

namespace Trail

variable {trail : Trail} {u : History} {t' : Tree} {time : DateTime}

/-- A moment between the first and the last call of a trail. -/
def Spans (trail : Trail) (u : History) : Prop :=
  (∃ c h, .answered c h ∈ trail ∧ h ≤ u) ∧ ∃ c h, .answered c h ∈ trail ∧ u ≤ h

/-- No call of a trail is from before a moment. -/
def Since (trail : Trail) (j : History) : Prop :=
  ∀ c h, .answered c h ∈ trail → j ≤ h

/-- A time that the clock showed, or any time if nobody looked. -/
def Clocked (trail : Trail) (time : DateTime) : Prop :=
  .told time ∈ trail ∨ ∀ now, .told now ∉ trail

/-- The calls of a trail made the change of one moment and no other. -/
def Acts (trail : Trail) (u : History) (t' : Tree) : Prop :=
  (∀ c h, .answered c h ∈ trail →
    (h = u → (h.now.answer c).2 = t') ∧ (h ≠ u → (h.now.answer c).2 = h.now)) ∧
      ((∀ c, .answered c u ∉ trail) → t' = u.now)

theorem exists_clocked (trail : Trail) : ∃ time, trail.Clocked time := by
  by_cases hlooked : ∃ now, .told now ∈ trail
  · obtain ⟨now, hnow⟩ := hlooked
    exact ⟨now, .inl hnow⟩
  · have hnobody : ∀ now, .told now ∉ trail := fun now hnow => hlooked ⟨now, hnow⟩
    exact ⟨⟨⟨2000, 1, 1, by decide⟩, ⟨0, 0, 0, 0, by decide⟩⟩, .inr hnobody⟩

theorem spans_of_mem {c : Call} (hmem : .answered c u ∈ trail) : trail.Spans u :=
  ⟨⟨c, u, hmem, History.le_refl u⟩, ⟨c, u, hmem, History.le_refl u⟩⟩

theorem Spans.le_of_since {j : History} (hspans : trail.Spans u) (hsince : trail.Since j) :
    j ≤ u := by
  obtain ⟨⟨c, h, hmem, hle⟩, _⟩ := hspans
  exact History.le_trans (hsince c h hmem) hle

theorem Spans.le {top : History} (hspans : trail.Spans u) (hprecedes : trail.Precedes top) :
    u ≤ top := by
  obtain ⟨_, c, h, hmem, hle⟩ := hspans
  exact History.le_trans hle (hprecedes.le hmem)

theorem Quiet.acts (hquiet : trail.Quiet) (u : History) : trail.Acts u u.now := by
  refine ⟨?_, fun _ => rfl⟩
  intro c h hmem
  refine ⟨?_, fun _ => hquiet c h hmem⟩
  rintro rfl
  exact hquiet c h hmem

theorem Quiet.acts_answered (hquiet : trail.Quiet) (hprecedes : trail.Precedes u) {c : Call} :
    Acts (.answered c u :: trail) u (u.now.answer c).2 := by
  refine ⟨?_, fun hnone => absurd List.mem_cons_self (hnone c)⟩
  intro c' h hmem
  rcases List.mem_cons.mp hmem with hhead | htail
  · cases hhead
    exact ⟨fun _ => rfl, fun hne => absurd rfl hne⟩
  · refine ⟨?_, fun _ => hquiet c' h htail⟩
    rintro rfl
    exact absurd (hprecedes c' h htail) History.not_next_le

end Trail

/-- Results that are the same response, or failures of the same kind. -/
def Alike : Except Failure Response → Except Failure Response → Prop
  | .ok response, .ok response' => response = response'
  | .error failure, .error failure' => failure.kind = failure'.kind
  | _, _ => False

/-- The result and the changes of a request are those of one moment. -/
def Linearized (p : Program Failure Response) (trail : Trail)
    (result : Except Failure Response) : Prop :=
  ∃ u time result' t', trail.Spans u ∧ trail.Clocked time ∧
    p.runAlone time u.now = (result', t') ∧ Alike result' result ∧ trail.Acts u t'

/-- The counters are at the end of their range, where a command cannot go on. -/
def Command.Overflows : Command → Counters → Prop
  | .openDelta, counters => counters.lastDeltaNum = some 9_223_372_036_854_775_807
  | .registerWrite _, counters => counters.nextCn = 9_223_372_036_854_775_807
  | _, _ => False

/-- A client saw counters that its command cannot go on from. -/
def Trail.Overflowed (trail : Trail) (c : Coordinator) (r : Request) : Prop :=
  ∃ s call h counters, c.Serves r.datamart s ∧ .answered call h ∈ trail ∧
    (s.book h.now).counters = some counters ∧ r.command.Overflows counters.record

/-- How the end of a request can be explained: it made no call and would end the same
on every tree; it lost its races, or met the end of the counters, and changed nothing;
or it is linearized, and has changed nothing if it failed. -/
inductive Explained (c : Coordinator) (r : Request) (trail : Trail) :
    Except Failure Response → Prop where
  | unaided {result : Except Failure Response} (hcalls : ∀ call h, .answered call h ∉ trail)
      (halone : ∀ time t, (c.serve r).runAlone time t = (result, t)) : Explained c r trail result
  | lost {message : String} (hquiet : trail.Quiet) : Explained c r trail (.error (.conflict message))
  | overflowed {message : String} (hquiet : trail.Quiet) (hfull : trail.Overflowed c r) :
      Explained c r trail (.error (.serialization message))
  | refused {e : Failure} (hquiet : trail.Quiet)
      (hlinear : Linearized (c.serve r) trail (.error e)) : Explained c r trail (.error e)
  | answered {response : Response}
      (hlinear : Linearized (c.serve r) trail (.ok response)) : Explained c r trail (.ok response)

theorem Explained.quiet_of_error {c : Coordinator} {r : Request} {trail : Trail} {e : Failure}
    (hexplained : Explained c r trail (.error e)) : trail.Quiet := by
  cases hexplained with
  | unaided hcalls => exact fun call h hmem => absurd hmem (hcalls call h)
  | lost hquiet => exact hquiet
  | overflowed hquiet => exact hquiet
  | refused hquiet => exact hquiet

section Explaining

variable {p : Program Failure Response} {trail : Trail} {u : History}

theorem Linearized.of_quiet {e e' : Failure} (hquiet : trail.Quiet) (hspans : trail.Spans u)
    (hrun : ∀ time, p.runAlone time u.now = (.error e', u.now)) (hkind : e'.kind = e.kind) :
    Linearized p trail (.error e) := by
  obtain ⟨time, hclocked⟩ := trail.exists_clocked
  exact ⟨u, time, _, u.now, hspans, hclocked, hrun time, hkind, hquiet.acts u⟩

theorem Linearized.of_answered {c : Call} {time : DateTime} {response : Response}
    (hquiet : trail.Quiet) (hprecedes : trail.Precedes u)
    (hclocked : Trail.Clocked (.answered c u :: trail) time)
    (hrun : p.runAlone time u.now = (.ok response, (u.now.answer c).2)) :
    Linearized p (.answered c u :: trail) (.ok response) :=
  ⟨u, time, _, _, Trail.spans_of_mem List.mem_cons_self, hclocked, hrun, rfl,
    hquiet.acts_answered hprecedes⟩

end Explaining

/-! ## A request in its datamart -/

section Serving

variable {c : Coordinator} {r : Request} {s : Site} {t t' : Tree} {time : DateTime}

def scopeAt (c : Coordinator) (r : Request) (s : Site) : Scope :=
  ⟨c, r.operation, r.datamart, s.layout⟩

@[simp] theorem scopeAt_layout : (scopeAt c r s).layout = s.layout := rfl

@[simp] theorem scopeAt_datamart : (scopeAt c r s).datamart = r.datamart := rfl

theorem runAlone_serve_of_fault {failure : Failure} (hfault : r.command.fault? = some failure) :
    (c.serve r).runAlone time t = (.error failure, t) := by
  rw [runAlone_serve]
  unfold Coordinator.execute
  rw [hfault]
  rfl

theorem runAlone_serve_of_bad {e : StoreError} (hfault : r.command.fault? = none)
    (hroot : Datamart.parseRoot c.env r.datamart = .error e) :
    (c.serve r).runAlone time t = (.error (.badRequest e.message), t) := by
  rw [runAlone_serve]
  unfold Coordinator.execute
  rw [hfault]
  exact runAlone_enter_of_bad hroot

theorem runAlone_serve_of_missing (hserves : c.Serves r.datamart s)
    (hfault : r.command.fault? = none) (hroot : t.has s.root = false) :
    (c.serve r).runAlone time t = (.error (.noDatamart r.datamart), t) := by
  rw [runAlone_serve]
  unfold Coordinator.execute
  rw [hfault]
  exact runAlone_enter_of_missing hserves hroot

theorem runAlone_serve_of_root (hserves : c.Serves r.datamart s)
    (hfault : r.command.fault? = none) (hroot : t.has s.root = true) :
    (c.serve r).runAlone time t = ((scopeAt c r s).perform r.command).runAlone time t := by
  rw [runAlone_serve]
  unfold Coordinator.execute
  rw [hfault]
  exact runAlone_enter hserves hroot

/-- A trail that has entered its datamart and changed nothing so far. -/
def Trail.Begun (s : Site) (trail : Trail) : Prop :=
  trail.Quiet ∧ ∃ c h, .answered c h ∈ trail ∧ h.now.has s.root = true

theorem Trail.Begun.has_root {trail : Trail} {h : History} (hbegun : trail.Begun s)
    (horderly : h.Orderly) (hprecedes : trail.Precedes h) : h.now.has s.root = true := by
  obtain ⟨_, call, first, hmem, hroot⟩ := hbegun
  rw [horderly.has_root (hprecedes.le hmem) s, hroot]

theorem Trail.Begun.answered {trail : Trail} {call : Call} {h : History} (hbegun : trail.Begun s)
    (hsame : (h.now.answer call).2 = h.now) : Trail.Begun s (.answered call h :: trail) := by
  obtain ⟨hquiet, call', first, hmem, hroot⟩ := hbegun
  exact ⟨hquiet.answered hsame, call', first, List.mem_cons_of_mem _ hmem, hroot⟩

theorem Trail.Begun.read {trail : Trail} {p : Path} {h : History} (hbegun : trail.Begun s) :
    Trail.Begun s (.answered (.read p.text) h :: trail) :=
  hbegun.answered (by rw [Tree.answer_read])

theorem Trail.Begun.told {trail : Trail} (hbegun : trail.Begun s) (now : DateTime) :
    Trail.Begun s (.told now :: trail) := by
  obtain ⟨hquiet, call', first, hmem, hroot⟩ := hbegun
  exact ⟨hquiet.told, call', first, List.mem_cons_of_mem _ hmem, hroot⟩

theorem Trail.Begun.append {trail seen : Trail} (hbegun : trail.Begun s) (hseen : seen.Quiet) :
    Trail.Begun s (seen ++ trail) := by
  obtain ⟨hquiet, call', first, hmem, hroot⟩ := hbegun
  exact ⟨hseen.append hquiet, call', first, List.mem_append_right _ hmem, hroot⟩

end Serving

/-! ## Attempts that decide a request -/

/-- A command makes an attempt until it succeeds, takes note of that, and answers. -/
def Decides (scope : Scope) (command : Command) {γ : Type}
    (attempt : Program Failure (Option γ)) (answer : γ → Response) : Prop :=
  ∃ notice : γ → Notice, scope.perform command =
    scope.persist attempt >>= fun a => .note (notice a) (.done (.ok (answer a)))

section Deciding

variable {scope : Scope} {command : Command} {γ : Type}
variable {attempt : Program Failure (Option γ)} {answer : γ → Response}
variable (hdecides : Decides scope command attempt answer)

include hdecides

theorem Decides.of_ok {time : DateTime} {t t' : Tree} {a : γ}
    (hrun : attempt.runAlone time t = (.ok (some a), t')) :
    (scope.perform command).runAlone time t = (.ok (answer a), t') := by
  obtain ⟨notice, hperform⟩ := hdecides
  rw [hperform, Program.runAlone_bind_of_ok (runAlone_persist_of_ok hrun)]
  rfl

theorem Decides.of_error {time : DateTime} {t t' : Tree} {e : Failure}
    (hrun : attempt.runAlone time t = (.error e, t')) :
    (scope.perform command).runAlone time t = (.error e, t') := by
  obtain ⟨notice, hperform⟩ := hdecides
  rw [hperform, Program.runAlone_bind_of_error (runAlone_persist_of_error hrun)]

theorem Decides.safe {sites : Site → Prop} {inv : Trail → Prop} {trail : Trail}
    {post : Trail → Except Failure Response → Prop}
    (hattempt : ∀ trail, inv trail →
      attempt.Safe sites (AfterAttempt inv fun trail result => post trail (result.map answer)) trail)
    (hlost : ∀ trail, inv trail → post trail
      (.error (.lostRaces scope.operation scope.datamart scope.coordinator.attempts)))
    (hinv : inv trail) : (scope.perform command).Safe sites post trail := by
  obtain ⟨notice, hperform⟩ := hdecides
  rw [hperform]
  apply (Safe.attempts hattempt hlost _ hinv).bind
  · exact fun trail a hpost => hpost
  · exact fun trail e hpost => hpost

end Deciding

section Explaining

variable {c : Coordinator} {r : Request} {s : Site} {γ : Type}
variable {attempt : Program Failure (Option γ)} {answer : γ → Response} {trail : Trail}
variable (hserves : c.Serves r.datamart s) (hfault : r.command.fault? = none)
variable (hdecides : Decides (scopeAt c r s) r.command attempt answer)

include hserves hfault hdecides

/-- An error that an attempt would have given alone at an earlier moment. -/
theorem Explained.of_error {u : History} {e e' : Failure} (hquiet : trail.Quiet)
    (hspans : trail.Spans u) (hroot : u.now.has s.root = true)
    (hrun : ∀ time, attempt.runAlone time u.now = (.error e', u.now))
    (hkind : e'.kind = e.kind) : Explained c r trail (.error e) := by
  refine .refused hquiet (.of_quiet hquiet hspans ?_ hkind)
  intro time
  rw [runAlone_serve_of_root hserves hfault hroot]
  exact hdecides.of_error (hrun time)

theorem Explained.of_read {p : Path} {h : History} {e : Failure} (hbegun : trail.Begun s)
    (horderly : h.Orderly) (hprecedes : trail.Precedes h)
    (hrun : ∀ time, attempt.runAlone time h.now = (.error e, h.now)) :
    Explained c r (.answered (.read p.text) h :: trail) (.error e) :=
  Explained.of_error hserves hfault hdecides hbegun.read.1
    (Trail.spans_of_mem List.mem_cons_self) (hbegun.has_root horderly hprecedes) hrun rfl

theorem Explained.of_same {u : History} {a : γ} (hquiet : trail.Quiet)
    (hspans : trail.Spans u) (hroot : u.now.has s.root = true)
    (hrun : ∀ time, attempt.runAlone time u.now = (.ok (some a), u.now)) :
    Explained c r trail (.ok (answer a)) := by
  obtain ⟨time, hclocked⟩ := trail.exists_clocked
  refine .answered ⟨u, time, .ok (answer a), u.now, hspans, hclocked, ?_, rfl, hquiet.acts u⟩
  rw [runAlone_serve_of_root hserves hfault hroot]
  exact hdecides.of_ok (hrun time)

/-- A transaction that an attempt would have made alone at the same moment. -/
theorem Explained.of_commit {u : History} {t' : Tree} {steps : List Step} {time : DateTime} {a : γ}
    (hquiet : trail.Quiet) (hprecedes : trail.Precedes u) (hroot : u.now.has s.root = true)
    (hclocked : Trail.Clocked (.answered (.transact steps) u :: trail) time)
    (hcommits : u.now.Commits steps t')
    (hrun : attempt.runAlone time u.now = (.ok (some a), t')) :
    Explained c r (.answered (.transact steps) u :: trail) (.ok (answer a)) := by
  have hafter : (u.now.answer (.transact steps)).2 = t' := by
    have hanswer : u.now.answer (.transact steps) = u.now.transact steps := rfl
    rw [hanswer, Tree.transact_of_commits hcommits]
  refine .answered (.of_answered hquiet hprecedes hclocked ?_)
  rw [runAlone_serve_of_root hserves hfault hroot, hafter]
  exact hdecides.of_ok hrun

/-- A transaction that an attempt would have made alone, whatever the clock shows. -/
theorem Explained.of_timeless_commit {u : History} {t' : Tree} {steps : List Step} {a : γ}
    (hbegun : trail.Begun s) (horderly : u.Orderly) (hprecedes : trail.Precedes u)
    (hcommits : u.now.Commits steps t')
    (hrun : ∀ time, attempt.runAlone time u.now = (.ok (some a), t')) :
    Explained c r (.answered (.transact steps) u :: trail) (.ok (answer a)) := by
  obtain ⟨time, hclocked⟩ := Trail.exists_clocked (.answered (.transact steps) u :: trail)
  exact Explained.of_commit hserves hfault hdecides hbegun.1 hprecedes
    (hbegun.has_root horderly hprecedes) hclocked hcommits (hrun time)

end Explaining

end DeltaLedger
