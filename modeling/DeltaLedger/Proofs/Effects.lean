import DeltaLedger.Proofs.WriteAttempts

/-!
# Effects of requests

A request submits transactions until one is committed, and this is the last of its
calls.  The commands that change a datamart differ in the move that this transaction
makes and in the answer that goes with it.  A registration answers with the number that
was next at the moment of its commit; marking and committing write the hot delta as it was
last read, at the version that it still has.

A request that fails has committed nothing.
-/

namespace DeltaLedger

open Program

theorem Trail.Uncommitted.read {trail : Trail} {p : Path} {h : History}
    (huncommitted : trail.Uncommitted) :
    Trail.Uncommitted (.answered (.read p.text) h :: trail) :=
  huncommitted.answered rfl (by rw [Tree.answer_read])

theorem Scanned.uncommitted {s : Site} {trail seen : Trail}
    {entries : List (Versioned WriteOperation)} (hscanned : Scanned s trail seen entries) :
    seen.Uncommitted := by
  intro c h hmem
  refine ⟨?_, hscanned.quiet c h hmem⟩
  cases c with
  | transact steps => exact absurd hmem (hscanned.reads steps h)
  | _ => rfl

/-! ## Effects -/

/-- A hot delta as a client last read it, when it is still at that version. -/
structure Site.Viewed (s : Site) (trail : Trail) (h : History) (view : Versioned HotDelta) :
    Prop where
  read : ∃ j, trail.lastRead (s.path .hot).text = some j ∧ (s.book j.now).hot = some view
  present : ∃ hot, (s.book h.now).hot = some ⟨hot, view.version⟩

/-- The move that a command makes at a moment, by what was seen before, and its answer. -/
inductive Effect (s : Site) (trail : Trail) (h : History) : Command → Move → Response → Prop where
  | opened {now : DateTime} :
      Effect s trail h .openDelta (.opened now)
        (.hotDelta ((s.book h.now).sequence.openEpoch now))
  | promoted {asked : Option DateTime} {view : Versioned HotDelta} {date : DateTime}
      (hviewed : s.Viewed trail h view) (hunmarked : view.record.rollingBack = false)
      (hdate : ∀ n ok, (s.book h.now).sequence.lastDeltaNum = some n →
        (s.book h.now).ok n = some ok → ok.record.deltaDate ≤ date) :
      Effect s trail h (.commitDelta asked) (.promoted view.record date) .done
  | marked {view : Versioned HotDelta} {n : Int} (hviewed : s.Viewed trail h view) :
      Effect s trail h (.failDelta n) (.marked view.record n) .done
  | discarded : Effect s trail h .discardDelta .discarded .done
  | registered {r : Registration} :
      Effect s trail h (.registerWrite r) (.registered s.datamart.text r)
        (.sysCn (s.book h.now).sequence.nextCn)
  | succeeded {n : Int} : Effect s trail h (.succeedWrite n) (.finished n .success) .done
  | failed {n : Int} : Effect s trail h (.failWrite n) (.finished n .error) .done
  | withdrawn {n : Int} : Effect s trail h (.withdrawWrite n) (.withdrawn n) .done

/-- The commands that may succeed without a transaction. -/
def Command.Spares : Command → Prop
  | .openDelta | .commitDelta _ | .failDelta _ | .discardDelta | .registerWrite _
  | .withdrawWrite _ => False
  | _ => True

/-- What the end of a request says about its transactions: none was committed, or the
last call committed one with the effect of the command. -/
inductive Accounted (c : Coordinator) (r : Request) (trail : Trail) :
    Except Failure Response → Prop where
  | failed {e : Failure} (huncommitted : trail.Uncommitted) : Accounted c r trail (.error e)
  | spared {response : Response} (huncommitted : trail.Uncommitted)
      (hspares : r.command.Spares) : Accounted c r trail (.ok response)
  | committed {s : Site} {before : Trail} {h : History} {steps : List Step} {m : Move}
      {response : Response} (htrail : trail = .answered (.transact steps) h :: before)
      (huncommitted : before.Uncommitted) (hserves : c.Serves r.datamart s)
      (hcommits : (Call.transact steps).commits h.now = true)
      (hturns : s.Turns m h.now (h.now.answer (.transact steps)).2)
      (heffect : Effect s before h r.command m response) : Accounted c r trail (.ok response)

theorem Effect.seen {s : Site} {trail : Trail} {h : History} {command : Command} {m : Move}
    {response : Response} (heffect : Effect s trail h command m response) : m.Seen s trail := by
  cases heffect with
  | promoted hviewed hunmarked =>
      obtain ⟨j, hlast, hview⟩ := hviewed.read
      exact ⟨hunmarked, j, _, hlast, hview⟩
  | marked hviewed =>
      obtain ⟨j, hlast, hview⟩ := hviewed.read
      exact ⟨j, _, hlast, hview⟩
  | _ => trivial

section Attempts

variable {c : Coordinator} {r : Request} {s : Site} {trail : Trail}

/-- What an attempt of a request leaves behind. -/
def Accounts (c : Coordinator) (r : Request) {γ : Type} (answer : γ → Response) :
    Trail → Except Failure (Option γ) → Prop :=
  AfterAttempt Trail.Uncommitted fun trail result => Accounted c r trail (result.map answer)

theorem Safe.account {γ : Type} {answer : γ → Response} {steps : List Step} {result : γ}
    (hserves : c.Serves r.datamart s) (huncommitted : trail.Uncommitted)
    (hpaths : ∀ step ∈ steps, ∃ p : Path, step.path = p.text)
    (hcommitted : ∀ h t', h.Orderly → trail.Precedes h → h.now.Commits steps t' →
      ∃ m, s.Turns m h.now t' ∧ Effect s trail h r.command m (answer result)) :
    ((scopeAt c r s).commit steps result).Safe (c.Serves r.datamart) (Accounts c r answer)
      trail := by
  apply Safe.transact (s := s) hpaths
  · intro h t' horderly hprecedes hcommits
    obtain ⟨m, hturns, heffect⟩ := hcommitted h t' horderly hprecedes hcommits
    refine ⟨⟨m, hserves, hturns, heffect.seen⟩, ?_⟩
    have hcommitted : (Call.transact steps).commits h.now = true := by
      simp [Call.commits, Tree.transact_of_commits hcommits]
    have hafter : (h.now.answer (.transact steps)).2 = t' :=
      congrArg Prod.snd (Tree.transact_of_commits hcommits)
    rw [← hafter] at hturns
    exact Accounted.committed rfl huncommitted hserves hcommitted hturns heffect
  · intro h index path conflict horderly hprecedes habort
    have hcommits : (Call.transact steps).commits h.now = false := by
      simp [Call.commits, habort]
    exact huncommitted.answered hcommits (congrArg Prod.snd habort)

section Ledger

variable (hserves : c.Serves r.datamart s) (huncommitted : trail.Uncommitted)

include hserves huncommitted

theorem accounts_register {registration : Registration}
    (hcommand : r.command = .registerWrite registration) :
    ((scopeAt c r s).tryRegister registration).Safe (c.Serves r.datamart)
      (Accounts c r .sysCn) trail := by
  unfold Scope.tryRegister
  simp only [scopeAt_layout, scopeAt_datamart, Site.layout_hot, Site.layout_counters,
    Site.layout_write]
  apply Safe.require Site.suits_hot
  · intro h _ _ _
    exact Accounted.failed huncommitted.read
  · intro h1 hot horderly1 hprecedes1 hhot
    cases hrolling : hot.record.rollingBack with
    | true => exact Accounted.failed huncommitted.read
    | false =>
        rw [if_neg (by simp)]
        apply Safe.counters_after (s := s) rfl horderly1 hhot
        intro h2 counters horderly2 hprecedes2 hcounters
        have huncommitted2 := (huncommitted.read (p := s.path .hot) (h := h1)).read
          (p := s.path .counters) (h := h2)
        have hmem1 := List.mem_cons_of_mem (.answered (.read (s.path .counters).text) h2)
          (List.mem_cons_self (a := .answered (.read (s.path .hot).text) h1) (l := trail))
        apply Safe.ledger (s := s) rfl
        intro seen entries hscanned
        have huncommitted3 := hscanned.uncommitted.append huncommitted2
        cases hfind : Scope.blocking? entries registration.tableName with
        | some found => exact Accounted.failed huncommitted3
        | none =>
            refine Safe.ofExcept ?_ fun _ _ => Accounted.failed huncommitted3
            intro next hencode
            refine Safe.ofExcept ?_ fun _ _ => Accounted.failed huncommitted3
            intro payload hencode'
            apply Safe.account hserves huncommitted3 (by simp)
            intro h t' horderly hprecedes hcommits
            obtain ⟨_, _, _, hcounters', _, hturns⟩ := register_turns hscanned hfind hmem1 hhot
              hrolling List.mem_cons_self hcounters hencode hencode' horderly hprecedes hcommits
            refine ⟨_, hturns, ?_⟩
            rw [hcommand, ← Book.sequence_of_counters hcounters', ← hserves.2]
            exact .registered

theorem accounts_finish {n : Int} {status : WriteStatus} (hstatus : status ≠ .inProgress)
    (hspares : r.command.Spares)
    (heffect : ∀ before h, Effect s before h r.command (.finished n status) .done) :
    ((scopeAt c r s).tryFinish n status).Safe (c.Serves r.datamart)
      (Accounts c r fun _ => .done) trail := by
  unfold Scope.tryFinish
  simp only [scopeAt_layout, scopeAt_datamart, Site.layout_hot, Site.layout_write]
  apply Safe.hot (s := s) rfl
  · intro h _ _ _
    exact Accounted.failed huncommitted.read
  · intro h1 hot horderly1 hprecedes1 hhot
    have huncommitted1 := huncommitted.read (p := s.path .hot) (h := h1)
    apply Safe.write (s := s) rfl
    · intro h _ _ _
      exact Accounted.failed huncommitted1.read
    · intro h2 entry horderly2 hprecedes2 hentry
      have huncommitted2 := huncommitted1.read (p := s.path (.write n)) (h := h2)
      split
      next => exact Accounted.spared huncommitted2 hspares
      next =>
        split
        next => exact Accounted.failed huncommitted2
        next hprogress =>
          have hprogress' :=
            WriteStatus.isTerminal_eq_false_iff.mp (Bool.not_eq_true _ ▸ hprogress)
          refine Safe.ofExcept ?_ fun _ _ => Accounted.failed huncommitted2
          intro payload hencode
          apply Safe.account hserves huncommitted2 (by simp)
          intro h t' horderly hprecedes hcommits
          obtain ⟨_, _, _, hturns⟩ := finish_turns hstatus horderly hprecedes.head hentry
            hprogress' hencode hcommits
          exact ⟨_, hturns, heffect _ h⟩

theorem accounts_withdraw {n : Int} (hcommand : r.command = .withdrawWrite n) :
    ((scopeAt c r s).tryWithdraw n).Safe (c.Serves r.datamart)
      (Accounts c r fun _ => .done) trail := by
  unfold Scope.tryWithdraw
  simp only [scopeAt_layout, Site.layout_hot, Site.layout_write]
  apply Safe.hot (s := s) rfl
  · intro h _ _ _
    exact Accounted.failed huncommitted.read
  · intro h1 hot horderly1 hprecedes1 hhot
    have huncommitted1 := huncommitted.read (p := s.path .hot) (h := h1)
    apply Safe.write (s := s) rfl
    · intro h _ _ _
      exact Accounted.failed huncommitted1.read
    · intro h2 entry horderly2 hprecedes2 hentry
      apply Safe.account hserves huncommitted1.read (by simp)
      intro h t' horderly hprecedes hcommits
      obtain ⟨_, _, _, hturns⟩ := withdraw_turns horderly hprecedes.head hentry hcommits
      refine ⟨_, hturns, ?_⟩
      rw [hcommand]
      exact .withdrawn

end Ledger

end Attempts

end DeltaLedger
