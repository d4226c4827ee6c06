import DeltaLedger.NodeTree.Observed
import DeltaLedger.Proofs.IdleRequests
import DeltaLedger.Proofs.ScopeRules

/-!
# Encounters with a store

At every call of a program the store may hold anything: other clients have been at work
since the last call, or somebody has damaged its nodes, and it may have been told to fail.
An encounter is one call with the store that served it, and a program meets a list of
encounters when it has made these calls, of which the newest comes first.

What every end of a program says about its encounters is shown along the constructors of
the program, and then holds for as many of them as it has come to make.
-/

namespace DeltaLedger

/-- A call has told its client that a transaction is committed. -/
def Call.confirms : (c : Call) → c.Reply → Bool
  | .transact _, .ok .committed => true
  | _, _ => false

/-- A call and the store that served it. -/
structure Encounter where
  call : Call
  store : ObservedTree

namespace Encounter

/-- The store as the call has left it. -/
def after (e : Encounter) : ObservedTree :=
  (e.store.answer e.call).2

def commits (e : Encounter) : Bool :=
  e.call.confirms (e.store.answer e.call).1

/-- The call has looked, or has submitted a transaction that was not committed. -/
def Harmless (e : Encounter) : Prop :=
  (e.call.reads = true ∨ e.call.isTransaction = true) ∧ e.commits = false

/-- Whatever the store was told to fail at, a harmless call leaves its tree as it was. -/
theorem Harmless.tree_after {e : Encounter} (hharmless : e.Harmless) :
    e.after.tree = e.store.tree := by
  obtain ⟨c, store⟩ := e
  obtain ⟨hkind, hcommits⟩ := hharmless
  unfold after
  unfold commits at hcommits
  cases hfailure : store.failure? c with
  | some error =>
      simp only [ObservedTree.answer, hfailure, ObservedTree.afterFailure]
      split <;> rfl
  | none =>
      simp only [ObservedTree.answer, hfailure] at hcommits ⊢
      cases c with
      | stat | read | children => rfl
      | create | write | delete => simp [Call.reads, Call.isTransaction] at hkind
      | transact steps =>
          cases hsteps : store.tree.stepsFrom 0 steps with
          | ok t' => simp [Tree.answer, Tree.transact, hsteps, Call.confirms] at hcommits
          | error stop =>
              obtain ⟨index, path, refusal⟩ := stop
              cases refusal <;> simp [Tree.answer, Tree.transact, hsteps]

theorem harmless_of_reads {e : Encounter} (hreads : e.call.reads = true) : e.Harmless := by
  obtain ⟨c, store⟩ := e
  refine ⟨.inl hreads, ?_⟩
  cases c with
  | transact => cases hreads
  | _ => rfl

end Encounter

namespace Program

variable {ε ε' α β : Type}

/-- A program has met a store some number of times, at each call in any state, and has come
to what is left of it. -/
inductive Meets (p : Program ε α) : List Encounter → Program ε α → Prop where
  | start : p.Meets [] p
  | call {seen : List Encounter} {c : Call} {next : c.Reply → Program ε α}
      (hmeets : p.Meets seen (.call c next)) (store : ObservedTree) :
      p.Meets (⟨c, store⟩ :: seen) (next (store.answer c).1)
  | clock {seen : List Encounter} {next : DateTime → Program ε α}
      (hmeets : p.Meets seen (.clock next)) (now : DateTime) : p.Meets seen (next now)
  | note {seen : List Encounter} {notice : Notice} {next : Program ε α}
      (hmeets : p.Meets seen (.note notice next)) : p.Meets seen next

/-- Every end that the program can come to is as stated. -/
def Ensures (post : List Encounter → Except ε α → Prop) :
    Program ε α → List Encounter → Prop
  | .done result, seen => post seen result
  | .call c next, seen => ∀ store, (next (store.answer c).1).Ensures post (⟨c, store⟩ :: seen)
  | .clock next, seen => ∀ now, (next now).Ensures post seen
  | .note _ next, seen => next.Ensures post seen

theorem Makes.meets {holds : Call → Prop} {p rest : Program ε α} {seen : List Encounter}
    (hmakes : p.Makes holds) (hmeets : p.Meets seen rest) :
    (∀ e ∈ seen, holds e.call) ∧ rest.Makes holds := by
  induction hmeets with
  | start => exact ⟨nofun, hmakes⟩
  | call _ store ih =>
      obtain ⟨hseen, hcall, hnext⟩ := ih
      exact ⟨List.forall_mem_cons.mpr ⟨hcall, hseen⟩, hnext _⟩
  | clock _ now ih => exact ⟨ih.1, ih.2 now⟩
  | note _ ih => exact ih

section Ends

variable {p rest : Program ε α} {seen : List Encounter}
variable {post post' : List Encounter → Except ε α → Prop}

theorem Ensures.meets (hensures : p.Ensures post []) (hmeets : p.Meets seen rest) :
    rest.Ensures post seen := by
  induction hmeets with
  | start => exact hensures
  | call _ store ih => exact ih store
  | clock _ now ih => exact ih now
  | note _ ih => exact ih

/-- Whatever a program has met, it can still come to an end. -/
theorem Ensures.exists_end (hensures : p.Ensures post seen) :
    ∃ more result, post (more ++ seen) result := by
  induction p generalizing seen with
  | done result => exact ⟨[], result, hensures⟩
  | call c next ih =>
      obtain ⟨more, result, hpost⟩ := ih _ (hensures .new)
      exact ⟨more ++ [⟨c, .new⟩], result, by simpa using hpost⟩
  | clock next ih => exact ih ⟨⟨2000, 1, 1, by decide⟩, ⟨0, 0, 0, 0, by decide⟩⟩ (hensures _)
  | note notice next ih => exact ih hensures

theorem Ensures.mono (hensures : p.Ensures post seen)
    (himp : ∀ seen result, post seen result → post' seen result) : p.Ensures post' seen := by
  induction p generalizing seen with
  | done result => exact himp seen result hensures
  | call c next ih => exact fun store => ih _ (hensures store)
  | clock next ih => exact fun now => ih now (hensures now)
  | note notice next ih => exact ih hensures

end Ends

/-! ## Rules -/

section Rules

variable {seen : List Encounter}

theorem Ensures.andThen {p : Program ε α} {f : Except ε α → Program ε' β}
    {mid : List Encounter → Except ε α → Prop} {post : List Encounter → Except ε' β → Prop}
    (hensures : p.Ensures mid seen)
    (hnext : ∀ seen result, mid seen result → (f result).Ensures post seen) :
    (p.andThen f).Ensures post seen := by
  induction p generalizing seen with
  | done result => exact hnext seen result hensures
  | call c next ih => exact fun store => ih _ (hensures store)
  | clock next ih => exact fun now => ih now (hensures now)
  | note notice next ih => exact ih hensures

theorem Ensures.bind {p : Program ε α} {f : α → Program ε β}
    {mid : List Encounter → Except ε α → Prop} {post : List Encounter → Except ε β → Prop}
    (hensures : p.Ensures mid seen)
    (hok : ∀ seen a, mid seen (.ok a) → (f a).Ensures post seen)
    (herror : ∀ seen e, mid seen (.error e) → post seen (.error e)) :
    (p >>= f).Ensures post seen := by
  induction p generalizing seen with
  | done result =>
      cases result with
      | ok a => exact hok seen a hensures
      | error e => exact herror seen e hensures
  | call c next ih => exact fun store => ih _ (hensures store)
  | clock next ih => exact fun now => ih now (hensures now)
  | note notice next ih => exact ih hensures

/-- A part that only reads adds harmless encounters. -/
theorem Reads.ensures {p : Program ε α} (hreads : p.Reads) (hseen : ∀ e ∈ seen, e.Harmless) :
    p.Ensures (fun seen _ => ∀ e ∈ seen, e.Harmless) seen := by
  induction p generalizing seen with
  | done result => exact hseen
  | call c next ih =>
      intro store
      apply ih _ (hreads.2 _)
      exact List.forall_mem_cons.mpr ⟨Encounter.harmless_of_reads hreads.1, hseen⟩
  | clock next ih => exact fun now => ih now (hreads now) hseen
  | note notice next ih => exact ih hreads hseen

theorem Reads.ensures_bind {p : Program ε α} {f : α → Program ε β}
    {post : List Encounter → Except ε β → Prop} (hreads : p.Reads)
    (hseen : ∀ e ∈ seen, e.Harmless)
    (hok : ∀ seen a, (∀ e ∈ seen, e.Harmless) → (f a).Ensures post seen)
    (herror : ∀ seen e, (∀ e ∈ seen, e.Harmless) → post seen (.error e)) :
    (p >>= f).Ensures post seen :=
  (hreads.ensures hseen).bind hok herror

end Rules

end Program
end DeltaLedger
