import DeltaLedger.Proofs.Cluster
import DeltaLedger.Proofs.Encounters
import DeltaLedger.Proofs.Proposals

/-!
# Requests that fail have done nothing

Whatever a store holds, whatever others do to it between two calls, and whatever it was told
to fail at, a request changes it by at most one transaction.  Once that is committed, the
request makes no more calls and succeeds, so a request that fails has changed nothing.

All attempts but one kind are the same in this: they read, and then give up or submit a
transaction.  An attempt to finish a write that finds it finished as asked is content
without a transaction.
-/

namespace DeltaLedger

open Program

/-- How a request ends: all of its calls were harmless and it fails, or it has an excuse to
have changed nothing; or its last call and no other has committed a transaction. -/
inductive Decided (spared : List Encounter → Prop) {γ : Type} (seen : List Encounter) :
    Except Failure γ → Prop where
  | failed {e : Failure} (hseen : ∀ e ∈ seen, e.Harmless) : Decided spared seen (.error e)
  | spared {a : γ} (hseen : ∀ e ∈ seen, e.Harmless) (hspared : spared seen) :
      Decided spared seen (.ok a)
  | committed {e : Encounter} {before : List Encounter} {a : γ} (hlast : seen = e :: before)
      (hkind : e.call.isTransaction = true) (hcommits : e.commits = true)
      (hbefore : ∀ e ∈ before, e.Harmless) : Decided spared seen (.ok a)

section Ends

variable {spared : List Encounter → Prop} {γ : Type} {seen : List Encounter}
variable {result : Except Failure γ}

theorem Decided.map {δ : Type} (hdecided : Decided spared seen result) (answer : γ → δ) :
    Decided spared seen (result.map answer) := by
  cases hdecided with
  | failed hseen => exact .failed hseen
  | spared hseen hspared => exact .spared hseen hspared
  | committed hlast hkind hcommits hbefore => exact .committed hlast hkind hcommits hbefore

theorem Decided.mono {spared' : List Encounter → Prop} (hdecided : Decided spared seen result)
    (himp : spared seen → spared' seen) : Decided spared' seen result := by
  cases hdecided with
  | failed hseen => exact .failed hseen
  | spared hseen hspared => exact .spared hseen (himp hspared)
  | committed hlast hkind hcommits hbefore => exact .committed hlast hkind hcommits hbefore

theorem Decided.kinds (hdecided : Decided spared seen result) :
    ∀ e ∈ seen, e.call.reads = true ∨ e.call.isTransaction = true := by
  cases hdecided with
  | failed hseen => exact fun e he => (hseen e he).1
  | spared hseen _ => exact fun e he => (hseen e he).1
  | committed hlast hkind _ hbefore =>
      rw [hlast]
      exact List.forall_mem_cons.mpr ⟨.inr hkind, fun e he => (hbefore e he).1⟩

theorem Decided.tail (hdecided : Decided spared seen result) :
    ∀ e ∈ seen.tail, e.commits = false := by
  cases hdecided with
  | failed hseen => exact fun e he => (hseen e (List.mem_of_mem_tail he)).2
  | spared hseen _ => exact fun e he => (hseen e (List.mem_of_mem_tail he)).2
  | committed hlast _ _ hbefore =>
      rw [hlast]
      exact fun e he => (hbefore e he).2

end Ends

/-! ## Attempts -/

namespace Program

variable {α γ : Type} {spared : List Encounter → Prop} {seen : List Encounter}

/-- What an attempt leaves behind: it was harmless and lost its race, or it has decided. -/
def Submits (spared : List Encounter → Prop) (attempt : Program Failure (Option γ)) : Prop :=
  ∀ seen, (∀ e ∈ seen, e.Harmless) →
    attempt.Ensures (AfterAttempt (fun seen => ∀ e ∈ seen, e.Harmless) (Decided spared)) seen

theorem submits_commit (scope : Scope) (steps : List Step) (result : γ) :
    (scope.commit steps result).Submits spared := by
  intro seen hseen store
  have hkind : (Call.transact steps).reads = true ∨
      (Call.transact steps).isTransaction = true := .inr rfl
  cases hreply : (store.answer (.transact steps)).1 with
  | error e =>
      have hcommits : Encounter.commits ⟨.transact steps, store⟩ = false := by
        simp [Encounter.commits, hreply, Call.confirms]
      exact Decided.failed (List.forall_mem_cons.mpr ⟨⟨hkind, hcommits⟩, hseen⟩)
  | ok outcome =>
      cases outcome with
      | committed =>
          have hcommits : Encounter.commits ⟨.transact steps, store⟩ = true := by
            simp [Encounter.commits, hreply, Call.confirms]
          exact Decided.committed rfl rfl hcommits hseen
      | aborted =>
          have hcommits : Encounter.commits ⟨.transact steps, store⟩ = false := by
            simp [Encounter.commits, hreply, Call.confirms]
          exact List.forall_mem_cons.mpr ⟨⟨hkind, hcommits⟩, hseen⟩

theorem Proposes.submits {attempt : Program Failure (Option γ)} (hproposes : attempt.Proposes false) :
    attempt.Submits spared := by
  induction hproposes with
  | failed hbeaten => exact fun seen hseen => Decided.failed hseen
  | content a hrests => cases hrests
  | commit scope steps a => exact submits_commit scope steps a
  | look hlooks _ ih =>
      intro seen hseen
      exact hlooks.reads.ensures_bind hseen (fun seen a => ih a seen) fun _ _ => .failed

theorem Submits.attempts {scope : Scope} {attempt : Program Failure (Option γ)}
    (hsubmits : attempt.Submits spared) (left : Nat) (hseen : ∀ e ∈ seen, e.Harmless) :
    (scope.attempts attempt left).Ensures (Decided spared) seen := by
  induction left generalizing seen with
  | zero => exact Decided.failed hseen
  | succ left ih =>
      apply (hsubmits seen hseen).bind
      · intro seen result hafter
        cases result with
        | none => exact ih hafter
        | some a => exact hafter
      · exact fun seen e hafter => hafter

end Program

theorem Decides.ensures {scope : Scope} {command : Command} {γ : Type}
    {attempt : Program Failure (Option γ)} {answer : γ → Response}
    {spared : List Encounter → Prop} {seen : List Encounter}
    (hdecides : Decides scope command attempt answer) (hsubmits : attempt.Submits spared)
    (hseen : ∀ e ∈ seen, e.Harmless) :
    (scope.perform command).Ensures (Decided spared) seen := by
  obtain ⟨notice, hperform⟩ := hdecides
  rw [hperform]
  apply (hsubmits.attempts _ hseen).bind
  · exact fun seen a hdecided => hdecided.map answer
  · exact fun seen e hdecided => hdecided.map answer

/-! ## Attempts to finish a write -/

/-- An attempt to finish a write has just read a hot delta and the write, which has the status
already. -/
structure FoundFinished (l : Layout) (n : Int) (status : WriteStatus) (seen : List Encounter) :
    Prop where
  reads : ∃ store store' before,
    seen = ⟨.read (l.write n), store'⟩ :: ⟨.read l.hot, store⟩ :: before ∧
      (∃ hot, Scope.readResult HotDelta l.hot (store.answer (.read l.hot)).1 = .ok (some hot)) ∧
      ∃ entry, Scope.readResult WriteOperation (l.write n) (store'.answer (.read (l.write n))).1 =
        .ok (some entry) ∧ entry.record.status = status

theorem Ensures.read {α β : Type} [Stored α] {path : String}
    {f : Option (Versioned α) → Program Failure β} {seen : List Encounter}
    {post : List Encounter → Except Failure β → Prop}
    (herror : ∀ store e, post (⟨.read path, store⟩ :: seen) (.error e))
    (hfound : ∀ store found, Scope.readResult α path (store.answer (.read path)).1 = .ok found →
      (f found).Ensures post (⟨.read path, store⟩ :: seen)) :
    (Scope.read α path >>= f).Ensures post seen := by
  rw [Scope.read_eq]
  intro store
  change (Program.bind (.done (Scope.readResult α path (store.answer (.read path)).1)) f).Ensures
    post _
  cases hresult : Scope.readResult α path (store.answer (.read path)).1 with
  | error e => exact herror store e
  | ok found => exact hfound store found hresult

theorem Ensures.require {α β : Type} [Stored α] {path : String} {missing : Failure}
    {f : Versioned α → Program Failure β} {seen : List Encounter}
    {post : List Encounter → Except Failure β → Prop}
    (herror : ∀ store e, post (⟨.read path, store⟩ :: seen) (.error e))
    (hfound : ∀ store found, Scope.readResult α path (store.answer (.read path)).1 =
      .ok (some found) → (f found).Ensures post (⟨.read path, store⟩ :: seen)) :
    (Scope.require α path missing >>= f).Ensures post seen := by
  unfold Scope.require
  rw [bind_bind]
  apply Ensures.read herror
  intro store found hresult
  cases found with
  | none => exact herror store missing
  | some found => exact hfound store found hresult

theorem submits_finish (scope : Scope) (n : Int) (status : WriteStatus) :
    (scope.tryFinish n status).Submits (FoundFinished scope.layout n status) := by
  intro seen hseen
  have hread : ∀ (path : String) store seen, (∀ e ∈ seen, e.Harmless) →
      ∀ e ∈ ⟨.read path, store⟩ :: seen, Encounter.Harmless e := by
    intro path store seen hseen
    exact List.forall_mem_cons.mpr ⟨Encounter.harmless_of_reads rfl, hseen⟩
  apply Ensures.require
  · exact fun store e => Decided.failed (hread _ store seen hseen)
  · intro store hot hhot
    have hseen1 := hread scope.layout.hot store seen hseen
    apply Ensures.require
    · exact fun store e => Decided.failed (hread _ store _ hseen1)
    · intro store' entry hentry
      have hseen2 := hread (scope.layout.write n) store' _ hseen1
      split
      next hstatus =>
        exact Decided.spared hseen2
          ⟨store, store', seen, rfl, ⟨hot, hhot⟩, entry, hentry, hstatus⟩
      next =>
        split
        next => exact Decided.failed hseen2
        next =>
          refine Proposes.submits ?_ _ hseen2
          exact proposes_ofExcept (blameless_encode _) fun payload => .commit _ _ _

/-! ## Requests -/

/-- The write that a command finishes, and how. -/
def Command.finishes? : Command → Option (Int × WriteStatus)
  | .succeedWrite n => some (n, .success)
  | .failWrite n => some (n, .error)
  | _ => none

/-- What a command may see that spares it a transaction. -/
def Command.Spared (command : Command) (l : Layout) (seen : List Encounter) : Prop :=
  command.Asks ∨ ∃ n status, command.finishes? = some (n, status) ∧ FoundFinished l n status seen

theorem ensures_finish {scope : Scope} {command : Command} {n : Int} {status : WriteStatus}
    {seen : List Encounter} (hseen : ∀ e ∈ seen, e.Harmless)
    (hdecides : Decides scope command (scope.tryFinish n status) fun _ => .done)
    (hfinishes : command.finishes? = some (n, status)) :
    (scope.perform command).Ensures (Decided (command.Spared scope.layout)) seen := by
  apply (hdecides.ensures (submits_finish scope n status) hseen).mono
  exact fun seen result hdecided => hdecided.mono fun hfound => .inr ⟨n, status, hfinishes, hfound⟩

theorem ensures_perform (scope : Scope) (command : Command) {seen : List Encounter}
    (hseen : ∀ e ∈ seen, e.Harmless) :
    (scope.perform command).Ensures (Decided (command.Spared scope.layout)) seen := by
  have hasks : command.Asks →
      (scope.perform command).Ensures (Decided (command.Spared scope.layout)) seen := by
    intro hasks
    apply ((looks_perform hasks).reads.ensures hseen).mono
    intro seen result hharmless
    cases result with
    | ok response => exact .spared hharmless (.inl hasks)
    | error e => exact .failed hharmless
  cases command with
  | openDelta => exact (decides_open scope).ensures (proposes_open scope).submits hseen
  | commitDelta asked =>
      have hgiven : ∀ date seen, (∀ e ∈ seen, Encounter.Harmless e) →
          (scope.perform (.commitDelta (some date))).Ensures
            (Decided (Command.Spared (.commitDelta asked) scope.layout)) seen :=
        fun date seen hseen => (decides_promote scope date).ensures (proposes_promote scope _).submits hseen
      cases asked with
      | some date => exact hgiven date seen hseen
      | none =>
          rw [perform_commitDelta_none]
          exact fun now => hgiven _ seen hseen
  | failDelta n => exact (decides_mark scope n).ensures (proposes_mark scope n).submits hseen
  | discardDelta => exact (decides_discard scope).ensures (proposes_discard scope).submits hseen
  | registerWrite registration =>
      exact (decides_register scope registration).ensures (proposes_register scope registration).submits hseen
  | succeedWrite n => exact ensures_finish hseen (decides_succeed scope n) rfl
  | failWrite n => exact ensures_finish hseen (decides_failWrite scope n) rfl
  | withdrawWrite n => exact (decides_withdraw scope n).ensures (proposes_withdraw scope n).submits hseen
  | _ => exact hasks trivial

/-- What a request may see that spares it a transaction. -/
def Coordinator.Spared (c : Coordinator) (r : Request) (seen : List Encounter) : Prop :=
  ∃ root, Datamart.parseRoot c.env r.datamart = .ok root ∧ r.command.Spared (.below root) seen

theorem ensures_execute (c : Coordinator) (r : Request) :
    (c.execute r).Ensures (Decided (c.Spared r)) [] := by
  unfold Coordinator.execute
  cases r.command.fault? with
  | some failure => exact Decided.failed nofun
  | none =>
      unfold Scope.enter
      cases hroot : Datamart.parseRoot c.env r.datamart with
      | error e => exact Decided.failed nofun
      | ok root =>
          intro store
          have hseen : ∀ e ∈ [⟨.stat root, store⟩], Encounter.Harmless e :=
            List.forall_mem_singleton.mpr (Encounter.harmless_of_reads rfl)
          cases (store.answer (.stat root)).1 with
          | error e => exact Decided.failed hseen
          | ok found =>
              cases found with
              | none => exact Decided.failed hseen
              | some stat =>
                  apply (ensures_perform ⟨c, r.operation, r.datamart, .below root⟩ r.command
                    hseen).mono
                  exact fun seen result hdecided => hdecided.mono fun hspared => ⟨root, hroot, hspared⟩

theorem ensures_serve (c : Coordinator) (r : Request) :
    (c.serve r).Ensures (Decided (c.Spared r)) [] := by
  apply (ensures_execute c r).andThen
  intro seen result hdecided
  cases result with
  | ok response => exact hdecided
  | error failure => exact hdecided

/-! ## Encounters of a request -/

/-- What a request has done at the calls that it has made so far, given what is left of it. -/
structure Atomic (c : Coordinator) (r : Request) (seen : List Encounter)
    (rest : Program Failure Response) : Prop where
  /-- Nothing is created, written or deleted but by transactions. -/
  kinds : ∀ e ∈ seen, e.call.reads = true ∨ e.call.isTransaction = true
  asks : r.command.Asks → ∀ e ∈ seen, e.call.reads = true
  kept : ∀ e ∈ seen, e.commits = false → e.after.tree = e.store.tree
  once : seen.countP Encounter.commits ≤ 1
  last : ∀ later e before, seen = later ++ e :: before → e.commits = true → later = []
  failed : ∀ failure, rest = .done (.error failure) →
    ∀ e ∈ seen, e.commits = false ∧ e.after.tree = e.store.tree
  succeeded : ∀ response, rest = .done (.ok response) → ¬r.command.Asks →
    seen.countP Encounter.commits = 1 ∨
      seen.countP Encounter.commits = 0 ∧ ∃ root n status,
        Datamart.parseRoot c.env r.datamart = .ok root ∧
          r.command.finishes? = some (n, status) ∧ FoundFinished (.below root) n status seen

theorem countP_eq_zero_of_harmless {seen : List Encounter} (hseen : ∀ e ∈ seen, e.Harmless) :
    seen.countP Encounter.commits = 0 :=
  List.countP_eq_zero.mpr fun e he => by simp [(hseen e he).2]

section Partial

variable {more seen later before : List Encounter} {e : Encounter}

/-- What the whole of the encounters says about those that came first. -/
theorem eq_nil_of_commits (htail : ∀ e ∈ (more ++ seen).tail, e.commits = false)
    (hseen : seen = later ++ e :: before) (hcommits : e.commits = true) : later = [] := by
  cases later with
  | nil => rfl
  | cons first later =>
      have hmem : e ∈ (more ++ seen).tail := by
        rw [hseen]
        cases more <;> simp
      rw [htail e hmem] at hcommits
      cases hcommits

theorem countP_commits_le_one (htail : ∀ e ∈ (more ++ seen).tail, e.commits = false) :
    seen.countP Encounter.commits ≤ 1 := by
  cases seen with
  | nil => exact Nat.zero_le 1
  | cons e before =>
      have hnone : before.countP Encounter.commits = 0 := by
        refine List.countP_eq_zero.mpr fun e' he' => ?_
        have hmem : e' ∈ (more ++ e :: before).tail := by
          cases more <;> simp [he']
        simp [htail e' hmem]
      rw [List.countP_cons, hnone]
      split <;> omega

end Partial

/-- At every call, in whatever state it finds the store, a request either changes nothing or
commits its one transaction, which is its last call and makes it succeed. -/
theorem serve_atomic (c : Coordinator) (r : Request) {seen : List Encounter}
    {rest : Program Failure Response} (hmeets : (c.serve r).Meets seen rest) :
    Atomic c r seen rest := by
  have hrest := (ensures_serve c r).meets hmeets
  obtain ⟨more, result, hend⟩ := hrest.exists_end
  have hkinds : ∀ e ∈ seen, e.call.reads = true ∨ e.call.isTransaction = true :=
    fun e he => hend.kinds e (List.mem_append_right more he)
  have hkept : ∀ e ∈ seen, e.commits = false → e.after.tree = e.store.tree :=
    fun e he hcommits => Encounter.Harmless.tree_after ⟨hkinds e he, hcommits⟩
  constructor
  case kinds => exact hkinds
  case asks => exact fun hasks => (Makes.meets (reads_serve c hasks) hmeets).1
  case kept => exact hkept
  case once => exact countP_commits_le_one hend.tail
  case last => exact fun later e before hseen => eq_nil_of_commits hend.tail hseen
  case failed =>
    rintro failure rfl e he
    cases hrest with
    | failed hharmless => exact ⟨(hharmless e he).2, (hharmless e he).tree_after⟩
  case succeeded =>
    rintro response rfl hasks
    cases hrest with
    | spared hharmless hspared =>
        obtain ⟨root, hroot, hfound⟩ := hspared
        obtain hasked | ⟨n, status, hfinishes, hreads⟩ := hfound
        · exact absurd hasked hasks
        · exact .inr ⟨countP_eq_zero_of_harmless hharmless, root, n, status, hroot, hfinishes, hreads⟩
    | committed hlast _ hcommits hbefore =>
        left
        rw [hlast, List.countP_cons_of_pos hcommits, countP_eq_zero_of_harmless hbefore]

section Samples

/-- The encounters of a program that is alone with a store, and its result. -/
def Program.alone {ε α : Type} (time : DateTime) :
    Program ε α → ObservedTree → List Encounter → List Encounter × Except ε α
  | .done result, _, seen => (seen, result)
  | .call c next, store, seen =>
    (next (store.answer c).1).alone time (store.answer c).2 (⟨c, store⟩ :: seen)
  | .clock next, store, seen => (next time).alone time store seen
  | .note _ next, store, seen => next.alone time store seen

theorem meets_alone {ε α : Type} {p rest : Program ε α} {seen : List Encounter}
    (time : DateTime) (store : ObservedTree) (hmeets : p.Meets seen rest) :
    p.Meets (rest.alone time store seen).1 (.done (rest.alone time store seen).2) := by
  induction rest generalizing store seen with
  | done result => exact hmeets
  | call c next ih => exact ih _ _ (hmeets.call store)
  | clock next ih => exact ih _ _ (hmeets.clock time)
  | note notice next ih => exact ih _ hmeets.note

/-- An epoch is open, and the next transaction fails. -/
def failingStore : ObservedTree :=
  ⟨(Cluster.run Sample.time Sample.roots (Sample.alone 0 .openDelta)).history.now, [], [], 1⟩

def registration : Request :=
  ⟨"dtm", .registerWrite ⟨"a", "a_ext", "q"⟩⟩

theorem serve_atomic_failingTransaction :
    ∃ seen failure, (Sample.coordinator.serve registration).Meets seen (.done (.error failure)) ∧
      (∃ e ∈ seen, e.call.isTransaction = true) ∧
        Atomic Sample.coordinator registration seen (.done (.error failure)) := by
  have hfails :
      ((Sample.coordinator.serve registration).alone Sample.time failingStore []).1.any
          (fun e => e.call.isTransaction) = true ∧
        ((Sample.coordinator.serve registration).alone Sample.time failingStore
          []).2.toOption.isNone = true := by
    decide +kernel
  obtain ⟨htransaction, hnone⟩ := hfails
  have hmeets := meets_alone Sample.time failingStore
    (.start (p := Sample.coordinator.serve registration))
  cases hresult : ((Sample.coordinator.serve registration).alone Sample.time failingStore []).2 with
  | ok response =>
      rw [hresult] at hnone
      cases hnone
  | error failure =>
      rw [hresult] at hmeets
      exact ⟨_, failure, hmeets, List.any_eq_true.mp htransaction, serve_atomic _ _ hmeets⟩

end Samples

end DeltaLedger
