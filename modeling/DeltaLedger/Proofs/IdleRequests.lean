import DeltaLedger.Proofs.Interference
import DeltaLedger.Proofs.Readings

/-!
# Requests that only read

What can be said of all the calls that a program might make can be said without
looking at its results.  A program is idle when none of its calls can change a tree, as
when it only reads.  The parts of a request before its transaction only look at records: they
read, give no notice, and do not give up for lost races.  The questions about the epochs of a
datamart are made of such parts alone, and so they leave the tree as it is whoever else is at
work.
-/

namespace DeltaLedger

/-- Calls that only look. -/
def Call.reads : Call → Bool
  | .stat _ | .read _ | .children _ => true
  | _ => false

namespace Program

variable {ε ε' α β : Type} {holds : Call → Prop}

/-- All calls that the program may make have a property. -/
def Makes (holds : Call → Prop) : Program ε α → Prop
  | .done _ => True
  | .call c next => holds c ∧ ∀ reply, (next reply).Makes holds
  | .clock next => ∀ now, (next now).Makes holds
  | .note _ next => next.Makes holds

theorem Makes.bind {p : Program ε α} {f : α → Program ε β} (hmakes : p.Makes holds)
    (hnext : ∀ a, (f a).Makes holds) : (p >>= f).Makes holds := by
  induction p with
  | done result =>
      cases result with
      | ok a => exact hnext a
      | error e => trivial
  | call c next ih => exact ⟨hmakes.1, fun reply => ih reply (hmakes.2 reply)⟩
  | clock next ih => exact fun now => ih now (hmakes now)
  | note n next ih => exact ih hmakes

theorem Makes.andThen {p : Program ε α} {f : Except ε α → Program ε' β} (hmakes : p.Makes holds)
    (hnext : ∀ result, (f result).Makes holds) : (p.andThen f).Makes holds := by
  induction p with
  | done result => exact hnext result
  | call c next ih => exact ⟨hmakes.1, fun reply => ih reply (hmakes.2 reply)⟩
  | clock next ih => exact fun now => ih now (hmakes now)
  | note n next ih => exact ih hmakes

theorem Makes.mono {holds' : Call → Prop} {p : Program ε α} (hmakes : p.Makes holds)
    (himp : ∀ c, holds c → holds' c) : p.Makes holds' := by
  induction p with
  | done result => trivial
  | call c next ih => exact ⟨himp c hmakes.1, fun reply => ih reply (hmakes.2 reply)⟩
  | clock next ih => exact fun now => ih now (hmakes now)
  | note n next ih => exact ih hmakes

/-- What every call keeps of a tree, the program keeps when it runs alone. -/
theorem Makes.runAlone {p : Program ε α} (keeps : Tree → Prop) (hmakes : p.Makes holds)
    (hkeeps : ∀ c t, holds c → keeps t → keeps (t.answer c).2) {time : DateTime} {t : Tree}
    (ht : keeps t) : keeps (p.runAlone time t).2 := by
  induction p generalizing t with
  | done result => exact ht
  | call c next ih => exact ih _ (hmakes.2 _) (hkeeps c t hmakes.1 ht)
  | clock next ih => exact ih time (hmakes time) ht
  | note n next ih => exact ih hmakes ht

/-- No call of the program commits a transaction or changes a tree. -/
def Idle (p : Program ε α) : Prop :=
  p.Makes fun c => ∀ t : Tree, c.commits t = false ∧ (t.answer c).2 = t

theorem Idle.safe {p : Program ε α} {sites : Site → Prop} {trail : Trail} (hidle : p.Idle)
    (huncommitted : trail.Uncommitted) :
    p.Safe sites (fun trail _ => trail.Uncommitted) trail := by
  induction p generalizing trail with
  | done result => exact huncommitted
  | call c next ih =>
      intro h _ _
      obtain ⟨hcommits, hsame⟩ := hidle.1 h.now
      exact ⟨.inl hsame, ih _ (hidle.2 _) (huncommitted.answered hcommits hsame)⟩
  | clock next ih => exact fun now => ih now (hidle now) (huncommitted.told now)
  | note n next ih => exact ih hidle huncommitted

/-- No call of the program submits a change. -/
def Reads (p : Program ε α) : Prop :=
  p.Makes fun c => c.reads = true

theorem Reads.idle {p : Program ε α} (hreads : p.Reads) : p.Idle := by
  apply Makes.mono hreads
  intro c hc t
  cases c with
  | stat | read | children => exact ⟨rfl, rfl⟩
  | _ => cases hc

end Program

/-! ## Parts that look -/

/-- The request has given up because of lost races. -/
def beaten {α : Type} : Except Failure α → Bool
  | .error (.conflict _) => true
  | _ => false

section Results

variable {α β : Type} {result : Except Failure α}

theorem beaten_iff : beaten result = true ↔ ∃ message, result = .error (.conflict message) := by
  cases result with
  | ok a => simp [beaten]
  | error e => cases e <;> simp [beaten]

theorem beaten_map (f : α → β) : beaten (result.map f) = beaten result := by
  cases result with
  | ok a => rfl
  | error e => cases e <;> rfl

theorem beaten_readResult (α : Type) [Stored α] (path : String)
    (reply : Except StoreError (Option Node)) : beaten (Scope.readResult α path reply) = false := by
  cases reply with
  | error e => rfl
  | ok found =>
      cases found with
      | none => rfl
      | some node =>
          refine (beaten_map _).trans ?_
          unfold Stored.decode
          split <;> rfl

end Results

namespace Program

variable {α β : Type}

/-- The program only reads, gives no notice, and does not give up because of lost races. -/
def Looks : Program Failure α → Prop
  | .done result => beaten result = false
  | .call c next => c.reads = true ∧ ∀ reply, (next reply).Looks
  | .clock next => ∀ now, (next now).Looks
  | .note _ _ => False

theorem Looks.bind {p : Program Failure α} {f : α → Program Failure β} (hlooks : p.Looks)
    (hnext : ∀ a, (f a).Looks) : (p >>= f).Looks := by
  induction p with
  | done result =>
      cases result with
      | ok a => exact hnext a
      | error e => cases e <;> exact hlooks
  | call c next ih => exact ⟨hlooks.1, fun reply => ih reply (hlooks.2 reply)⟩
  | clock next ih => exact fun now => ih now (hlooks now)
  | note n next => cases hlooks

theorem Looks.map {p : Program Failure α} {f : α → β} (hlooks : p.Looks) : (f <$> p).Looks :=
  hlooks.bind fun _ => rfl

theorem Looks.reads {p : Program Failure α} (hlooks : p.Looks) : p.Reads := by
  induction p with
  | done result => trivial
  | call c next ih => exact ⟨hlooks.1, fun reply => ih reply (hlooks.2 reply)⟩
  | clock next ih => exact fun now => ih now (hlooks now)
  | note n next => cases hlooks

end Program

namespace Scope

open Program

variable {scope : Scope}

theorem looks_localTime : scope.localTime.Looks :=
  fun _ => rfl

theorem looks_enter (c : Coordinator) (operation : Operation) (datamart : String) :
    (enter c operation datamart).Looks := by
  unfold enter
  cases Datamart.parseRoot c.env datamart with
  | error e => rfl
  | ok root =>
      refine ⟨rfl, fun reply => ?_⟩
      cases reply with
      | error e => rfl
      | ok found => cases found <;> rfl

theorem looks_read (α : Type) [Stored α] (path : String) : (read α path).Looks := by
  rw [read_eq]
  exact ⟨rfl, beaten_readResult α path⟩

theorem looks_require (α : Type) [Stored α] (path : String) {missing : Failure}
    (hmissing : beaten (.error missing : Except Failure Unit) = false) :
    (require α path missing).Looks := by
  apply (looks_read α path).bind
  intro found
  cases found with
  | none => cases missing <;> exact hmissing
  | some found => rfl

theorem looks_hot : scope.hot.Looks :=
  looks_require _ _ rfl

theorem looks_counters : scope.counters.Looks :=
  looks_require _ _ rfl

theorem looks_write (n : Int) : (scope.write n).Looks :=
  looks_require _ _ rfl

theorem looks_namesBelow (path : String) : (namesBelow path).Looks := by
  rw [namesBelow_eq]
  refine ⟨rfl, fun reply => ?_⟩
  cases reply with
  | ok names => rfl
  | error e => cases e <;> rfl

theorem looks_writesAt (ns : List Int) : (scope.writesAt ns).Looks := by
  induction ns with
  | nil => rfl
  | cons n ns ih => exact (looks_read _ _).bind fun _ => ih.bind fun _ => rfl

theorem looks_ledger : scope.ledger.Looks :=
  (looks_namesBelow _).bind fun _ => (looks_writesAt _).bind fun _ => rfl

theorem looks_checkDate (counters : Counters) (date : DateTime) :
    (scope.checkDate counters date).Looks := by
  unfold checkDate
  cases counters.lastDeltaNum with
  | none => rfl
  | some n =>
      apply (looks_read _ _).bind
      intro last
      cases last with
      | none => rfl
      | some last =>
          dsimp only
          split <;> rfl

theorem looks_firstBy (t : DateTime) (ns : List Int) : (scope.firstBy t ns).Looks := by
  induction ns with
  | nil => rfl
  | cons n ns ih =>
      apply (looks_read _ _).bind
      intro ok
      cases ok with
      | none => exact ih
      | some ok =>
          dsimp only
          split
          · rfl
          · exact ih

theorem looks_readHot : scope.readHot.Looks :=
  looks_hot.bind fun _ => rfl

theorem looks_readLatest : scope.readLatest.Looks := by
  apply (looks_read _ _).bind
  intro found
  cases found.bind fun counters => counters.record.lastDeltaNum with
  | none => rfl
  | some n => exact (looks_require _ _ rfl).bind fun _ => rfl

theorem looks_readByNumber (n : Int) : (scope.readByNumber n).Looks := by
  have hcommitted : (scope.committed? n).Looks := by
    unfold committed?
    split
    · exact looks_read _ _
    · rfl
  apply hcommitted.bind
  intro ok
  cases ok with
  | some ok => rfl
  | none =>
      apply (looks_read _ _).bind
      intro hot
      cases hot with
      | none => rfl
      | some hot =>
          dsimp only
          split <;> rfl

theorem looks_readAsOf (t : DateTime) : (scope.readAsOf t).Looks :=
  (looks_namesBelow _).bind fun _ => looks_firstBy t _

theorem looks_readLedger : scope.readLedger.Looks := by
  apply (looks_read _ _).bind
  intro hot
  cases hot with
  | none => rfl
  | some hot => exact looks_ledger.bind fun _ => rfl

end Scope

open Program

/-- The commands that only ask. -/
def Command.Asks : Command → Prop
  | .readHot | .readLatest | .readByNumber _ | .readAsOf _ | .readLedger => True
  | _ => False

theorem looks_perform {scope : Scope} {command : Command} (hasks : command.Asks) :
    (scope.perform command).Looks := by
  cases command with
  | readHot => exact Scope.looks_readHot.map
  | readLatest => exact Scope.looks_readLatest.map
  | readByNumber n => exact (Scope.looks_readByNumber n).map
  | readAsOf t => exact (Scope.looks_readAsOf t).map
  | readLedger => exact Scope.looks_readLedger.map
  | _ => cases hasks

theorem reads_serve (c : Coordinator) {r : Request} (hasks : r.command.Asks) :
    (c.serve r).Reads := by
  refine Makes.andThen (p := c.execute r) ?_ fun result => by cases result <;> trivial
  unfold Coordinator.execute
  cases r.command.fault? with
  | some failure => trivial
  | none => exact Makes.bind (Scope.looks_enter _ _ _).reads fun scope => (looks_perform hasks).reads

end DeltaLedger
