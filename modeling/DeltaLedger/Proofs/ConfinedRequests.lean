import DeltaLedger.Proofs.ClusterSteps

/-!
# Requests keep to their datamart

A request is confined to a site: it looks at the root of the datamart, reads and lists the
places of the datamart, and submits steps at these places.  A call that the store fails is
its last, and the error of the store is its result.  A missing directory is no failure, and
a list of names takes it for an empty one; no other error is excused, and no request says
that the store is unavailable of its own accord.

All attempts are of one kind.  An attempt reads, and then it fails, is content, or submits a
transaction, and what becomes of the transaction is what becomes of the attempt.  What it does
before is an inquiry, which does not look at the clock unless at its end.

All of this can be read off the text of a request, whatever the store holds.
-/

namespace DeltaLedger

/-- What a request may ask of a store that keeps its site. -/
inductive Call.Within (s : Site) : Call → Prop where
  | stat : Within s (.stat s.root.text)
  | read (place : Place) : Within s (.read (s.path place).text)
  | children (place : Place) : Within s (.children (s.path place).text)
  | transact {steps : List Step}
      (hsteps : ∀ step ∈ steps, ∃ place, step.path = (s.path place).text) :
      Within s (.transact steps)

@[simp] theorem Site.exists_place (s : Site) (place : Place) :
    ∃ place', (s.path place).text = (s.path place').text :=
  ⟨place, rfl⟩

/-- A part of a request: an inquiry before a transaction, or any other part. -/
inductive Part where
  | inquiry
  | whole

/-- A result that does not blame the store.  An inquiry does not give up for lost races
either. -/
def Blameless {α : Type} (part : Part) (result : Except Failure α) : Prop :=
  ∀ e, result = .error e → e.cause? = none ∧ (part = .inquiry → e.isRetryable = false)

section Results

variable {α β : Type} {part : Part}

theorem blameless_error {e : Failure} (hfinal : e.isRetryable = false) :
    Blameless part (.error e : Except Failure α) := by
  rintro e' ⟨⟩
  refine ⟨?_, fun _ => hfinal⟩
  cases e with
  | unavailable cause => cases hfinal
  | _ => rfl

theorem Blameless.bind {result : Except Failure α} {f : α → Except Failure β}
    (hblameless : Blameless part result) (hnext : ∀ a, Blameless part (f a)) :
    Blameless part (result >>= f) := by
  cases result with
  | ok a => exact hnext a
  | error e =>
      rintro e' ⟨⟩
      exact hblameless e rfl

theorem blameless_encode [Stored α] (record : α) : Blameless part (Stored.encode record) := by
  intro e hencode
  obtain ⟨_, message, rfl⟩ := Stored.of_encode_eq_error hencode
  exact ⟨rfl, fun _ => rfl⟩

theorem blameless_decode (α : Type) [Stored α] (path : String) (payload : List UInt8) :
    Blameless part (Stored.decode α path payload) := by
  unfold Stored.decode
  split
  next => exact nofun
  next => exact blameless_error rfl

theorem blameless_openingSteps (scope : Scope) (found : Option (Versioned Counters))
    (counters : Counters) (hot : HotDelta) :
    Blameless part (scope.openingSteps found counters hot) := by
  have hlast : ∀ before : List Step, Blameless part (do
      let payload ← Stored.encode hot
      return before ++ [.create scope.layout.hot payload]) :=
    fun _ => (blameless_encode hot).bind fun _ => nofun
  unfold Scope.openingSteps
  cases found with
  | none => exact (blameless_encode counters).bind fun _ => hlast _
  | some existing => exact hlast _

theorem blameless_commitSteps (scope : Scope) (hot : Versioned HotDelta)
    (counters : Versioned Counters) (entries : List (Versioned WriteOperation)) (ok : OkDelta) :
    Blameless part (scope.commitSteps hot counters entries ok) :=
  (blameless_encode _).bind fun _ => (blameless_encode ok).bind fun _ => nofun

end Results

/-- Calls of an inquiry. -/
def Call.inquires : Call → Bool
  | .read _ | .children _ => true
  | _ => false

/-- An error that a request takes for an answer. -/
def Call.Excuses : Call → StoreError → Prop
  | .children _, .notFound _ => True
  | _, _ => False

/-- A tree has a result for every call within a site, or an error that is an answer. -/
theorem Tree.answer_within {c : Call} {s : Site} (t : Tree) (hwithin : c.Within s) :
    (∃ result, (t.answer c).1 = .ok result) ∨ ∃ e, (t.answer c).1 = .error e ∧ c.Excuses e := by
  cases hwithin with
  | stat => exact .inl ⟨_, congrArg Prod.fst Tree.answer_stat⟩
  | read place => exact .inl ⟨_, congrArg Prod.fst Tree.answer_read⟩
  | children place =>
      rw [Tree.answer_children]
      by_cases hhas : t.has (s.path place) = true
      · exact .inl ⟨_, if_pos hhas⟩
      · exact .inr ⟨_, if_neg hhas, trivial⟩
  | @transact steps hsteps =>
      have hpaths : ∀ step ∈ steps, ∃ p : Path, step.path = p.text := by
        intro step hstep
        obtain ⟨place, hpath⟩ := hsteps step hstep
        exact ⟨s.path place, hpath⟩
      rcases Tree.transact_cases hpaths with ⟨t', _, htransact⟩ | ⟨index, path, conflict, htransact⟩
      · exact .inl ⟨.committed, congrArg Prod.fst htransact⟩
      · exact .inl ⟨.aborted index path conflict, congrArg Prod.fst htransact⟩

namespace Program

variable {ε ε' α β γ : Type} {s : Site} {part : Part} {looks : Bool}

theorem Concludes.bind {p : Program ε α} {e : ε} (hconcludes : p.Concludes (.error e))
    (f : α → Program ε β) : (p >>= f).Concludes (.error e) := by
  induction p with
  | done result =>
      cases hconcludes
      rfl
  | call c next => exact hconcludes.elim
  | clock next => exact hconcludes.elim
  | note notice next ih => exact ih hconcludes

theorem Concludes.andThen {p : Program ε α} {result : Except ε α} {result' : Except ε' β}
    {f : Except ε α → Program ε' β} (hconcludes : p.Concludes result)
    (hnext : (f result).Concludes result') : (p.andThen f).Concludes result' := by
  induction p with
  | done found =>
      cases hconcludes
      exact hnext
  | call c next => exact hconcludes.elim
  | clock next => exact hconcludes.elim
  | note notice next ih => exact ih hconcludes

theorem Concludes.makes {p : Program ε α} {result : Except ε α} {holds : Call → Prop}
    (hconcludes : p.Concludes result) : p.Makes holds := by
  induction p with
  | done found => trivial
  | call c next => exact hconcludes.elim
  | clock next => exact hconcludes.elim
  | note notice next ih => exact ih hconcludes

/-- The calls of the program lie within a site, and a call that fails ends it.  An inquiry
only inquires, and does not look at the clock. -/
def Confined (s : Site) (part : Part) : Program Failure α → Prop
  | .done result => Blameless part result
  | .call c next => c.Within s ∧ (part = .inquiry → c.inquires = true) ∧
      (∀ result, (next (.ok result)).Confined s part) ∧
      (∀ e, c.Excuses e → (next (.error e)).Confined s part) ∧
      ∀ e, ¬c.Excuses e → (next (.error e)).Concludes (.error (.unavailable e))
  | .clock next => part = .whole ∧ ∀ now, (next now).Confined s part
  | .note _ next => next.Confined s part

theorem confined_ok (a : α) : (done (.ok a) : Program Failure α).Confined s part :=
  nofun

theorem confined_fail {e : Failure} (hfinal : e.isRetryable = false) :
    (fail e : Program Failure α).Confined s part :=
  blameless_error hfinal

theorem Confined.of_inquiry {p : Program Failure α} (hinquiry : p.Confined s .inquiry) :
    p.Confined s .whole := by
  induction p with
  | done result => exact fun e he => ⟨(hinquiry e he).1, nofun⟩
  | call c next ih =>
      obtain ⟨hwithin, _, hok, hexcused, herror⟩ := hinquiry
      exact ⟨hwithin, nofun, fun result => ih _ (hok result),
        fun e he => ih _ (hexcused e he), herror⟩
  | clock next => cases hinquiry.1
  | note notice next ih => exact ih hinquiry

theorem Confined.andThen {p : Program Failure α} {f : Except Failure α → Program Failure β}
    (hconfined : p.Confined s part)
    (hnext : ∀ result, Blameless part result → (f result).Confined s part)
    (hfailed : ∀ e, (f (.error (.unavailable e))).Concludes (.error (.unavailable e))) :
    (p.andThen f).Confined s part := by
  induction p with
  | done result => exact hnext result hconfined
  | call c next ih =>
      obtain ⟨hwithin, hreads, hok, hexcused, herror⟩ := hconfined
      exact ⟨hwithin, hreads, fun result => ih _ (hok result),
        fun e he => ih _ (hexcused e he), fun e he => (herror e he).andThen (hfailed e)⟩
  | clock next ih => exact ⟨hconfined.1, fun now => ih now (hconfined.2 now)⟩
  | note notice next ih => exact ih hconfined

theorem Confined.bind {p : Program Failure α} {f : α → Program Failure β}
    (hconfined : p.Confined s part) (hnext : ∀ a, (f a).Confined s part) :
    (p >>= f).Confined s part := by
  induction p with
  | done result =>
      cases result with
      | ok a => exact hnext a
      | error e =>
          rintro e' ⟨⟩
          exact hconfined e rfl
  | call c next ih =>
      obtain ⟨hwithin, hreads, hok, hexcused, herror⟩ := hconfined
      exact ⟨hwithin, hreads, fun result => ih _ (hok result),
        fun e he => ih _ (hexcused e he), fun e he => (herror e he).bind f⟩
  | clock next ih => exact ⟨hconfined.1, fun now => ih now (hconfined.2 now)⟩
  | note notice next ih => exact ih hconfined

theorem Confined.map {p : Program Failure α} {f : α → β} (hconfined : p.Confined s part) :
    (f <$> p).Confined s part :=
  hconfined.bind fun a => confined_ok (f a)

theorem Confined.makes {p : Program Failure α} (hconfined : p.Confined s part) :
    p.Makes (Call.Within s) := by
  induction p with
  | done result => trivial
  | call c next ih =>
      obtain ⟨hwithin, _, hok, hexcused, herror⟩ := hconfined
      refine ⟨hwithin, fun reply => ?_⟩
      cases reply with
      | ok result => exact ih _ (hok result)
      | error e =>
          by_cases hexcuses : c.Excuses e
          · exact ih _ (hexcused e hexcuses)
          · exact (herror e hexcuses).makes
  | clock next ih => exact fun now => ih now (hconfined.2 now)
  | note notice next ih => exact ih hconfined

/-- What an attempt does: after an inquiry it fails, is content without a transaction, or
submits one. -/
inductive Tries (s : Site) {γ : Type} : Bool → Program Failure (Option γ) → Prop where
  | failed {looks : Bool} {e : Failure} (hfinal : e.isRetryable = false) : Tries s looks (fail e)
  | content {looks : Bool} (a : γ) : Tries s looks (done (.ok (some a)))
  | commit {looks : Bool} {scope : Scope} {steps : List Step} (a : γ)
      (hsteps : ∀ step ∈ steps, ∃ place, step.path = (s.path place).text) :
      Tries s looks (scope.commit steps a)
  | inquire {looks : Bool} {α : Type} {p : Program Failure α}
      {f : α → Program Failure (Option γ)} (hinquiry : p.Confined s .inquiry)
      (hnext : ∀ a, Tries s looks (f a)) : Tries s looks (p >>= f)
  | look {scope : Scope} {f : DateTime → Program Failure (Option γ)}
      (hnext : ∀ now, Tries s false (f now)) : Tries s true (scope.localTime >>= f)

end Program

open Program

/-! ## The parts of a request -/

section Parts

variable {s : Site} {scope : Scope} {α γ : Type} {part : Part} {place : Place}

theorem confined_read (α : Type) [Stored α] (place : Place) :
    (Scope.read α (s.path place).text).Confined s part := by
  rw [Scope.read_eq]
  refine ⟨.read place, fun _ => rfl, fun found => ?_, fun e he => he.elim, fun e _ => rfl⟩
  cases found with
  | none => exact confined_ok none
  | some node =>
      exact (blameless_decode α (s.path place).text node.data).bind fun record => nofun

theorem confined_require (α : Type) [Stored α] (place : Place) {missing : Failure}
    (hfinal : missing.isRetryable = false) :
    (Scope.require α (s.path place).text missing).Confined s part := by
  apply (confined_read α place).bind
  intro found
  cases found with
  | none => exact confined_fail hfinal
  | some found => exact confined_ok found

theorem confined_namesBelow (place : Place) :
    (Scope.namesBelow (s.path place).text).Confined s part := by
  rw [Scope.namesBelow_eq]
  refine ⟨.children place, fun _ => rfl, fun names => confined_ok names, fun e he => ?_,
    fun e he => ?_⟩
  · cases e with
    | notFound => exact confined_ok []
    | _ => exact he.elim
  · cases e with
    | notFound => exact absurd trivial he
    | _ => rfl

theorem confined_localTime : scope.localTime.Confined s .whole :=
  ⟨rfl, fun _ => confined_ok _⟩

theorem confined_commit {steps : List Step} (result : α)
    (hsteps : ∀ step ∈ steps, ∃ place, step.path = (s.path place).text) :
    (scope.commit steps result).Confined s .whole := by
  refine ⟨.transact hsteps, nofun, fun outcome => ?_, fun e he => he.elim, fun e _ => rfl⟩
  cases outcome with
  | committed => exact confined_ok (s := s) (some result)
  | aborted => exact confined_ok (s := s) none

theorem tries_ofExcept {β : Type} {result : Except Failure β} {looks : Bool}
    {f : β → Program Failure (Option γ)} (hblameless : Blameless .inquiry result)
    (hnext : ∀ b, result = .ok b → (f b).Tries s looks) :
    (ofExcept result >>= f).Tries s looks := by
  cases result with
  | ok b => exact hnext b rfl
  | error e => exact .failed ((hblameless e rfl).2 rfl)

theorem Program.Tries.confined {looks : Bool} {attempt : Program Failure (Option γ)}
    (htries : attempt.Tries s looks) : attempt.Confined s .whole := by
  induction htries with
  | failed hfinal => exact confined_fail hfinal
  | content a => exact confined_ok (some a)
  | commit a hsteps => exact confined_commit a hsteps
  | inquire hinquiry _ ih => exact hinquiry.of_inquiry.bind ih
  | look _ ih => exact confined_localTime.bind ih

theorem confined_attempts {looks : Bool} {attempt : Program Failure (Option γ)}
    (htries : attempt.Tries s looks) (left : Nat) :
    (scope.attempts attempt left).Confined s .whole := by
  induction left with
  | zero =>
      rintro e ⟨⟩
      exact ⟨rfl, nofun⟩
  | succ left ih =>
      apply htries.confined.bind
      intro result
      cases result with
      | none => exact ih
      | some a => exact confined_ok a

variable (hlayout : scope.layout = s.layout)

include hlayout

theorem confined_hot : scope.hot.Confined s part := by
  unfold Scope.hot
  rw [hlayout, Site.layout_hot]
  exact confined_require _ _ rfl

theorem confined_counters : scope.counters.Confined s part := by
  unfold Scope.counters
  rw [hlayout, Site.layout_counters]
  exact confined_require _ _ rfl

theorem confined_write (n : Int) : (scope.write n).Confined s part := by
  unfold Scope.write
  rw [hlayout, Site.layout_write]
  exact confined_require _ _ rfl

theorem confined_writesAt (ns : List Int) : (scope.writesAt ns).Confined s part := by
  induction ns with
  | nil => exact confined_ok []
  | cons n ns ih =>
      unfold Scope.writesAt
      rw [hlayout, Site.layout_write]
      exact (confined_read _ _).bind fun found => ih.bind fun rest => confined_ok _

theorem confined_ledger : scope.ledger.Confined s part := by
  unfold Scope.ledger
  rw [hlayout, Site.layout_writes]
  exact (confined_namesBelow _).bind fun names =>
    (confined_writesAt hlayout _).bind fun entries => confined_ok _

end Parts

/-! ## Steps -/

section Steps

variable {s : Site} {scope : Scope} {steps : List Step}

theorem placed_deletes (entries : List (Versioned WriteOperation)) :
    ∀ step ∈ Tree.deletes (s.items entries), ∃ place, step.path = (s.path place).text := by
  intro step hstep
  obtain ⟨item, hitem, rfl⟩ := List.mem_map.mp hstep
  obtain ⟨entry, _, rfl⟩ := List.mem_map.mp hitem
  exact ⟨.write entry.record.sysCn, rfl⟩

theorem placed_openingSteps {found : Option (Versioned Counters)} {counters : Counters}
    {hot : HotDelta} (hlayout : scope.layout = s.layout)
    (hsteps : scope.openingSteps found counters hot = .ok steps) :
    ∀ step ∈ steps, ∃ place, step.path = (s.path place).text := by
  cases found with
  | none =>
      obtain ⟨data, payload, _, _, rfl⟩ := of_openingSteps_none hlayout hsteps
      simp
  | some found =>
      obtain ⟨payload, _, rfl⟩ := of_openingSteps_some hlayout hsteps
      simp

theorem placed_commitSteps {hot : Versioned HotDelta} {counters : Versioned Counters}
    {entries : List (Versioned WriteOperation)} {ok : OkDelta} (hlayout : scope.layout = s.layout)
    (hsteps : scope.commitSteps hot counters entries ok = .ok steps) :
    ∀ step ∈ steps, ∃ place, step.path = (s.path place).text := by
  obtain ⟨next, payload, _, _, rfl⟩ := of_commitSteps hlayout hsteps
  exact List.forall_mem_cons.mpr
    ⟨⟨.counters, rfl⟩, List.forall_mem_append.mpr ⟨placed_deletes entries, by simp⟩⟩

end Steps

/-! ## Attempts -/

section Attempts

variable {s : Site} {scope : Scope} (hlayout : scope.layout = s.layout)

include hlayout

theorem tries_open : scope.tryOpen.Tries s true := by
  unfold Scope.tryOpen
  simp only [hlayout, Site.layout_hot, Site.layout_counters]
  refine .inquire (confined_read _ _) fun found => ?_
  cases found with
  | some current => exact .failed rfl
  | none =>
      refine .inquire (confined_read _ _) fun counters => ?_
      refine .look fun now => ?_
      apply tries_ofExcept (blameless_openingSteps _ _ _ _)
      exact fun steps hsteps => .commit _ (placed_openingSteps hlayout hsteps)

theorem confined_checkDate (counters : Counters) (date : DateTime) :
    (scope.checkDate counters date).Confined s .inquiry := by
  unfold Scope.checkDate
  simp only [hlayout, Site.layout_okDelta]
  cases counters.lastDeltaNum with
  | none => exact confined_ok ()
  | some n =>
      apply (confined_read _ _).bind
      intro last
      cases last with
      | none => exact confined_ok ()
      | some last =>
          dsimp only
          split
          next => exact confined_fail rfl
          next => exact confined_ok ()

theorem tries_promote (date : DateTime) : (scope.tryCommit date).Tries s false := by
  refine .inquire (confined_hot hlayout) fun hot => ?_
  split
  next => exact .failed rfl
  next =>
    refine .inquire (confined_counters hlayout) fun counters => ?_
    refine .inquire (confined_ledger hlayout) fun entries => ?_
    split
    next => exact .failed rfl
    next =>
      refine .inquire (confined_checkDate hlayout _ _) fun _ => ?_
      apply tries_ofExcept (blameless_commitSteps _ _ _ _ _)
      exact fun steps hsteps => .commit _ (placed_commitSteps hlayout hsteps)

theorem tries_mark (n : Int) : (scope.tryFail n).Tries s false := by
  refine .inquire (confined_hot hlayout) fun hot => ?_
  refine .inquire (confined_counters hlayout) fun counters => ?_
  apply tries_ofExcept (blameless_encode _)
  exact fun payload _ => .commit _ (by simp [hlayout])

theorem tries_discard : scope.tryDiscard.Tries s false := by
  refine .inquire (confined_hot hlayout) fun hot => ?_
  refine .inquire (confined_counters hlayout) fun counters => ?_
  refine .inquire (confined_ledger hlayout) fun entries => ?_
  apply Tries.commit
  simp only [hlayout, deletions_eq hlayout, Site.layout_counters, Site.layout_hot]
  exact List.forall_mem_cons.mpr
    ⟨⟨.counters, rfl⟩, List.forall_mem_append.mpr ⟨placed_deletes entries, by simp⟩⟩

theorem tries_register (registration : Registration) :
    (scope.tryRegister registration).Tries s false := by
  unfold Scope.tryRegister
  simp only [hlayout, Site.layout_hot]
  refine .inquire (confined_require _ _ rfl) fun hot => ?_
  split
  next => exact .failed rfl
  next =>
    refine .inquire (confined_counters hlayout) fun counters => ?_
    refine .inquire (confined_ledger hlayout) fun entries => ?_
    split
    next => exact .failed rfl
    next =>
      apply tries_ofExcept (blameless_encode _)
      intro next _
      apply tries_ofExcept (blameless_encode _)
      exact fun payload _ => .commit _ (by simp)

theorem tries_finish (n : Int) (status : WriteStatus) :
    (scope.tryFinish n status).Tries s false := by
  refine .inquire (confined_hot hlayout) fun hot => ?_
  refine .inquire (confined_write hlayout n) fun entry => ?_
  split
  next => exact .content ()
  next =>
    split
    next => exact .failed rfl
    next =>
      apply tries_ofExcept (blameless_encode _)
      exact fun payload _ => .commit _ (by simp [hlayout])

theorem tries_withdraw (n : Int) : (scope.tryWithdraw n).Tries s false := by
  refine .inquire (confined_hot hlayout) fun hot => ?_
  refine .inquire (confined_write hlayout n) fun entry => ?_
  exact .commit _ (by simp [hlayout])

end Attempts

/-! ## Commands -/

section Commands

variable {s : Site} {scope : Scope} {part : Part}

theorem Decides.confined {command : Command} {γ : Type} {attempt : Program Failure (Option γ)}
    {answer : γ → Response} {looks : Bool} (hdecides : Decides scope command attempt answer)
    (htries : attempt.Tries s looks) : (scope.perform command).Confined s .whole := by
  obtain ⟨notice, hperform⟩ := hdecides
  rw [hperform]
  exact (confined_attempts htries _).bind fun a => confined_ok (s := s) (answer a)

variable (hlayout : scope.layout = s.layout)

include hlayout

theorem confined_readLatest : scope.readLatest.Confined s part := by
  unfold Scope.readLatest
  simp only [hlayout, Site.layout_counters, Site.layout_okDelta]
  apply (confined_read _ _).bind
  intro found
  split
  next => exact confined_fail rfl
  next n _ => exact (confined_require _ _ rfl).bind fun ok => confined_ok _

theorem confined_committed? (n : Int) : (scope.committed? n).Confined s part := by
  unfold Scope.committed?
  rw [hlayout, Site.layout_okDelta]
  split
  next => exact confined_read _ _
  next => exact confined_ok none

theorem confined_readByNumber (n : Int) : (scope.readByNumber n).Confined s part := by
  unfold Scope.readByNumber
  simp only [hlayout, Site.layout_hot]
  apply (confined_committed? hlayout n).bind
  intro ok
  cases ok with
  | some ok => exact confined_ok _
  | none =>
      apply (confined_read _ _).bind
      intro hot
      cases hot with
      | none => exact confined_fail rfl
      | some hot =>
          dsimp only
          split
          next => exact confined_fail rfl
          next => exact confined_fail rfl

theorem confined_firstBy (t : DateTime) (ns : List Int) : (scope.firstBy t ns).Confined s part := by
  induction ns with
  | nil => exact confined_fail rfl
  | cons n ns ih =>
      unfold Scope.firstBy
      rw [hlayout, Site.layout_okDelta]
      apply (confined_read _ _).bind
      intro ok
      cases ok with
      | none => exact ih
      | some ok =>
          dsimp only
          split
          next => exact confined_ok _
          next => exact ih

theorem confined_readAsOf (t : DateTime) : (scope.readAsOf t).Confined s part := by
  unfold Scope.readAsOf
  rw [hlayout, Site.layout_okDeltas]
  exact (confined_namesBelow _).bind fun names => confined_firstBy hlayout t _

theorem confined_readLedger : scope.readLedger.Confined s part := by
  unfold Scope.readLedger
  simp only [hlayout, Site.layout_hot]
  apply (confined_read _ _).bind
  intro hot
  cases hot with
  | none => exact confined_ok []
  | some hot => exact (confined_ledger hlayout).bind fun entries => confined_ok _

theorem confined_asks {command : Command} (hasks : command.Asks) :
    (scope.perform command).Confined s part := by
  cases command with
  | readHot => exact ((confined_hot hlayout).bind fun hot => confined_ok _).map
  | readLatest => exact (confined_readLatest hlayout).map
  | readByNumber n => exact (confined_readByNumber hlayout n).map
  | readAsOf t => exact (confined_readAsOf hlayout t).map
  | readLedger => exact (confined_readLedger hlayout).map
  | _ => exact hasks.elim

theorem confined_perform (command : Command) : (scope.perform command).Confined s .whole := by
  cases command with
  | openDelta => exact (decides_open scope).confined (tries_open hlayout)
  | commitDelta asked =>
      cases asked with
      | some date => exact (decides_promote scope date).confined (tries_promote hlayout _)
      | none =>
          rw [perform_commitDelta_none]
          exact confined_localTime.bind fun date =>
            (decides_promote scope date).confined (tries_promote hlayout _)
  | failDelta n => exact (decides_mark scope n).confined (tries_mark hlayout n)
  | discardDelta => exact (decides_discard scope).confined (tries_discard hlayout)
  | registerWrite registration =>
      exact (decides_register scope registration).confined (tries_register hlayout registration)
  | succeedWrite n => exact (decides_succeed scope n).confined (tries_finish hlayout n _)
  | failWrite n => exact (decides_failWrite scope n).confined (tries_finish hlayout n _)
  | withdrawWrite n => exact (decides_withdraw scope n).confined (tries_withdraw hlayout n)
  | _ => exact confined_asks hlayout trivial

end Commands

/-! ## Requests -/

theorem eq_noTableName_of_fault? {command : Command} {failure : Failure}
    (hfault : command.fault? = some failure) : failure = .noTableName := by
  unfold Command.fault? at hfault
  split at hfault
  next =>
    split at hfault
    next =>
      cases hfault
      rfl
    next => cases hfault
  next => cases hfault

/-- A request is confined to the site of its datamart, and to any site if it has none. -/
theorem confined_serve {c : Coordinator} {r : Request} {s : Site}
    (hsite : ∀ s', c.Serves r.datamart s' → s' = s) : (c.serve r).Confined s .whole := by
  have hexecute : (c.execute r).Confined s .whole := by
    unfold Coordinator.execute
    cases hfault : r.command.fault? with
    | some failure =>
        obtain rfl := eq_noTableName_of_fault? hfault
        exact confined_fail rfl
    | none =>
        unfold Scope.enter
        rcases parseRoot_cases c r.datamart with ⟨s', hserves, hroot⟩ | ⟨e, hroot⟩
        · obtain rfl := hsite s' hserves
          rw [hroot, bind_bind]
          refine ⟨.stat, nofun, fun found => ?_, fun e he => he.elim, fun e _ => rfl⟩
          cases found with
          | none => exact confined_fail rfl
          | some stat => exact confined_perform s'.layout_eq_below.symm r.command
        · rw [hroot]
          exact confined_fail rfl
  apply hexecute.andThen
  · intro result hblameless
    cases result with
    | ok response => exact confined_ok (s := s) response
    | error failure => exact hblameless
  · exact fun e => rfl

theorem exists_confined_serve (c : Coordinator) (r : Request) :
    ∃ s, (c.serve r).Confined s .whole := by
  rcases parseRoot_cases c r.datamart with ⟨s, hserves, _⟩ | ⟨e, hroot⟩
  · exact ⟨s, confined_serve fun s' hserves' => hserves'.unique hserves⟩
  · refine ⟨⟨c.env, c.env⟩, confined_serve fun s' hserves' => ?_⟩
    rw [parseRoot_of_serves hserves'] at hroot
    cases hroot

end DeltaLedger
