import DeltaLedger.Proofs.GrownTrees
import DeltaLedger.Proofs.StoreFailures

/-!
# Failures that an observed tree was told to produce

Between the calls of its clients an observed tree is told to fail at paths or transactions.  Which
calls it fails is seen from what it was told and asked before.  Of such a call nothing is left, and
the others are served as by a tree that was never told anything and was asked for just these; each
of them is in the log, but for transactions that could not be read.
-/

namespace DeltaLedger

/-- What an observed tree is asked for or told. -/
inductive Order where
  | call (c : Call)
  | failAt (start : String)
  | failTransactions (count : Nat)
  | clearFailures

namespace Order

/-- The number of transactions to fail that an order sets. -/
def count? : Order → Option Nat
  | failTransactions count => some count
  | clearFailures => some 0
  | _ => none

def start? : Order → Option String
  | failAt start => some start
  | _ => none

def clears : Order → Bool
  | clearFailures => true
  | _ => false

def isTransaction : Order → Bool
  | call c => c.isTransaction
  | _ => false

end Order

namespace ObservedTree

def obey (store : ObservedTree) : Order → ObservedTree
  | .call c => (store.answer c).2
  | .failAt start => store.failAt start
  | .failTransactions count => store.failTransactions count
  | .clearFailures => store.clearFailures

/-- A new observed tree after some orders, of which the newest comes first. -/
def after : List Order → ObservedTree
  | [] => .new
  | order :: past => (after past).obey order

end ObservedTree

/-! ## Which calls are failed -/

/-- The transactions that are still to be failed: the number that was set last, less those that
were submitted since. -/
def owed (past : List Order) : Nat :=
  (past.findSome? Order.count?).getD 0 -
    (past.takeWhile fun order => order.count?.isNone).countP Order.isTransaction

/-- The beginnings of the paths that are to be failed: those that were told since all failures were
last cleared. -/
def starts (past : List Order) : List String :=
  (past.takeWhile fun order => !order.clears).filterMap Order.start?

/-- A call is to be failed after some orders. -/
def Injected (past : List Order) (c : Call) : Prop :=
  c.isTransaction = true ∧ 0 < owed past ∨
    ∃ path ∈ c.paths, ∃ start ∈ starts past, start.toList <+: path.toList

instance (past : List Order) (c : Call) : Decidable (Injected past c) :=
  inferInstanceAs (Decidable (_ ∨ _))

/-- The calls that are not failed, the newest first. -/
def admitted : List Order → List Call
  | [] => []
  | .call c :: past => if Injected past c then admitted past else c :: admitted past
  | _ :: past => admitted past

section Past

variable {past : List Order} {c : Call} {store : ObservedTree}

theorem owed_cons {order : Order} (hcount : order.count? = none) :
    owed (order :: past) = owed past - if order.isTransaction then 1 else 0 := by
  unfold owed
  simp only [List.findSome?_cons, List.takeWhile_cons, hcount, Option.isNone_none, if_true,
    List.countP_cons, Nat.sub_add_eq]

namespace ObservedTree

/-- Nothing but the number of failures that are left changes when a call is failed. -/
theorem tree_afterFailure : (store.afterFailure c).tree = store.tree := by
  unfold afterFailure
  split <;> rfl

theorem log_afterFailure : (store.afterFailure c).log = store.log := by
  unfold afterFailure
  split <;> rfl

/-- A transaction uses up one of the failures that are left, whether it is failed for it or not. -/
theorem failingTransactions_answer : (store.answer c).2.failingTransactions =
    store.failingTransactions - if c.isTransaction then 1 else 0 := by
  unfold answer
  cases hfailure : store.failure? c with
  | some e =>
      dsimp only [afterFailure]
      split <;> rfl
  | none =>
      have hnone : ¬(c.isTransaction = true ∧ 0 < store.failingTransactions) := by
        intro hboth
        simp [failure?, hboth] at hfailure
      dsimp only
      split
      next htransaction =>
        have hzero : ¬0 < store.failingTransactions := fun hpos => hnone ⟨htransaction, hpos⟩
        omega
      next => rfl

theorem failingPaths_answer : (store.answer c).2.failingPaths = store.failingPaths := by
  unfold answer
  cases hfailure : store.failure? c with
  | some e =>
      dsimp only [afterFailure]
      split <;> rfl
  | none => rfl

theorem failingTransactions_after (past : List Order) :
    (after past).failingTransactions = owed past := by
  induction past with
  | nil => rfl
  | cons order past ih =>
      cases order with
      | call c =>
          rw [after, obey, failingTransactions_answer, ih, owed_cons rfl]
          rfl
      | failAt start =>
          rw [after, obey, failAt, ih, owed_cons rfl]
          rfl
      | failTransactions count => rfl
      | clearFailures => rfl

theorem mem_failingPaths_after (past : List Order) (start : String) :
    start ∈ (after past).failingPaths ↔ start ∈ starts past := by
  induction past with
  | nil => rfl
  | cons order past ih =>
      cases order with
      | call c =>
          rw [after, obey, failingPaths_answer, ih]
          rfl
      | failAt start' =>
          rw [after, obey, failAt, List.mem_append, List.mem_singleton, ih]
          exact or_comm.trans List.mem_cons.symm
      | failTransactions count => exact ih
      | clearFailures => rfl

theorem failsAt_after (past : List Order) (path : String) :
    (after past).failsAt path = true ↔ ∃ start ∈ starts past, start.toList <+: path.toList := by
  simp only [failsAt, List.any_eq_true, List.isPrefixOf_iff_prefix, mem_failingPaths_after]

theorem failure?_after_eq_none_iff : (after past).failure? c = none ↔ ¬Injected past c := by
  unfold failure? Injected
  rw [failingTransactions_after]
  by_cases hbudget : c.isTransaction = true ∧ 0 < owed past
  · simp [hbudget]
  · have hspent : ¬(c.isTransaction && decide (0 < owed past)) = true := by simpa using hbudget
    rw [if_neg hspent, Option.map_eq_none_iff, List.find?_eq_none]
    simp [hbudget, failsAt_after]

theorem exists_failure (hinjected : Injected past c) :
    ∃ cause, (after past).failure? c = some cause :=
  Option.ne_none_iff_exists'.mp fun hnone => failure?_after_eq_none_iff.mp hnone hinjected

/-- The tree is the one that the calls which were not failed make, without an observer. -/
theorem tree_after (past : List Order) : (after past).tree = (Tree.grown (admitted past)).1 := by
  induction past with
  | nil => rfl
  | cons order past ih =>
      cases order with
      | failAt | failTransactions | clearFailures => exact ih
      | call c =>
          rw [after, obey, admitted]
          split
          next hinjected =>
            obtain ⟨cause, hfailure⟩ := exists_failure hinjected
            rw [answer_eq_of_failure hfailure, tree_afterFailure, ih]
          next hserved =>
            rw [answer_eq_of_no_failure (failure?_after_eq_none_iff.mpr hserved), ih]
            rfl

end ObservedTree
end Past

/-! ## The log -/

/-- An entry of the log describes a call that was served. -/
inductive Describes : (c : Call) → c.Reply → Served → Prop where
  | stat (path : String) reply : Describes (.stat path) reply (.stat path)
  | read (path : String) reply : Describes (.read path) reply (.read path)
  | create (path : String) (data : List UInt8) reply :
      Describes (.create path data) reply (.create path)
  | write (path : String) (data : List UInt8) (expected : Option Int) reply :
      Describes (.write path data expected) reply (.write path expected)
  | delete (path : String) (expected : Option Int) reply :
      Describes (.delete path expected) reply (.delete path)
  | children (path : String) reply : Describes (.children path) reply (.children path)
  | committed (steps : List Step) :
      Describes (.transact steps) (.ok .committed) (.transact (steps.map Step.path) true)
  | aborted (steps : List Step) (index : Nat) (path : String) (conflict : Conflict) :
      Describes (.transact steps) (.ok (.aborted index path conflict))
        (.transact (steps.map Step.path) false)

/-- The call is a transaction with a path that cannot be read. -/
inductive Unreadable : (c : Call) → c.Reply → Prop where
  | transact (steps : List Step) (fault : Path.Fault) :
      Unreadable (.transact steps) (.error (.badPath fault))

/-- What a call adds to the log: one entry that describes it, or none if it could not be read. -/
inductive Logs (c : Call) (reply : c.Reply) : List Served → Prop where
  | described {entry : Served} (hreadable : ¬Unreadable c reply)
      (hdescribes : Describes c reply entry) : Logs c reply [entry]
  | unreadable (hunreadable : Unreadable c reply) : Logs c reply []

theorem Tree.transact_replies (t : Tree) (steps : List Step) :
    (t.transact steps).1 = .ok .committed ∨
      (∃ index path conflict, (t.transact steps).1 = .ok (.aborted index path conflict)) ∨
        ∃ fault, (t.transact steps).1 = .error (.badPath fault) := by
  unfold transact
  split
  next => exact .inl rfl
  next => exact .inr (.inr ⟨_, rfl⟩)
  next => exact .inr (.inl ⟨_, _, _, rfl⟩)

theorem logs_answer (t : Tree) (c : Call) : Logs c (t.answer c).1 (c.served (t.answer c).1) := by
  cases c with
  | stat path => exact .described nofun (.stat path _)
  | read path => exact .described nofun (.read path _)
  | create path data => exact .described nofun (.create path data _)
  | write path data expected => exact .described nofun (.write path data expected _)
  | delete path expected => exact .described nofun (.delete path expected _)
  | children path => exact .described nofun (.children path _)
  | transact steps =>
      change Logs (.transact steps) (t.transact steps).1
        (Call.served (.transact steps) (t.transact steps).1)
      rcases t.transact_replies steps with hreply | ⟨index, path, conflict, hreply⟩ | ⟨fault, hreply⟩
      · rw [hreply]
        exact .described nofun (.committed steps)
      · rw [hreply]
        exact .described nofun (.aborted steps index path conflict)
      · rw [hreply]
        exact .unreadable (.transact steps fault)

/-! ## Errors of a tree -/

theorem Tree.isUnavailable_of_atPath {α : Type} {path : String} {f : Path → Except StoreError α}
    {e : StoreError} (hf : ∀ p e, f p = .error e → e.isUnavailable = false)
    (herror : atPath path f = .error e) : e.isUnavailable = false := by
  unfold atPath at herror
  split at herror
  next =>
    cases herror
    rfl
  next p _ => exact hf p e herror

theorem Tree.isUnavailable_of_alter {t : Tree} {s : Step} {e : StoreError}
    (herror : (t.alter s).1 = .error e) : e.isUnavailable = false := by
  unfold alter at herror
  split at herror
  next => cases herror
  next =>
    cases herror
    rfl
  next conflict _ =>
    unfold afterConflict at herror
    split at herror
    next =>
      split at herror
      next =>
        cases herror
        rfl
      next => cases herror
    next =>
      cases herror
      rfl
    next => cases herror

/-- A tree without an observer is always there. -/
theorem Tree.isUnavailable_of_answer {t : Tree} {c : Call} {e : StoreError}
    (herror : (t.answer c).1 = .error e) : e.isUnavailable = false := by
  cases c with
  | stat path => exact isUnavailable_of_atPath (fun _ _ hfound => by cases hfound) herror
  | read path => exact isUnavailable_of_atPath (fun _ _ hfound => by cases hfound) herror
  | create path data => exact isUnavailable_of_alter herror
  | write path data expected => exact isUnavailable_of_alter herror
  | delete path expected => exact isUnavailable_of_alter herror
  | children path =>
      refine isUnavailable_of_atPath ?_ herror
      intro p e hmissing
      split at hmissing
      next => cases hmissing
      next =>
        cases hmissing
        rfl
  | transact steps =>
      change (t.transact steps).1 = .error e at herror
      rcases t.transact_replies steps with hreply | ⟨index, path, conflict, hreply⟩ | ⟨fault, hreply⟩
      · rw [hreply] at herror
        cases herror
      · rw [hreply] at herror
        cases herror
      · rw [hreply] at herror
        cases herror
        rfl

/-! ## What clients see of an observer -/

/-- The tree that the calls which were not failed make, when nobody observes it. -/
def plain (past : List Order) : Tree :=
  (Tree.grown (admitted past)).1

/-- How an observed tree stands after some orders, and how it deals with one more call. -/
structure Transparent (past : List Order) (c : Call) : Prop where
  tree : (ObservedTree.after past).tree = plain past
  left : (ObservedTree.after past).failingTransactions = owed past
  failed_iff : (∃ message, ((ObservedTree.after past).answer c).1 = .error (.storage message)) ↔
    Injected past c
  /-- Of a transaction that is failed by number no path is looked at. -/
  numbered : c.isTransaction = true → 0 < owed past →
    ((ObservedTree.after past).answer c).1 = .error (.storage "injected transaction failure")
  failed : Injected past c →
    (ObservedTree.after (.call c :: past)).tree = (ObservedTree.after past).tree ∧
      (ObservedTree.after (.call c :: past)).log = (ObservedTree.after past).log
  served : ¬Injected past c →
    ((ObservedTree.after past).answer c).1 = ((plain past).answer c).1 ∧
      (ObservedTree.after (.call c :: past)).tree = ((plain past).answer c).2
  logged : ¬Injected past c → ∃ added, Logs c ((plain past).answer c).1 added ∧
    (ObservedTree.after (.call c :: past)).log = (ObservedTree.after past).log ++ added
  told : ∀ order, (∀ c, order ≠ .call c) →
    (ObservedTree.after (order :: past)).tree = (ObservedTree.after past).tree ∧
      (ObservedTree.after (order :: past)).log = (ObservedTree.after past).log

section Observing

variable {past : List Order} {c : Call}

open ObservedTree

theorem reply_of_injected (hinjected : Injected past c) :
    ∃ message, ((after past).answer c).1 = .error (.storage message) := by
  obtain ⟨cause, hfailure⟩ := exists_failure hinjected
  rw [answer_eq_of_failure hfailure]
  unfold failure? at hfailure
  split at hfailure
  next =>
    cases hfailure
    exact ⟨_, rfl⟩
  next =>
    obtain ⟨path, _, rfl⟩ := Option.map_eq_some_iff.mp hfailure
    exact ⟨_, rfl⟩

theorem answer_of_not_injected (hserved : ¬Injected past c) :
    (after past).answer c = (((plain past).answer c).1, { after past with
      tree := ((plain past).answer c).2
      recent := c.served ((plain past).answer c).1 ++ (after past).recent }) := by
  have hanswer := answer_eq_of_no_failure (failure?_after_eq_none_iff.mpr hserved)
  rw [tree_after] at hanswer
  exact hanswer

theorem injected_of_reply {message : String}
    (hreply : ((after past).answer c).1 = .error (.storage message)) : Injected past c := by
  by_contra hserved
  rw [answer_of_not_injected hserved] at hreply
  cases Tree.isUnavailable_of_answer hreply

theorem log_served {store : ObservedTree} {t : Tree} {reply : c.Reply} {added : List Served}
    (hlogs : Logs c reply added) :
    log { store with tree := t, recent := added ++ store.recent } = store.log ++ added := by
  cases hlogs with
  | described => simp [log]
  | unreadable => simp [log]

end Observing

/-- Calls are failed as the tree was told, and then nothing has happened; the others are served as
if nobody observed the tree, and logged. -/
theorem transparent (past : List Order) (c : Call) : Transparent past c where
  tree := ObservedTree.tree_after past
  left := ObservedTree.failingTransactions_after past
  failed_iff := ⟨fun ⟨_, hreply⟩ => injected_of_reply hreply, reply_of_injected⟩
  numbered htransaction hbudget := by
    have hfailure : (ObservedTree.after past).failure? c =
        some (.storage "injected transaction failure") := by
      simp [ObservedTree.failure?, ObservedTree.failingTransactions_after, htransaction, hbudget]
    rw [ObservedTree.answer_of_failure hfailure]
  failed hinjected := by
    obtain ⟨cause, hfailure⟩ := ObservedTree.exists_failure hinjected
    rw [ObservedTree.after, ObservedTree.obey, ObservedTree.answer_eq_of_failure hfailure]
    exact ⟨ObservedTree.tree_afterFailure, ObservedTree.log_afterFailure⟩
  served hserved := by
    rw [ObservedTree.after, ObservedTree.obey, answer_of_not_injected hserved]
    exact ⟨rfl, rfl⟩
  logged hserved := by
    refine ⟨_, logs_answer (plain past) c, ?_⟩
    rw [ObservedTree.after, ObservedTree.obey, answer_of_not_injected hserved]
    exact log_served (logs_answer (plain past) c)
  told order hcall := by
    cases order with
    | call c => exact absurd rfl (hcall c)
    | failAt | failTransactions | clearFailures => exact ⟨rfl, rfl⟩

end DeltaLedger
