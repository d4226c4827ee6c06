import DeltaLedger.Proofs.NodeChanges
import DeltaLedger.Proofs.WholeTransactions

/-!
# Changes as calls of their own

A node can be created, written and deleted by a call of its own, which answers in other words than a
transaction does.  It is the transaction that has the change as its only step: it does the same to
the tree, and it succeeds exactly when that commits.  What the call tells of a conflict is the error
that fits the change, or else the version that a look at the node shows at that moment.
-/

namespace DeltaLedger
namespace Tree

variable {t t' : Tree} {s : Step} {p : Path} {path : String} {version : Nat}

/-- The version that a look at a node tells, if there is a node. -/
def Reports (t : Tree) (path : String) (version : Option Nat) : Prop :=
  ∃ found, (t.answer (.stat path)).1 = .ok found ∧ version = found.map Stat.version

/-- A change that is a call of its own goes like the transaction with this one step. -/
structure Corresponds (t : Tree) (s : Step) (single : Except StoreError WriteOutcome × Tree)
    (whole : Except StoreError Outcome × Tree) : Prop where
  tree : single.2 = whole.2
  unchanged : (∀ version, single.1 ≠ .ok (.done version)) → single.2 = t
  done_iff : (∃ version, single.1 = .ok (.done version)) ↔ whole.1 = .ok .committed
  /-- The version after a write, and before a removal. -/
  version : ∀ version, single.1 = .ok (.done version) →
    if s.change.isRemoval then t.Reports s.path (some version)
    else single.2.Reports s.path (some version)
  malformed : ∀ fault, Path.parse s.path = .error fault →
    single.1 = .error (.badPath fault) ∧ whole.1 = .error (.badPath fault)
  wellFormed : ∀ p, Path.parse s.path = .ok p → ∃ outcome, whole.1 = .ok outcome
  badPath_iff : ∀ fault, single.1 = .error (.badPath fault) ↔ whole.1 = .error (.badPath fault)
  parentless : ∀ index path, whole.1 = .ok (.aborted index path .noNode) →
    s.change.isCreation → single.1 = .error (.parentMissing s.path)
  inhabited : ∀ index path, whole.1 = .ok (.aborted index path .notEmpty) →
    s.change.isRemoval ∧ single.1 = .error (.nodeHasChildren s.path)
  refused : ∀ index path conflict, whole.1 = .ok (.aborted index path conflict) →
    conflict ≠ .notEmpty → ¬(conflict = .noNode ∧ s.change.isCreation) →
      ∃ current, single.1 = .ok (.refused current) ∧ t.Reports s.path current

/-! ## Looks at a node -/

theorem reports_find? (hparse : Path.parse path = .ok p) :
    t.Reports path ((t.find? p).map Node.version) := by
  refine ⟨(t.find? p).map (Node.stat path), ?_, ?_⟩
  · simp [answer, atPath, hparse]
  · rw [Option.map_map]
    rfl

theorem reports_version? (hparse : Path.parse path = .ok p) :
    t.Reports path (t.version? path) := by
  have hversion : t.version? path = (t.find? p).map Node.version := by
    simp [version?, hparse]
  rw [hversion]
  exact reports_find? hparse

theorem reports_of_getElem? (hparse : Path.parse path = .ok p) (node : Node)
    (hnode : t.nodes[p]? = some node) : t.Reports path (some node.version) := by
  have hreports := reports_find? (t := t) hparse
  rwa [find?, hnode] at hreports

/-- The version that a change gives is that of the node it leaves, or takes away. -/
theorem Changed.reports {change : Change} (hchanged : t.Changed p change version t')
    (hparse : Path.parse path = .ok p) :
    if change.isRemoval then t.Reports path (some version)
    else t'.Reports path (some version) := by
  cases hchanged with
  | @created data _ _ =>
      exact reports_of_getElem? hparse ⟨data, 0⟩ (by rw [getElem?_put, if_pos rfl])
  | @written data _ node _ _ =>
      exact reports_of_getElem? hparse ⟨data, node.version + 1⟩ (by rw [getElem?_put, if_pos rfl])
  | deleted hnode _ _ => exact reports_of_getElem? hparse _ hnode
  | checked hnode =>
      have hreports := reports_find? (t := t) hparse
      rwa [hnode] at hreports

/-! ## What the errors tell -/

theorem head?_append_of_head? {a b : String} {c : Char} (hfirst : a.toList.head? = some c) :
    (a ++ b).toList.head? = some c := by
  rw [String.toList_append, List.head?_append, hfirst, Option.some_or]

/-- A node with children is not told in the words for a malformed path. -/
theorem nodeHasChildren_ne_badPath (path : String) (fault : Path.Fault) :
    StoreError.nodeHasChildren path ≠ .badPath fault := by
  intro heq
  have htext : "cannot delete " ++ path ++ ": node has children" = fault.message :=
    StoreError.invalidInput.inj heq
  have hchildren : ("cannot delete " ++ path ++ ": node has children").toList.head? = some 'c' :=
    head?_append_of_head? (head?_append_of_head? rfl)
  rw [htext] at hchildren
  cases fault with
  | relative text =>
      have hpath : (Path.Fault.relative text).message.toList.head? = some 'p' :=
        head?_append_of_head? rfl
      rw [hpath] at hchildren
      cases hchildren
  | malformed text =>
      have hpath : (Path.Fault.malformed text).message.toList.head? = some 'm' :=
        head?_append_of_head? rfl
      rw [hpath] at hchildren
      cases hchildren

/-- No conflict is told as a malformed path. -/
theorem afterConflict_ne_badPath (t : Tree) (s : Step) (conflict : Conflict) (fault : Path.Fault) :
    t.afterConflict s conflict ≠ .error (.badPath fault) := by
  cases conflict with
  | nodeExists => exact nofun
  | badVersion current => exact nofun
  | noNode =>
      unfold afterConflict
      cases s.change <;> exact nofun
  | notEmpty =>
      intro heq
      exact nodeHasChildren_ne_badPath s.path fault (Except.error.inj heq)

theorem afterConflict_of_creation (hcreation : s.change.isCreation) :
    t.afterConflict s .noNode = .error (.parentMissing s.path) := by
  unfold afterConflict
  cases hchange : s.change with
  | create data => rfl
  | _ =>
      rw [hchange] at hcreation
      cases hcreation

theorem afterConflict_eq_refused {conflict : Conflict} (hnotEmpty : conflict ≠ .notEmpty)
    (hnoNode : ¬(conflict = .noNode ∧ s.change.isCreation)) :
    t.afterConflict s conflict = .ok (.refused (t.version? s.path)) := by
  cases conflict with
  | notEmpty => exact absurd rfl hnotEmpty
  | noNode =>
      unfold afterConflict
      cases hchange : s.change with
      | create data => exact absurd ⟨rfl, by rw [hchange]; rfl⟩ hnoNode
      | _ => rfl
  | _ => rfl

theorem afterConflict_ne_done (t : Tree) (s : Step) (conflict : Conflict) :
    t.afterConflict s conflict ≠ .ok (.done version) := by
  cases conflict with
  | noNode =>
      unfold afterConflict
      cases s.change <;> exact nofun
  | _ => exact nofun

/-! ## The two ways to make a change -/

section Ways

theorem corresponds_of_ok (hparse : Path.parse s.path = .ok p)
    (hchanged : t.Changed p s.change version t') : t.Corresponds s (t.alter s) (t.transact [s]) := by
  have hstep : t.step s = .ok (version, t') := by
    simp [step, hparse, hchanged.eq_ok]
  have hwhole := transact_of_commits (commits_singleton.mpr ⟨version, hstep⟩)
  have hsingle : t.alter s = (.ok (.done version), t') := by
    simp [alter, hstep]
  rw [hwhole, hsingle]
  constructor
  case tree => rfl
  case unchanged => exact fun hfails => absurd rfl (hfails version)
  case done_iff => exact ⟨fun _ => rfl, fun _ => ⟨version, rfl⟩⟩
  case version =>
    rintro _ ⟨⟩
    exact hchanged.reports hparse
  case malformed => simp [hparse]
  case wellFormed => exact fun _ _ => ⟨_, rfl⟩
  all_goals simp

theorem corresponds_of_badPath {fault : Path.Fault} (hparse : Path.parse s.path = .error fault) :
    t.Corresponds s (t.alter s) (t.transact [s]) := by
  have hstep : t.step s = .error (.badPath fault) := step_eq_badPath_iff.mpr hparse
  have hwhole := transact_of_refuses (refuses_nil.mpr ⟨rfl, hstep⟩) []
  have hsingle : t.alter s = (.error (.badPath fault), t) := by
    simp [alter, hstep]
  rw [List.nil_append] at hwhole
  rw [hwhole, hsingle]
  constructor
  case malformed =>
    intro fault' hfault
    rw [hparse] at hfault
    cases hfault
    exact ⟨rfl, rfl⟩
  case wellFormed => simp [hparse]
  all_goals simp

theorem corresponds_of_conflict {conflict : Conflict} (hparse : Path.parse s.path = .ok p)
    (hconflicted : t.Conflicted p s.change conflict) :
    t.Corresponds s (t.alter s) (t.transact [s]) := by
  have hstep : t.step s = .error (.conflict conflict) :=
    step_eq_conflict_iff.mpr ⟨p, hparse, hconflicted.eq_error⟩
  have hwhole := transact_of_refuses (refuses_nil.mpr ⟨rfl, hstep⟩) []
  have hsingle : t.alter s = (t.afterConflict s conflict, t) := by
    simp [alter, hstep]
  rw [List.nil_append] at hwhole
  rw [hwhole, hsingle]
  constructor
  case tree => rfl
  case unchanged => exact fun _ => rfl
  case done_iff => simp [afterConflict_ne_done]
  case version => exact fun version hdone => absurd hdone (afterConflict_ne_done t s conflict)
  case malformed => simp [hparse]
  case wellFormed => exact fun _ _ => ⟨_, rfl⟩
  case badPath_iff => simp [afterConflict_ne_badPath]
  case parentless =>
    rintro _ _ ⟨⟩ hcreation
    exact afterConflict_of_creation hcreation
  case inhabited =>
    rintro _ _ ⟨⟩
    exact ⟨hconflicted.isRemoval, rfl⟩
  case refused =>
    rintro _ _ _ ⟨⟩ hnotEmpty hnoNode
    refine ⟨t.version? s.path, ?_, reports_version? hparse⟩
    exact afterConflict_eq_refused hnotEmpty hnoNode

/-- Every change is made, or is refused for its path or a conflict, in both ways. -/
theorem corresponds_alter (t : Tree) (s : Step) :
    t.Corresponds s (t.alter s) (t.transact [s]) := by
  cases hparse : Path.parse s.path with
  | error fault => exact corresponds_of_badPath hparse
  | ok p =>
      rcases changed_or_conflicted t p s.change with
        ⟨version, t', hchanged⟩ | ⟨conflict, hconflicted⟩
      · exact corresponds_of_ok hparse hchanged
      · exact corresponds_of_conflict hparse hconflicted

end Ways

/-- Whatever the tree holds and whatever the path, the version and the payload are, creating, writing
and deleting a node by a call of its own goes like the transaction with this one step. -/
theorem single_changes_correspond (t : Tree) (path : String) :
    (∀ data, t.Corresponds ⟨path, .create data⟩ (t.answer (.create path data))
      (t.answer (.transact [⟨path, .create data⟩]))) ∧
    (∀ data expected, t.Corresponds ⟨path, .write data expected⟩ (t.answer (.write path data expected))
      (t.answer (.transact [⟨path, .write data expected⟩]))) ∧
    ∀ expected, t.Corresponds ⟨path, .delete expected⟩ (t.answer (.delete path expected))
      (t.answer (.transact [⟨path, .delete expected⟩])) :=
  ⟨fun _ => corresponds_alter t _, fun _ _ => corresponds_alter t _, fun _ => corresponds_alter t _⟩

end Tree
end DeltaLedger
