import DeltaLedger.Proofs.Transactions

/-!
# Changes of one node

All that a change of one node can do, and all that can keep it from happening, each as one relation.
The two relations have a rule for every case, and a change succeeds by a rule of the one or is refused
by a rule of the other.  Facts about changes are shown by cases on these rules.
-/

namespace DeltaLedger

namespace Change

def isCreation : Change → Bool
  | create _ => true
  | _ => false

def isRemoval : Change → Bool
  | delete _ => true
  | _ => false

def isWriting : Change → Bool
  | write _ _ => true
  | _ => false

end Change

namespace Tree

variable {t t' : Tree} {p : Path} {change : Change} {version : Nat} {conflict : Conflict}

/-- A change happens: the version that it gives, and the tree that it leaves. -/
inductive Changed (t : Tree) (p : Path) : Change → Nat → Tree → Prop where
  | created {data : List UInt8} (hfree : t.has p = false) (hparent : p.parent?.any t.has = true) :
      t.Changed p (.create data) 0 (t.put p ⟨data, 0⟩)
  | written {data : List UInt8} {expected : Option Int} {node : Node}
      (hnode : t.nodes[p]? = some node) (hmeets : meets expected node.version = true) :
      t.Changed p (.write data expected) (node.version + 1) (t.put p ⟨data, node.version + 1⟩)
  | deleted {expected : Option Int} {node : Node} (hnode : t.nodes[p]? = some node)
      (hmeets : meets expected node.version = true) (hbelow : t.hasBelow p = false) :
      t.Changed p (.delete expected) node.version (t.drop p)
  | checked {node : Node} (hnode : t.find? p = some node) :
      t.Changed p (.check node.version) node.version t

/-- A change is kept from happening. -/
inductive Conflicted (t : Tree) (p : Path) : Change → Conflict → Prop where
  | taken {data : List UInt8} (htaken : t.has p = true) : t.Conflicted p (.create data) .nodeExists
  | parentless {data : List UInt8} (hfree : t.has p = false)
      (hparent : p.parent?.any t.has = false) : t.Conflicted p (.create data) .noNode
  | unwritable {data : List UInt8} {expected : Option Int} (hnode : t.nodes[p]? = none) :
      t.Conflicted p (.write data expected) .noNode
  | overwritten {data : List UInt8} {expected : Option Int} {node : Node}
      (hnode : t.nodes[p]? = some node) (hmeets : meets expected node.version = false) :
      t.Conflicted p (.write data expected) (.badVersion node.version)
  | missing {expected : Option Int} (hnode : t.nodes[p]? = none) :
      t.Conflicted p (.delete expected) .noNode
  | outdated {expected : Option Int} {node : Node} (hnode : t.nodes[p]? = some node)
      (hmeets : meets expected node.version = false) :
      t.Conflicted p (.delete expected) (.badVersion node.version)
  | inhabited {expected : Option Int} {node : Node} (hnode : t.nodes[p]? = some node)
      (hmeets : meets expected node.version = true) (hbelow : t.hasBelow p = true) :
      t.Conflicted p (.delete expected) .notEmpty
  | unseen {expected : Int} (hnode : t.find? p = none) : t.Conflicted p (.check expected) .noNode
  | different {expected : Int} {node : Node} (hnode : t.find? p = some node)
      (hne : expected ≠ node.version) :
      t.Conflicted p (.check expected) (.badVersion node.version)

theorem Changed.eq_ok (hchanged : t.Changed p change version t') :
    t.change p change = .ok (version, t') := by
  cases hchanged with
  | created hfree hparent => simp [Tree.change, hfree, hparent]
  | written hnode hmeets => simp [Tree.change, hnode, hmeets]
  | deleted hnode hmeets hbelow => simp [Tree.change, hnode, hmeets, hbelow]
  | checked hnode => simp [Tree.change, hnode]

theorem Conflicted.eq_error (hconflicted : t.Conflicted p change conflict) :
    t.change p change = .error conflict := by
  cases hconflicted with
  | taken htaken => simp [Tree.change, htaken]
  | parentless hfree hparent => simp [Tree.change, hfree, hparent]
  | unwritable hnode => simp [Tree.change, hnode]
  | overwritten hnode hmeets => simp [Tree.change, hnode, hmeets]
  | missing hnode => simp [Tree.change, hnode]
  | outdated hnode hmeets => simp [Tree.change, hnode, hmeets]
  | inhabited hnode hmeets hbelow => simp [Tree.change, hnode, hmeets, hbelow]
  | unseen hnode => simp [Tree.change, hnode]
  | different hnode hne => simp [Tree.change, hnode, hne]

/-- Some rule applies to every change. -/
theorem changed_or_conflicted (t : Tree) (p : Path) (change : Change) :
    (∃ version t', t.Changed p change version t') ∨ ∃ conflict, t.Conflicted p change conflict := by
  cases change with
  | create data =>
      cases hfree : t.has p with
      | true => exact .inr ⟨_, .taken hfree⟩
      | false =>
          cases hparent : p.parent?.any t.has with
          | true => exact .inl ⟨_, _, .created hfree hparent⟩
          | false => exact .inr ⟨_, .parentless hfree hparent⟩
  | write data expected =>
      cases hnode : t.nodes[p]? with
      | none => exact .inr ⟨_, .unwritable hnode⟩
      | some node =>
          cases hmeets : meets expected node.version with
          | true => exact .inl ⟨_, _, .written hnode hmeets⟩
          | false => exact .inr ⟨_, .overwritten hnode hmeets⟩
  | delete expected =>
      cases hnode : t.nodes[p]? with
      | none => exact .inr ⟨_, .missing hnode⟩
      | some node =>
          cases hmeets : meets expected node.version with
          | false => exact .inr ⟨_, .outdated hnode hmeets⟩
          | true =>
              cases hbelow : t.hasBelow p with
              | true => exact .inr ⟨_, .inhabited hnode hmeets hbelow⟩
              | false => exact .inl ⟨_, _, .deleted hnode hmeets hbelow⟩
  | check expected =>
      cases hnode : t.find? p with
      | none => exact .inr ⟨_, .unseen hnode⟩
      | some node =>
          by_cases heq : expected = node.version
          · subst heq
            exact .inl ⟨_, _, .checked hnode⟩
          · exact .inr ⟨_, .different hnode heq⟩

theorem change_eq_ok_iff :
    t.change p change = .ok (version, t') ↔ t.Changed p change version t' := by
  constructor
  · intro hchange
    rcases changed_or_conflicted t p change with ⟨v, after, hchanged⟩ | ⟨conflict, hconflicted⟩
    · rw [hchanged.eq_ok] at hchange
      cases hchange
      exact hchanged
    · rw [hconflicted.eq_error] at hchange
      cases hchange
  · exact Changed.eq_ok

theorem change_eq_error_iff :
    t.change p change = .error conflict ↔ t.Conflicted p change conflict := by
  constructor
  · intro hchange
    rcases changed_or_conflicted t p change with ⟨v, after, hchanged⟩ | ⟨found, hconflicted⟩
    · rw [hchanged.eq_ok] at hchange
      cases hchange
    · rw [hconflicted.eq_error] at hchange
      cases hchange
      exact hconflicted
  · exact Conflicted.eq_error

/-- A change is at one node. -/
theorem Changed.getElem?_of_ne {q : Path} (hchanged : t.Changed p change version t') (hne : p ≠ q) :
    t'.nodes[q]? = t.nodes[q]? := by
  cases hchanged with
  | created _ _ => rw [getElem?_put, if_neg hne]
  | written _ _ => rw [getElem?_put, if_neg hne]
  | deleted _ _ _ => rw [getElem?_drop, if_neg hne]
  | checked _ => rfl

theorem step_eq_ok_iff {s : Step} :
    t.step s = .ok (version, t') ↔
      ∃ p, Path.parse s.path = .ok p ∧ t.Changed p s.change version t' := by
  unfold step
  cases Path.parse s.path with
  | error fault => simp
  | ok p =>
      simp only [Except.ok.injEq, exists_eq_left', ← change_eq_ok_iff]
      cases t.change p s.change <;> simp

/-- Only a removal meets children. -/
theorem Conflicted.isRemoval {change : Change} (hconflicted : t.Conflicted p change .notEmpty) :
    change.isRemoval := by
  cases hconflicted
  rfl

end Tree
end DeltaLedger
