import DeltaLedger.Proofs.GrownTrees
import DeltaLedger.Proofs.SeparateSubtrees

/-!
# Making a root, step by step

To make the root of a datamart, a client creates the node of the environment and then the root, and
takes it for granted that another client may have been faster.  What it has come to shows what is
there: since nobody deletes these nodes, the second creation never lacks a parent.
-/

namespace DeltaLedger

/-! ## Creations -/

namespace Tree

variable {t t' t'' : Tree} {p : Path} {node : Node} {data : List UInt8}

/-- All nodes are as they were, with their contents and versions; there may be new ones. -/
def Keeps (t t' : Tree) : Prop :=
  ∀ (p : Path) (node : Node), t.nodes[p]? = some node → t'.nodes[p]? = some node

theorem Keeps.refl (t : Tree) : t.Keeps t :=
  fun _ _ hnode => hnode

theorem Keeps.has (hkeeps : t.Keeps t') (hhas : t.has p = true) : t'.has p = true := by
  rw [has_eq_true_iff] at hhas ⊢
  rcases hhas with hroot | ⟨node, hnode⟩
  · exact .inl hroot
  · exact .inr ⟨node, hkeeps p node hnode⟩

theorem keeps_put (hfree : t.has p = false) : t.Keeps (t.put p node) := by
  intro q found hfound
  rw [getElem?_put, if_neg, hfound]
  rintro rfl
  rw [has_of_getElem? hfound] at hfree
  cases hfree

theorem has_put_self : (t.put p node).has p = true :=
  has_of_getElem? (by rw [getElem?_put, if_pos rfl])

theorem answer_create_of_taken (data : List UInt8) (htaken : t.has p = true) :
    ∃ current, t.answer (.create p.text data) = (.ok (.refused current), t) := by
  have hchange : t.change p (.create data) = .error .nodeExists := (Conflicted.taken htaken).eq_error
  refine ⟨t.version? p.text, ?_⟩
  simp [answer, alter, step, hchange, afterConflict]

theorem answer_create_of_free (hfree : t.has p = false) (hparent : p.parent?.any t.has = true) :
    t.answer (.create p.text data) = (.ok (.done 0), t.put p ⟨data, 0⟩) := by
  have hchange : t.change p (.create data) = .ok (0, t.put p ⟨data, 0⟩) :=
    (Changed.created hfree hparent).eq_ok
  simp [answer, alter, step, hchange]

end Tree

/-! ## The paths of a site -/

namespace Site

/-- The path of the node of the environment. -/
def above (s : Site) : Path :=
  ⟨[s.env.text], legal_env s.env⟩

theorem parent?_root (s : Site) : s.root.parent? = some s.above := rfl

theorem parent?_above (s : Site) : s.above.parent? = some Path.root := rfl

theorem text_above (s : Site) : s.above.text = "/" ++ s.env.text := by
  apply String.toList_injective
  simp [Path.text, above]

theorem text_root (s : Site) : s.root.text = "/" ++ s.env.text ++ "/" ++ s.datamart.text := by
  apply String.toList_injective
  simp [Path.text, root]

theorem founding_eq (s : Site) : Datamart.ensureRoot s.env s.datamart.text =
    Datamart.ensureNode s.above.text >>= fun _ =>
      Datamart.ensureNode s.root.text >>= fun _ => .done (.ok s.root.text) := by
  unfold Datamart.ensureRoot Datamart.parseRoot Datamart.parseName Name.parseField
  rw [Name.parse_text, envPath_eq]
  dsimp only
  rw [rootPath_eq]
  rfl

end Site

/-! ## Steps -/

namespace Program

variable {ε α : Type}

/-- One step of a program on a tree. -/
def stepOn (t : Tree) (now : DateTime) : Program ε α → Program ε α × Tree
  | .done result => (.done result, t)
  | .call c next => (next (t.answer c).1, (t.answer c).2)
  | .clock next => (next now, t)
  | .note _ next => (next, t)

def result? : Program ε α → Option (Except ε α)
  | .done result => some result
  | _ => none

end Program

/-- A node is made before the rest of a program: what the first call may be answered. -/
theorem ensureNode_bind {α : Type} (path : String) (rest : Program StoreError α) :
    (Datamart.ensureNode path >>= fun _ => rest) = .call (.create path []) fun
      | .ok (.done _) => .note (.event (.nodeCreated path)) rest
      | .ok (.refused _) => rest
      | .error e => .done (.error e) := by
  change Program.call _ _ = _
  congr 1
  funext reply
  cases reply with
  | error e => rfl
  | ok outcome => cases outcome <;> rfl

/-- What a client that makes the root of a site still does, in at most so many steps, and what of it
is there. -/
inductive FoundingStage (s : Site) (t : Tree) : Nat → Program StoreError String → Prop where
  | begun : FoundingStage s t 4 (Datamart.ensureRoot s.env s.datamart.text)
  | madeAbove {notice : Notice} (habove : t.has s.above = true) :
      FoundingStage s t 3 (.note notice
        (Datamart.ensureNode s.root.text >>= fun _ => .done (.ok s.root.text)))
  | above (habove : t.has s.above = true) :
      FoundingStage s t 2 (Datamart.ensureNode s.root.text >>= fun _ => .done (.ok s.root.text))
  | madeRoot {notice : Notice} (habove : t.has s.above = true) (hroot : t.has s.root = true) :
      FoundingStage s t 1 (.note notice (.done (.ok s.root.text)))
  | standing (habove : t.has s.above = true) (hroot : t.has s.root = true) :
      FoundingStage s t 0 (.done (.ok s.root.text))

namespace FoundingStage

variable {s : Site} {t t' : Tree} {n : Nat} {rest : Program StoreError String} {now : DateTime}

theorem mono (hstage : FoundingStage s t n rest)
    (habove : t.has s.above = true → t'.has s.above = true)
    (hroot : t.has s.root = true → t'.has s.root = true) : FoundingStage s t' n rest := by
  cases hstage with
  | begun => exact .begun
  | madeAbove hthere => exact .madeAbove (habove hthere)
  | above hthere => exact .above (habove hthere)
  | madeRoot hthere hroot' => exact .madeRoot (habove hthere) (hroot hroot')
  | standing hthere hroot' => exact .standing (habove hthere) (hroot hroot')

theorem le_four (hstage : FoundingStage s t n rest) : n ≤ 4 := by
  cases hstage <;> omega

theorem of_result (hstage : FoundingStage s t n rest) {result : Except StoreError String}
    (hresult : rest.result? = some result) :
    result = .ok s.root.text ∧ t.has s.above = true ∧ t.has s.root = true := by
  cases hstage with
  | begun =>
      rw [s.founding_eq, ensureNode_bind] at hresult
      cases hresult
  | madeAbove => cases hresult
  | above =>
      rw [ensureNode_bind] at hresult
      cases hresult
  | madeRoot => cases hresult
  | standing habove hroot =>
      cases hresult
      exact ⟨rfl, habove, hroot⟩

theorem result_of_zero (hstage : FoundingStage s t 0 rest) :
    rest.result? = some (.ok s.root.text) := by
  cases hstage
  rfl

/-- A step comes nearer to the end, keeps all nodes, and makes none where both nodes are there. -/
structure Progress (s : Site) (t : Tree) (n : Nat) (next : Program StoreError String × Tree) :
    Prop where
  stage : ∃ m, m ≤ n - 1 ∧ FoundingStage s next.2 m next.1
  keeps : t.Keeps next.2
  idle : t.has s.above = true → t.has s.root = true → next.2 = t

theorem step (hstage : FoundingStage s t n rest) (now : DateTime) :
    Progress s t n (rest.stepOn t now) := by
  cases hstage with
  | begun =>
      rw [s.founding_eq, ensureNode_bind, Program.stepOn]
      cases hthere : t.has s.above with
      | true =>
          obtain ⟨current, hanswer⟩ := Tree.answer_create_of_taken [] hthere
          rw [hanswer]
          exact ⟨⟨2, by decide, .above hthere⟩, .refl t, fun _ _ => rfl⟩
      | false =>
          have hparent : s.above.parent?.any t.has = true := by
            rw [s.parent?_above]
            exact Tree.has_eq_true_iff.mpr (.inl rfl)
          rw [Tree.answer_create_of_free hthere hparent]
          exact ⟨⟨3, by decide, .madeAbove Tree.has_put_self⟩, Tree.keeps_put hthere,
            fun habove _ => absurd (hthere.symm.trans habove) Bool.false_ne_true⟩
  | madeAbove hthere => exact ⟨⟨2, by decide, .above hthere⟩, .refl t, fun _ _ => rfl⟩
  | above habove =>
      rw [ensureNode_bind, Program.stepOn]
      cases hthere : t.has s.root with
      | true =>
          obtain ⟨current, hanswer⟩ := Tree.answer_create_of_taken [] hthere
          rw [hanswer]
          exact ⟨⟨0, by decide, .standing habove hthere⟩, .refl t, fun _ _ => rfl⟩
      | false =>
          have hparent : s.root.parent?.any t.has = true := by
            rw [s.parent?_root]
            exact habove
          rw [Tree.answer_create_of_free hthere hparent]
          have hkeeps : t.Keeps (t.put s.root ⟨[], 0⟩) := Tree.keeps_put hthere
          exact ⟨⟨1, by decide, .madeRoot (hkeeps.has habove) Tree.has_put_self⟩, hkeeps,
            fun _ hroot => absurd (hthere.symm.trans hroot) Bool.false_ne_true⟩
  | madeRoot habove hroot => exact ⟨⟨0, by decide, .standing habove hroot⟩, .refl t, fun _ _ => rfl⟩
  | standing habove hroot => exact ⟨⟨0, by decide, .standing habove hroot⟩, .refl t, fun _ _ => rfl⟩

end FoundingStage

end DeltaLedger
