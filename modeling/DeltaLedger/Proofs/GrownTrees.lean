import DeltaLedger.Proofs.ChildPaths
import DeltaLedger.Proofs.GroundedTrees
import DeltaLedger.Proofs.SingleChanges

/-!
# Trees that calls have made

Whatever calls are made, one after another, the tree that they make of the empty one keeps in shape.
Every node but the root has a node above it, so a node has something below it exactly when it has a
child.  The version of a node is the number of times it was written since it was last created, as the
record of the steps taken shows.
-/

namespace DeltaLedger

/-- The step of a change that is a call of its own, if it was taken. -/
def Step.taken (s : Step) : Except StoreError WriteOutcome → List Step
  | .ok (.done _) => [s]
  | _ => []

/-- The steps that a call asks for. -/
def Call.steps : Call → List Step
  | .create path data => [⟨path, .create data⟩]
  | .write path data expected => [⟨path, .write data expected⟩]
  | .delete path expected => [⟨path, .delete expected⟩]
  | .transact steps => steps
  | _ => []

/-- The steps that a call has taken, as its reply tells: all of them or none. -/
def Call.taken : (c : Call) → c.Reply → List Step
  | .create path data, reply => Step.taken ⟨path, .create data⟩ reply
  | .write path data expected, reply => Step.taken ⟨path, .write data expected⟩ reply
  | .delete path expected, reply => Step.taken ⟨path, .delete expected⟩ reply
  | .transact steps, .ok .committed => steps
  | _, _ => []

namespace Step

variable {path path' : String} {change : Change} {s : Step} {made : List Step}

def creates (s : Step) (path : String) : Bool :=
  s.path == path && s.change.isCreation

def writes (s : Step) (path : String) : Bool :=
  s.path == path && s.change.isWriting

@[simp] theorem creates_self : creates ⟨path, change⟩ path = change.isCreation := by
  simp [creates]

@[simp] theorem writes_self : writes ⟨path, change⟩ path = change.isWriting := by
  simp [writes]

/-- A step is at one path only. -/
theorem not_creates_nor_writes (hne : path ≠ path') (change : Change) :
    creates ⟨path, change⟩ path' = false ∧ writes ⟨path, change⟩ path' = false := by
  simp [creates, writes, hne]

/-- How often the node at a path was written since it was last created.  The newest step is the
first. -/
def writesOf (path : String) (made : List Step) : Nat :=
  (made.takeWhile fun s => !s.creates path).countP fun s => s.writes path

theorem writesOf_of_creates (hcreates : s.creates path = true) : writesOf path (s :: made) = 0 := by
  simp [writesOf, hcreates]

theorem writesOf_of_not_creates (hcreates : s.creates path = false) :
    writesOf path (s :: made) = writesOf path made + if s.writes path then 1 else 0 := by
  simp [writesOf, hcreates, List.countP_cons]

end Step

namespace Tree

variable {t t' : Tree} {p q : Path} {node : Node} {s : Step} {steps made : List Step}

/-- The tree that calls make of the empty one, and the steps they have taken.  The newest come first. -/
def grown : List Call → Tree × List Step
  | [] => (.empty, [])
  | c :: calls =>
    let before := grown calls
    let result := before.1.answer c
    (result.2, (c.taken result.1).reverse ++ before.2)

/-! ## Steps and versions -/

section Records

/-- The record of the steps taken tells of every node when it was created and its version. -/
def Recorded (t : Tree) (made : List Step) : Prop :=
  ∀ (p : Path) (node : Node), t.nodes[p]? = some node →
    (∃ s ∈ made, s.creates p.text = true) ∧ node.version = Step.writesOf p.text made

theorem recorded_empty : Recorded .empty [] := by
  intro p node hnode
  simp [empty] at hnode

/-- What was recorded of a node stays true when another step is recorded, but for its writes. -/
theorem Recorded.cons (hrecorded : t.Recorded made) (hnode : t.nodes[p]? = some node)
    (hcreates : s.creates p.text = false) :
    (∃ s' ∈ s :: made, s'.creates p.text = true) ∧
      Step.writesOf p.text (s :: made) = node.version + if s.writes p.text then 1 else 0 := by
  obtain ⟨⟨s', hmem, hcreated⟩, hversion⟩ := hrecorded p node hnode
  rw [Step.writesOf_of_not_creates hcreates, ← hversion]
  exact ⟨⟨s', List.mem_cons_of_mem _ hmem, hcreated⟩, rfl⟩

theorem Recorded.changed {change : Change} {v : Nat} (hrecorded : t.Recorded made)
    (hchanged : t.Changed p change v t') : t'.Recorded (⟨p.text, change⟩ :: made) := by
  intro q found hfound
  by_cases hsame : p = q
  · subst hsame
    cases hchanged with
    | @created data _ _ =>
        rw [getElem?_put, if_pos rfl] at hfound
        cases hfound
        have hcreates : Step.creates ⟨p.text, .create data⟩ p.text = true := Step.creates_self
        exact ⟨⟨_, List.mem_cons_self, hcreates⟩, (Step.writesOf_of_creates hcreates).symm⟩
    | @written data expected node hnode _ =>
        rw [getElem?_put, if_pos rfl] at hfound
        cases hfound
        obtain ⟨hcreated, hversion⟩ := hrecorded.cons (s := ⟨p.text, .write data expected⟩) hnode
          Step.creates_self
        rw [hversion, Step.writes_self]
        exact ⟨hcreated, rfl⟩
    | deleted _ _ _ =>
        rw [getElem?_drop, if_pos rfl] at hfound
        cases hfound
    | @checked node _ =>
        obtain ⟨hcreated, hversion⟩ := hrecorded.cons (s := ⟨p.text, .check node.version⟩) hfound
          Step.creates_self
        rw [hversion, Step.writes_self]
        exact ⟨hcreated, rfl⟩
  · rw [hchanged.getElem?_of_ne hsame] at hfound
    have htext : p.text ≠ q.text := fun heq => hsame (text_injective heq)
    obtain ⟨hcreates, hwrites⟩ := Step.not_creates_nor_writes htext change
    obtain ⟨hcreated, hversion⟩ := hrecorded.cons hfound hcreates
    rw [hversion, hwrites]
    exact ⟨hcreated, rfl⟩

theorem Recorded.step {version : Nat} (hrecorded : t.Recorded made)
    (hstep : t.step s = .ok (version, t')) : t'.Recorded (s :: made) := by
  obtain ⟨p, hparse, hchanged⟩ := step_eq_ok_iff.mp hstep
  have hnext := hrecorded.changed hchanged
  rwa [Path.text_of_parse hparse] at hnext

theorem Recorded.commits (hrecorded : t.Recorded made) (hcommits : t.Commits steps t') :
    t'.Recorded (steps.reverse ++ made) := by
  induction steps generalizing t made with
  | nil =>
      cases hcommits
      exact hrecorded
  | cons s steps ih =>
      obtain ⟨v, next, hstep, hrest⟩ := hcommits
      rw [List.reverse_cons, List.append_assoc, List.singleton_append]
      exact ih (hrecorded.step hstep) hrest

theorem commits_taken_alter (t : Tree) (s : Step) :
    t.Commits (s.taken (t.alter s).1) (t.alter s).2 := by
  have hcorresponds := corresponds_alter t s
  by_cases hdone : ∃ version, (t.alter s).1 = .ok (.done version)
  · have hcommitted : t.transact [s] = (.ok .committed, (t.alter s).2) := by
      rw [hcorresponds.tree, ← hcorresponds.done_iff.mp hdone]
    obtain ⟨version, hdone⟩ := hdone
    rw [hdone]
    exact transact_eq_committed_iff.mp hcommitted
  · have hnothing : s.taken (t.alter s).1 = [] := by
      unfold Step.taken
      split
      next version heq => exact absurd ⟨version, heq⟩ hdone
      next => rfl
    rw [hnothing]
    exact hcorresponds.unchanged (not_exists.mp hdone)

/-- The steps that a call has taken lead to the tree that it leaves. -/
theorem commits_taken (t : Tree) (c : Call) :
    t.Commits (c.taken (t.answer c).1) (t.answer c).2 := by
  cases c with
  | stat | read | children => rfl
  | create path data => exact commits_taken_alter t _
  | write path data expected => exact commits_taken_alter t _
  | delete path expected => exact commits_taken_alter t _
  | transact steps =>
      change t.Commits (Call.taken (.transact steps) (t.transact steps).1) (t.transact steps).2
      rcases commits_or_refuses t steps with
        ⟨t', hcommits⟩ | ⟨done, s, rest, middle, refusal, rfl, hrefuses⟩
      · rw [transact_of_commits hcommits]
        exact hcommits
      · rw [transact_of_refuses hrefuses rest]
        cases refusal <;> rfl

theorem recorded_grown (calls : List Call) : (grown calls).1.Recorded (grown calls).2 := by
  induction calls with
  | nil => exact recorded_empty
  | cons c calls ih => exact ih.commits (commits_taken _ c)

theorem grounded_grown (calls : List Call) : (grown calls).1.Grounded := by
  induction calls with
  | nil => exact grounded_empty
  | cons c calls ih => exact ih.answer c

end Records

/-! ## Nodes and what lies below them -/

section Shape

theorem has_eq_true_iff : t.has p = true ↔ p = Path.root ∨ ∃ node, t.nodes[p]? = some node := by
  by_cases hroot : p = Path.root
  · simp [hroot, has, find?]
  · simp only [has, find?_of_ne_root hroot, Option.isSome_iff_exists, hroot, false_or]

theorem Grounded.ne_root (hgrounded : t.Grounded) (hnode : t.nodes[p]? = some node) :
    p ≠ Path.root := by
  rintro rfl
  cases hgrounded _ node hnode

theorem Grounded.exists_parent (hgrounded : t.Grounded) (hnode : t.nodes[p]? = some node) :
    ∃ q, p.parent? = some q ∧ t.has q = true :=
  (Option.any_eq_true _ _).mp (hgrounded p node hnode)

/-- Every path to a node leads through nodes only. -/
theorem Grounded.has_of_prefix (hgrounded : t.Grounded) (hnode : t.nodes[q]? = some node)
    (hleads : p.names <+: q.names) : t.has p = true := by
  induction q using Path.child_induction generalizing node with
  | root => exact absurd rfl (hgrounded.ne_root hnode)
  | child parent name hlegal ih =>
      rcases List.prefix_concat_iff.mp hleads with hwhole | hshorter
      · rw [show p = parent.child name hlegal from Path.ext_names hwhole]
        exact has_of_getElem? hnode
      · obtain ⟨q, hparent, hhas⟩ := hgrounded.exists_parent hnode
        rw [Path.parent?_child, Option.some.injEq] at hparent
        subst hparent
        rcases has_eq_true_iff.mp hhas with rfl | ⟨node', hnode'⟩
        · rw [show p = Path.root from Path.ext_names (List.prefix_nil.mp hshorter)]
          exact has_eq_true_iff.mpr (.inl rfl)
        · exact ih hnode' hshorter

theorem mem_childNames_iff {name : String} :
    name ∈ t.childNames p ↔ ∃ hlegal, t.has (p.child name hlegal) = true := by
  have hstored : ∀ hlegal, t.has (p.child name hlegal) = true ↔
      ∃ node, t.nodes[p.child name hlegal]? = some node := by
    intro hlegal
    simp [has_eq_true_iff, Path.child_ne_root]
  rw [mem_childNames]
  constructor
  · rintro ⟨q, node, hnode, hname⟩
    obtain ⟨hlegal, rfl⟩ := Path.eq_child_of_childName? hname
    exact ⟨hlegal, (hstored hlegal).mpr ⟨node, hnode⟩⟩
  · rintro ⟨hlegal, hhas⟩
    obtain ⟨node, hnode⟩ := (hstored hlegal).mp hhas
    exact ⟨_, node, hnode, p.childName?_child hlegal⟩

/-- Something lies below a node exactly if it has a child. -/
theorem Grounded.hasBelow_iff (hgrounded : t.Grounded) :
    t.hasBelow p = true ↔ t.childNames p ≠ [] := by
  rw [hasBelow_eq_true_iff]
  constructor
  · rintro ⟨q, node, hnode, habove⟩
    obtain ⟨name, rest, hnames⟩ := Path.isAbove_iff.mp habove
    have hlegal : LegalName name := q.legal name (by simp [hnames])
    have hchild : t.has (p.child name hlegal) = true := by
      apply hgrounded.has_of_prefix hnode
      exact ⟨rest, by simp [Path.child, hnames]⟩
    exact List.ne_nil_of_mem (mem_childNames_iff.mpr ⟨hlegal, hchild⟩)
  · intro hsome
    obtain ⟨name, hname⟩ := List.exists_mem_of_ne_nil _ hsome
    obtain ⟨q, node, hnode, hchild⟩ := mem_childNames.mp hname
    obtain ⟨hlegal, rfl⟩ := Path.eq_child_of_childName? hchild
    exact ⟨_, node, hnode, isAbove_of_parent? (p.parent?_child hlegal)⟩

end Shape

/-! ## What clients see -/

/-- A look finds a node at the path. -/
def Found (t : Tree) (path : String) : Prop :=
  ∃ stat, (t.answer (.stat path)).1 = .ok (some stat)

theorem found_iff {path : String} : t.Found path ↔ ∃ p, Path.parse path = .ok p ∧ t.has p = true := by
  cases hparse : Path.parse path with
  | error fault => simp [Found, answer, atPath, hparse]
  | ok p => simp [Found, answer, atPath, hparse, has, Option.isSome_iff_exists]

theorem found_text_iff : t.Found p.text ↔ t.has p = true := by
  simp [found_iff]

theorem found_join_iff {name : String} (hne : name ≠ "") (hslash : '/' ∉ name.toList) :
    t.Found (Path.join p.text name) ↔ name ∈ t.childNames p := by
  have hnotRoot := Path.join_ne_slash p.text_ne_empty hne
  rw [found_iff, mem_childNames_iff]
  constructor
  · rintro ⟨q, hparse, hhas⟩
    obtain ⟨hlegal, rfl⟩ := (Path.parse_join_eq_ok_iff hnotRoot hslash).mp hparse
    exact ⟨hlegal, hhas⟩
  · rintro ⟨hlegal, hhas⟩
    exact ⟨_, (Path.parse_join_eq_ok_iff hnotRoot hslash).mpr ⟨hlegal, rfl⟩, hhas⟩

theorem missing_iff :
    (∃ message, (t.answer (.children p.text)).1 = .error (.notFound message)) ↔ ¬t.Found p.text := by
  rw [found_text_iff, answer_children]
  cases t.has p <;> simp [StoreError.nodeMissing]

theorem children_of_found (hfound : t.Found p.text) :
    (t.answer (.children p.text)).1 = .ok (t.childNames p) := by
  rw [answer_children, found_text_iff.mp hfound, if_pos rfl]

theorem mem_childNames_iff_found {name : String} :
    name ∈ t.childNames p ↔ name ≠ "" ∧ '/' ∉ name.toList ∧ t.Found (Path.join p.text name) := by
  constructor
  · intro hname
    obtain ⟨hlegal, hhas⟩ := mem_childNames_iff.mp hname
    exact ⟨hlegal.1, hlegal.2.1, (found_join_iff hlegal.1 hlegal.2.1).mpr hname⟩
  · rintro ⟨hne, hslash, hfound⟩
    exact (found_join_iff hne hslash).mp hfound

end Tree
end DeltaLedger
