import DeltaLedger.Proofs.ClusterSteps
import DeltaLedger.Proofs.NodeChanges

/-!
# Nodes and their parents

A node is created below one that is there, and is deleted only when nothing lies below it.
So whatever calls are made, every node of a tree has its parent, and a datamart that keeps
anything has its root.
-/

namespace DeltaLedger
namespace Tree

/-- Every node lies below another one, or below the root of the tree. -/
def Grounded (t : Tree) : Prop :=
  ∀ (p : Path) (node : Node), t.nodes[p]? = some node → p.parent?.any t.has = true

section Changes

variable {t t' : Tree} {p q : Path} {node : Node}

theorem grounded_empty : Grounded .empty := by
  intro p node hnode
  simp [empty] at hnode

theorem has_put (hhas : t.has q = true) : (t.put p node).has q = true := by
  by_cases hsame : p = q
  · exact has_of_getElem? (by rw [getElem?_put, if_pos hsame])
  · rwa [has_put_of_ne hsame]

theorem isAbove_of_parent? (hparent : q.parent? = some p) : p.isAbove q = true := by
  unfold Path.parent? at hparent
  split at hparent
  next => cases hparent
  next hne =>
    cases hparent
    have hpos := List.length_pos_iff.mpr hne
    simp only [Path.isAbove, Bool.and_eq_true, List.isPrefixOf_iff_prefix, decide_eq_true_eq,
      List.length_dropLast]
    exact ⟨List.dropLast_prefix _, by omega⟩

theorem Grounded.put (hgrounded : t.Grounded) (hparent : p.parent?.any t.has = true) :
    (t.put p node).Grounded := by
  intro q found hfound
  have hbefore : q.parent?.any t.has = true := by
    rw [getElem?_put] at hfound
    split at hfound
    next hsame => rwa [← hsame]
    next => exact hgrounded q found hfound
  obtain ⟨parent, hq, hhas⟩ := (Option.any_eq_true _ _).mp hbefore
  rw [hq]
  exact has_put hhas

theorem Grounded.drop (hgrounded : t.Grounded) (hbelow : t.hasBelow p = false) :
    (t.drop p).Grounded := by
  intro q found hfound
  rw [getElem?_drop] at hfound
  split at hfound
  next => cases hfound
  next =>
    obtain ⟨parent, hq, hhas⟩ := (Option.any_eq_true _ _).mp (hgrounded q found hfound)
    have hother : p ≠ parent := by
      rintro rfl
      have habove := hasBelow_eq_true_iff.mpr ⟨q, found, hfound, isAbove_of_parent? hq⟩
      rw [hbelow] at habove
      cases habove
    rw [hq, Option.any_some, has_drop_of_ne hother]
    exact hhas

theorem Grounded.changed {change : Change} {version : Nat} (hgrounded : t.Grounded)
    (hchanged : t.Changed p change version t') : t'.Grounded := by
  cases hchanged with
  | created _ hparent => exact hgrounded.put hparent
  | written hnode _ => exact hgrounded.put (hgrounded p _ hnode)
  | deleted _ _ hbelow => exact hgrounded.drop hbelow
  | checked _ => exact hgrounded

theorem Grounded.step (hgrounded : t.Grounded) {step : Step} {version : Nat}
    (hstep : t.step step = .ok (version, t')) : t'.Grounded := by
  obtain ⟨p, _, hchanged⟩ := step_eq_ok_iff.mp hstep
  exact hgrounded.changed hchanged

theorem Grounded.commits {steps : List Step} (hgrounded : t.Grounded)
    (hcommits : t.Commits steps t') : t'.Grounded := by
  induction steps generalizing t with
  | nil =>
      cases hcommits
      exact hgrounded
  | cons step steps ih =>
      obtain ⟨version, next, hstep, hrest⟩ := hcommits
      exact ih (hgrounded.step hstep) hrest

/-- Whatever is called, the nodes keep their parents. -/
theorem Grounded.answer (hgrounded : t.Grounded) (c : Call) : (t.answer c).2.Grounded := by
  have halter : ∀ step, (t.alter step).2.Grounded := by
    intro step
    unfold Tree.alter
    split
    next hstep => exact hgrounded.step hstep
    next => exact hgrounded
    next => exact hgrounded
  cases c with
  | stat | read | children => exact hgrounded
  | create path data => exact halter _
  | write path data expected => exact halter _
  | delete path expected => exact halter _
  | transact steps =>
      change (t.transact steps).2.Grounded
      unfold Tree.transact
      split
      next hsteps => exact hgrounded.commits (stepsFrom_eq_ok_iff.mp hsteps)
      next => exact hgrounded
      next => exact hgrounded

end Changes

theorem grounded_rooted (time : DateTime) (roots : List (Name × String)) :
    (rooted time roots).Grounded := by
  induction roots with
  | nil => exact grounded_empty
  | cons root roots ih =>
      exact (makes_ensureRoot root.1 root.2).runAlone Grounded
        (fun c t _ hgrounded => hgrounded.answer c) ih

theorem Grounded.has_root {t : Tree} {s : Site} (hgrounded : t.Grounded) {node : Node}
    (hnode : t.nodes[s.path .counters]? = some node) : t.has s.root = true := by
  have hparent := hgrounded _ _ hnode
  rw [Site.parent?_counters] at hparent
  exact hparent

end Tree

namespace Cluster

variable {ι : Type} [DecidableEq ι]

theorem grounded_run (time : DateTime) (roots : List (Name × String))
    (actions : List (Action ι)) :
    ∀ h, h ≤ (run time roots actions).history → h.now.Grounded := by
  apply run_induction (motive := fun k => ∀ h, h ≤ k.history → h.now.Grounded)
  · intro h hle
    cases hle with
    | refl => exact Tree.grounded_rooted time roots
  · intro k action _ _ hall h hle
    rcases le_or_eq_of_le_act hle with hold | rfl
    · exact hall h hold
    · by_cases hsame : (k.act action).history = k.history
      · rw [hsame]
        exact hall k.history (History.le_refl _)
      · cases action with
        | begin i c r => exact absurd history_begin hsame
        | proceed i now =>
            obtain ⟨_, c, _, _, _, hnext⟩ := history_act hsame
            rw [hnext]
            exact (hall k.history (History.le_refl _)).answer c

end Cluster

end DeltaLedger
