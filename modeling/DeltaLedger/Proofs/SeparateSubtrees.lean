import DeltaLedger.Proofs.ConfinedRequests
import DeltaLedger.Proofs.KeyOrder
import DeltaLedger.Proofs.NodeChanges

/-!
# Subtrees of datamarts

What a datamart keeps lies in its subtree: at the node of its counters and below.  Whatever
a store holds, a call within a site changes no node outside of the subtree, and what it is
told depends on the root of the datamart and on the subtree only.  A scan for children, and
the check that nothing lies below a node that is deleted, go through the whole store, but
find nothing of another datamart.
-/

namespace DeltaLedger

namespace Site

/-- The subtree of a datamart: the node of the counters and all below. -/
def Region (s : Site) (p : Path) : Prop :=
  (s.path .counters).names <+: p.names

/-- Two trees agree on the root of a datamart and its subtree, contents and versions. -/
structure Agree (s : Site) (t t' : Tree) : Prop where
  root : t.nodes[s.root]? = t'.nodes[s.root]?
  region : ∀ p, s.Region p → t.nodes[p]? = t'.nodes[p]?

theorem region_path (s : Site) (place : Place) : s.Region (s.path place) := by
  refine (List.prefix_append_right_inj _).mpr ?_
  cases place <;> simp [Place.names]

theorem Region.owns {s : Site} {p : Path} (hregion : s.Region p) : s.Owns p := by
  obtain ⟨rest, hrest⟩ := hregion
  refine ⟨Place.counters.names ++ rest, by simp [Place.names], ?_⟩
  rw [← hrest, ← List.append_assoc]
  rfl

theorem Region.of_isAbove {s : Site} {p q : Path} (hregion : s.Region p)
    (habove : p.isAbove q = true) : s.Region q := by
  simp only [Path.isAbove, Bool.and_eq_true, List.isPrefixOf_iff_prefix] at habove
  exact hregion.trans habove.1

theorem Region.of_childName? {s : Site} {p q : Path} {name : String} (hregion : s.Region p)
    (hname : p.childName? q = some name) : s.Region q := by
  refine hregion.trans ?_
  rw [names_of_childName? hname]
  exact List.prefix_append _ _

/-- Right above a place there is the root of the datamart, or another place. -/
theorem exists_parent (s : Site) (place : Place) :
    ∃ p, (s.path place).parent? = some p ∧ (p = s.root ∨ s.Region p) := by
  cases place with
  | counters => exact ⟨s.root, s.parent?_counters, .inl rfl⟩
  | hot => exact ⟨s.path .counters, s.parent?_hot, .inr (s.region_path _)⟩
  | okDeltas => exact ⟨s.path .counters, s.parent?_okDeltas, .inr (s.region_path _)⟩
  | ok n => exact ⟨s.path .okDeltas, s.parent?_ok n, .inr (s.region_path _)⟩
  | writes => exact ⟨s.path .counters, s.parent?_writes, .inr (s.region_path _)⟩
  | write n => exact ⟨s.path .writes, s.parent?_write n, .inr (s.region_path _)⟩

theorem not_region_root {s s' : Site} : ¬s'.Region s.root :=
  fun hregion => not_owns_root hregion.owns

namespace Agree

variable {s : Site} {t t' : Tree} {p : Path} {node : Node}

theorem refl (s : Site) (t : Tree) : s.Agree t t :=
  ⟨rfl, fun _ _ => rfl⟩

theorem symm (hagree : s.Agree t t') : s.Agree t' t :=
  ⟨hagree.root.symm, fun p hregion => (hagree.region p hregion).symm⟩

theorem trans {t'' : Tree} (hagree : s.Agree t t') (hagree' : s.Agree t' t'') : s.Agree t t'' :=
  ⟨hagree.root.trans hagree'.root,
    fun p hregion => (hagree.region p hregion).trans (hagree'.region p hregion)⟩

theorem has (hagree : s.Agree t t') (hp : p = s.root ∨ s.Region p) : t.has p = t'.has p := by
  rcases hp with rfl | hregion
  · exact Tree.has_congr hagree.root
  · exact Tree.has_congr (hagree.region p hregion)

theorem put (hagree : s.Agree t t') : s.Agree (t.put p node) (t'.put p node) := by
  constructor
  · rw [Tree.getElem?_put, Tree.getElem?_put, hagree.root]
  · intro q hregion
    rw [Tree.getElem?_put, Tree.getElem?_put, hagree.region q hregion]

theorem drop (hagree : s.Agree t t') : s.Agree (t.drop p) (t'.drop p) := by
  constructor
  · rw [Tree.getElem?_drop, Tree.getElem?_drop, hagree.root]
  · intro q hregion
    rw [Tree.getElem?_drop, Tree.getElem?_drop, hagree.region q hregion]

/-- What lies below a node of the subtree lies in the subtree. -/
theorem hasBelow (hagree : s.Agree t t') (hregion : s.Region p) : t.hasBelow p = t'.hasBelow p := by
  rw [Bool.eq_iff_iff, Tree.hasBelow_eq_true_iff, Tree.hasBelow_eq_true_iff]
  constructor
  · rintro ⟨q, node, hnode, habove⟩
    exact ⟨q, node, hagree.region q (hregion.of_isAbove habove) ▸ hnode, habove⟩
  · rintro ⟨q, node, hnode, habove⟩
    exact ⟨q, node, hagree.region q (hregion.of_isAbove habove) ▸ hnode, habove⟩

theorem childNames (hagree : s.Agree t t') (hregion : s.Region p) :
    t.childNames p = t'.childNames p := by
  apply (t.pairwise_childNames p).eq_of_mem_iff (t'.pairwise_childNames p)
  intro name
  rw [Tree.mem_childNames, Tree.mem_childNames]
  constructor
  · rintro ⟨q, node, hnode, hname⟩
    exact ⟨q, node, hagree.region q (hregion.of_childName? hname) ▸ hnode, hname⟩
  · rintro ⟨q, node, hnode, hname⟩
    exact ⟨q, node, hagree.region q (hregion.of_childName? hname) ▸ hnode, hname⟩

theorem find? (hagree : s.Agree t t') (hp : p = s.root ∨ s.Region p) : t.find? p = t'.find? p := by
  unfold Tree.find?
  rcases hp with rfl | hregion
  · rw [hagree.root]
  · rw [hagree.region p hregion]

/-! ## Calls -/

/-- A change of a place is made in both of two trees that agree, or in none for the same
reason. -/
theorem change (hagree : s.Agree t t') (place : Place) (c : Change) :
    (∃ e, t.change (s.path place) c = .error e ∧ t'.change (s.path place) c = .error e) ∨
      ∃ v u u', t.change (s.path place) c = .ok (v, u) ∧
        t'.change (s.path place) c = .ok (v, u') ∧ s.Agree u u' := by
  have hregion := s.region_path place
  cases c with
  | create data =>
      obtain ⟨parent, hparent, hplace⟩ := s.exists_parent place
      simp only [Tree.change, hparent, Option.any_some, hagree.has (.inr hregion),
        hagree.has hplace]
      split
      next => exact .inl ⟨_, rfl, rfl⟩
      next =>
        split
        next => exact .inr ⟨_, _, _, rfl, rfl, hagree.put⟩
        next => exact .inl ⟨_, rfl, rfl⟩
  | write data expected =>
      simp only [Tree.change, hagree.region _ hregion]
      split
      next => exact .inl ⟨_, rfl, rfl⟩
      next =>
        split
        next => exact .inr ⟨_, _, _, rfl, rfl, hagree.put⟩
        next => exact .inl ⟨_, rfl, rfl⟩
  | delete expected =>
      simp only [Tree.change, hagree.region _ hregion, hagree.hasBelow hregion]
      split
      next => exact .inl ⟨_, rfl, rfl⟩
      next =>
        split
        next =>
          split
          next => exact .inl ⟨_, rfl, rfl⟩
          next => exact .inr ⟨_, _, _, rfl, rfl, hagree.drop⟩
        next => exact .inl ⟨_, rfl, rfl⟩
  | check expected =>
      simp only [Tree.change, hagree.find? (.inr hregion)]
      split
      next => exact .inl ⟨_, rfl, rfl⟩
      next =>
        split
        next => exact .inr ⟨_, _, _, rfl, rfl, hagree⟩
        next => exact .inl ⟨_, rfl, rfl⟩

theorem stepsFrom {steps : List Step}
    (hsteps : ∀ step ∈ steps, ∃ place, step.path = (s.path place).text) (hagree : s.Agree t t')
    (index : Nat) :
    (∃ stop, t.stepsFrom index steps = .error stop ∧ t'.stepsFrom index steps = .error stop) ∨
      ∃ u u', t.stepsFrom index steps = .ok u ∧ t'.stepsFrom index steps = .ok u' ∧
        s.Agree u u' := by
  induction steps generalizing t t' index with
  | nil => exact .inr ⟨t, t', rfl, rfl, hagree⟩
  | cons step steps ih =>
      obtain ⟨⟨place, hplace⟩, hrest⟩ := List.forall_mem_cons.mp hsteps
      simp only [Tree.stepsFrom, Tree.step, hplace, Path.parse_text]
      rcases hagree.change place step.change with ⟨e, he, he'⟩ | ⟨v, u, u', hu, hu', hnext⟩
      · rw [he, he']
        exact .inl ⟨_, rfl, rfl⟩
      · rw [hu, hu']
        exact ih hrest hnext _

/-- A call within a site has the same reply in two trees that agree, and leaves them in
agreement. -/
theorem answer {c : Call} (hagree : s.Agree t t') (hwithin : c.Within s) :
    (t.answer c).1 = (t'.answer c).1 ∧ s.Agree (t.answer c).2 (t'.answer c).2 := by
  cases hwithin with
  | stat => simp only [Tree.answer_stat, hagree.find? (.inl rfl), hagree, and_self]
  | read place =>
      simp only [Tree.answer_read, hagree.find? (.inr (s.region_path place)), hagree, and_self]
  | children place =>
      have hregion := s.region_path place
      simp only [Tree.answer_children, hagree.has (.inr hregion), hagree.childNames hregion,
        hagree, and_self]
  | transact hsteps =>
      simp only [Tree.answer, Tree.transact]
      rcases hagree.stepsFrom hsteps 0 with ⟨⟨index, path, refusal⟩, hstop, hstop'⟩ |
        ⟨u, u', hu, hu', hnext⟩
      · rw [hstop, hstop']
        cases refusal <;> exact ⟨rfl, hagree⟩
      · rw [hu, hu']
        exact ⟨rfl, hnext⟩

end Agree

end Site

/-! ## The rest of the store -/

namespace Tree

variable {t t' : Tree} {q : Path}

theorem getElem?_of_stepsFrom {s : Site} {steps : List Step} {index : Nat}
    (hsteps : ∀ step ∈ steps, ∃ place, step.path = (s.path place).text)
    (hcommits : t.stepsFrom index steps = .ok t') (hq : ¬s.Region q) :
    t'.nodes[q]? = t.nodes[q]? := by
  induction steps generalizing t index with
  | nil =>
      cases hcommits
      rfl
  | cons step steps ih =>
      obtain ⟨⟨place, hplace⟩, hrest⟩ := List.forall_mem_cons.mp hsteps
      have hne : s.path place ≠ q := by
        rintro rfl
        exact hq (s.region_path place)
      simp only [stepsFrom, Tree.step, hplace, Path.parse_text] at hcommits
      cases hchange : t.change (s.path place) step.change with
      | error conflict =>
          rw [hchange] at hcommits
          cases hcommits
      | ok done =>
          rw [hchange] at hcommits
          rw [ih hrest hcommits, (change_eq_ok_iff.mp hchange).getElem?_of_ne hne]

/-- A call within a site changes no node outside of the subtree. -/
theorem getElem?_answer {s : Site} {c : Call} (t : Tree) (hwithin : c.Within s)
    (hq : ¬s.Region q) : (t.answer c).2.nodes[q]? = t.nodes[q]? := by
  cases hwithin with
  | stat => rw [answer_stat]
  | read place => rw [answer_read]
  | children place => rw [answer_children]
  | @transact steps hsteps =>
      simp only [answer, transact]
      cases hcommits : t.stepsFrom 0 steps with
      | ok t' => exact getElem?_of_stepsFrom hsteps hcommits hq
      | error stop =>
          obtain ⟨index, path, refusal⟩ := stop
          cases refusal <;> rfl

/-- A call within one site leaves every other site alone. -/
theorem agree_answer {s s' : Site} {c : Call} (t : Tree) (hwithin : c.Within s')
    (hne : s' ≠ s) : s.Agree (t.answer c).2 t := by
  constructor
  · exact t.getElem?_answer hwithin Site.not_region_root
  · intro p hregion
    apply t.getElem?_answer hwithin
    intro hregion'
    exact hne (hregion'.owns.unique hregion.owns)

end Tree

end DeltaLedger
