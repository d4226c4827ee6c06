import DeltaLedger.Proofs.FlatScans
import DeltaLedger.Proofs.GrownTrees
import DeltaLedger.Proofs.KeyOrder
import DeltaLedger.Proofs.PathGrammar

/-!
# Flat stores in the place of trees

A flat store represents a tree if it keeps the nodes of the tree at the texts of their paths, and
nothing else.  As every path is read back from its text, what lies below a path in the tree is what
the scans of the store find.  A store that represents a tree answers every call in the words of the
tree and represents the tree that the call leaves, as long as no version overflows; and none does
while every node is written fewer than 2^31 times.
-/

namespace DeltaLedger

/-! ## Beginnings of paths -/

namespace Path

variable {p q : Path}

theorem text_eq_iff : p.text = q.text ↔ p = q :=
  ⟨text_injective, fun hsame => hsame ▸ rfl⟩

theorem toList_childStart (p : Path) :
    (FlatStore.childStart p.text).toList = (p.names.flatMap fun s => '/' :: s.toList) ++ ['/'] := by
  by_cases hroot : p = root
  · subst hroot
    rfl
  · rw [FlatStore.childStart, if_neg (mt text_eq_slash_iff.mp hroot), String.toList_append,
      toList_text hroot]
    rfl

/-- What follows the text of a path and a slash spells the names that follow those of the path. -/
theorem exists_names_of_text {rest : List Char} (hq : q ≠ root)
    (hrest : (p.names.flatMap fun s => '/' :: s.toList) ++ '/' :: rest = q.text.toList) :
    ∃ names, q.names = p.names ++ names ∧ names.map String.toList = pieces rest := by
  obtain ⟨ds, hds, hpieces'⟩ := exists_pieces_text hq
  by_cases hroot : p = root
  · subst hroot
    rw [hds] at hrest
    cases hrest
    exact ⟨q.names, rfl, hpieces'.symm⟩
  · obtain ⟨cs, hcs, hpieces⟩ := exists_pieces_text hroot
    rw [← toList_text hroot, hcs, hds, List.cons_append, List.cons.injEq] at hrest
    rw [← hrest.2, pieces_append_slash, hpieces] at hpieces'
    obtain ⟨front, names, hsplit, hfront, hnames⟩ := List.map_eq_append_iff.mp hpieces'.symm
    rw [(List.map_inj_right fun _ _ => String.toList_injective).mp hfront] at hsplit
    exact ⟨names, hsplit, hnames⟩

/-- A path leads through another one if its text begins with the text of the other and a slash. -/
theorem startsWith_childStart_text (hq : q ≠ root) :
    FlatStore.startsWith (FlatStore.childStart p.text) q.text = p.isAbove q := by
  rw [Bool.eq_iff_iff, FlatStore.startsWith_iff_toList, toList_childStart, isAbove_iff]
  constructor
  · rintro ⟨rest, hrest⟩
    rw [List.append_assoc, List.singleton_append] at hrest
    obtain ⟨names, hnames, hpieces⟩ := exists_names_of_text hq hrest
    cases names with
    | nil => exact absurd hpieces.symm (pieces_ne_nil rest)
    | cons name names => exact ⟨name, names, hnames⟩
  · rintro ⟨name, names, hnames⟩
    rw [toList_text hq, hnames, List.flatMap_append, List.flatMap_cons, List.cons_append]
    exact (List.prefix_append_right_inj _).mpr ⟨_, rfl⟩

end Path

/-! ## Writes that a word can count -/

namespace Tree

variable {t t' : Tree} {p : Path} {change : Change} {version : Nat} {s : Step}
  {steps made : List Step}

/-- However many of the steps are taken, no node has then been written 2^31 times since it was
created. -/
def WritesFit (t : Tree) (made steps : List Step) : Prop :=
  ∀ done rest t', steps = done ++ rest → t.Commits done t' →
    ∀ path, Step.writesOf path (done.reverse ++ made) < 2_147_483_648

theorem Recorded.version_of_writing (hrecorded : t.Recorded made)
    (hchanged : t.Changed p change version t') (hwriting : change.isWriting = true) :
    version = Step.writesOf p.text (⟨p.text, change⟩ :: made) := by
  have hnext := hrecorded.changed hchanged
  cases hchanged with
  | created | deleted | checked => cases hwriting
  | @written data expected node hnode hmeets =>
      exact (hnext p ⟨data, node.version + 1⟩ (by rw [getElem?_put, if_pos rfl])).2

theorem WritesFit.version_le (hfit : t.WritesFit made (s :: steps)) (hrecorded : t.Recorded made)
    (hstep : t.step s = .ok (version, t')) (hwriting : s.change.isWriting = true) :
    version ≤ FlatStore.lastVersion := by
  obtain ⟨p, hparse, hchanged⟩ := step_eq_ok_iff.mp hstep
  have hversion := hrecorded.version_of_writing hchanged hwriting
  have hfew := hfit [s] steps t' rfl (commits_singleton.mpr ⟨version, hstep⟩) p.text
  rw [Path.text_of_parse hparse] at hversion hfew
  rw [List.reverse_singleton, List.singleton_append, ← hversion] at hfew
  exact Nat.le_of_lt_succ hfew

theorem WritesFit.tail (hfit : t.WritesFit made (s :: steps))
    (hstep : t.step s = .ok (version, t')) : t'.WritesFit (s :: made) steps := by
  intro done rest t'' hsteps hcommits path
  have hfew := hfit (s :: done) rest t'' (by rw [hsteps, List.cons_append])
    ⟨version, t', hstep, hcommits⟩ path
  rwa [List.reverse_cons, List.append_assoc, List.singleton_append] at hfew

end Tree

namespace FlatStore

variable {f : FlatStore} {t t' : Tree} {p : Path} {node : Node} {path name : String}
  {change : Change} {conflict : Conflict} {version : Nat} {s : Step} {steps made : List Step}

/-- Only a write has no answer, and only one of a node at the last version. -/
theorem change_eq_none_iff : f.change path change = none ↔
    ∃ data expected node, change = .write data expected ∧ f.nodes[path]? = some node ∧
      Tree.meets expected node.version = true ∧ lastVersion ≤ node.version := by
  cases change with
  | write data expected =>
      cases hnode : f.nodes[path]? with
      | none => simp [FlatStore.change, hnode]
      | some node =>
          cases hmeets : Tree.meets expected node.version with
          | false => simp [FlatStore.change, hnode, hmeets]
          | true => simp [FlatStore.change, nextVersion?, hnode, hmeets]
  | create | delete | check =>
      simp only [FlatStore.change, reduceCtorEq, false_and, exists_false, iff_false]
      repeat' split
      all_goals exact nofun

/-- The store keeps the nodes of the tree at the texts of their paths, and nothing else. -/
structure Represents (f : FlatStore) (t : Tree) : Prop where
  node : ∀ p : Path, f.nodes[p.text]? = t.nodes[p]?
  key : ∀ key node, f.nodes[key]? = some node → ∃ p : Path, p.text = key

namespace Represents

/-! ## Nodes -/

theorem empty : FlatStore.empty.Represents .empty := by
  constructor
  case node => simp [FlatStore.empty, Tree.empty]
  case key => simp [FlatStore.empty]

theorem put (hrep : f.Represents t) (p : Path) (node : Node) :
    (f.put p.text node).Represents (t.put p node) := by
  constructor
  case node =>
    intro q
    rw [getElem?_put, Tree.getElem?_put, hrep.node]
    simp only [Path.text_eq_iff]
  case key =>
    intro key found hfound
    rw [getElem?_put] at hfound
    split at hfound
    next hsame => exact ⟨p, hsame⟩
    next => exact hrep.key key found hfound

theorem drop (hrep : f.Represents t) (p : Path) : (f.drop p.text).Represents (t.drop p) := by
  constructor
  case node =>
    intro q
    rw [getElem?_drop, Tree.getElem?_drop, hrep.node]
    simp only [Path.text_eq_iff]
  case key =>
    intro key found hfound
    rw [getElem?_drop] at hfound
    split at hfound
    next => cases hfound
    next => exact hrep.key key found hfound

theorem exists_path {key : String} (hrep : f.Represents t) (hnode : f.nodes[key]? = some node) :
    ∃ p : Path, key = p.text ∧ t.nodes[p]? = some node := by
  obtain ⟨p, rfl⟩ := hrep.key key node hnode
  exact ⟨p, rfl, (hrep.node p).symm.trans hnode⟩

theorem find?_text (hrep : f.Represents t) (p : Path) : f.find? p.text = t.find? p := by
  rw [FlatStore.find?, Tree.find?, hrep.node]
  simp only [Path.text_eq_slash_iff]

theorem has_text (hrep : f.Represents t) (p : Path) : f.has p.text = t.has p := by
  rw [Bool.eq_iff_iff, Tree.has_eq_true_iff, ← hrep.node, FlatStore.has, Bool.or_eq_true,
    beq_iff_eq, Path.text_eq_slash_iff, Std.ExtTreeMap.contains_eq_isSome_getElem?,
    Option.isSome_iff_exists]

theorem any_parentText? (hrep : f.Represents t) (p : Path) :
    (Path.parentText? p.text).any f.has = p.parent?.any t.has := by
  rw [Path.parentText?_text]
  cases p.parent? with
  | none => rfl
  | some q => exact hrep.has_text q

/-! ## What lies below a node -/

theorem hasChildren_text (hrep : f.Represents t) (hgrounded : t.Grounded) (p : Path) :
    f.hasChildren p.text = t.hasBelow p := by
  rw [Bool.eq_iff_iff, hasChildren_eq_true_iff, Tree.hasBelow_eq_true_iff]
  constructor
  · rintro ⟨key, node, hkey, hstart⟩
    obtain ⟨q, rfl, hnode⟩ := hrep.exists_path hkey
    rw [Path.startsWith_childStart_text (hgrounded.ne_root hnode)] at hstart
    exact ⟨q, node, hnode, hstart⟩
  · rintro ⟨q, node, hnode, habove⟩
    refine ⟨q.text, node, (hrep.node q).trans hnode, ?_⟩
    rwa [Path.startsWith_childStart_text (hgrounded.ne_root hnode)]

theorem mem_childNames_text_iff (hrep : f.Represents t) (hgrounded : t.Grounded) :
    name ∈ f.childNames p.text ↔ name ∈ t.childNames p := by
  rw [mem_childNames_iff, Tree.mem_childNames_iff]
  constructor
  · rintro ⟨hslash, node, hkey⟩
    obtain ⟨q, hjoin, hnode⟩ := hrep.exists_path hkey
    -- The root is not stored, so the joined text is not the one of the root.
    have hnotRoot : Path.join p.text name ≠ "/" := by
      rw [hjoin]
      exact mt Path.text_eq_slash_iff.mp (hgrounded.ne_root hnode)
    have hparse : Path.parse (Path.join p.text name) = .ok q := by rw [hjoin, Path.parse_text]
    obtain ⟨hlegal, rfl⟩ := (Path.parse_join_eq_ok_iff hnotRoot hslash).mp hparse
    exact ⟨hlegal, Tree.has_of_getElem? hnode⟩
  · rintro ⟨hlegal, hhas⟩
    obtain hroot | ⟨node, hnode⟩ := Tree.has_eq_true_iff.mp hhas
    · exact absurd hroot (p.child_ne_root hlegal)
    · exact ⟨hlegal.2.1, node, by rw [← p.text_child hlegal, hrep.node, hnode]⟩

/-- The scan for children and the tree list the same names in the same order. -/
theorem childNames_text (hrep : f.Represents t) (hgrounded : t.Grounded) (p : Path) :
    f.childNames p.text = t.childNames p :=
  (f.pairwise_childNames p.text).eq_of_mem_iff (t.pairwise_childNames p)
    fun _ => hrep.mem_childNames_text_iff hgrounded

/-! ## Changes -/

theorem change_of_changed (hrep : f.Represents t) (hgrounded : t.Grounded)
    (hchanged : t.Changed p change version t')
    (hfits : change.isWriting = true → version ≤ lastVersion) :
    ∃ f', f.change p.text change = some (.ok (version, f')) ∧ f'.Represents t' := by
  cases hchanged with
  | @created data hfree hparent =>
      refine ⟨_, ?_, hrep.put p ⟨data, 0⟩⟩
      simp [FlatStore.change, hrep.has_text, hfree, hrep.any_parentText?, hparent]
  | @written data expected node hnode hmeets =>
      have hnext : nextVersion? node.version = some (node.version + 1) := if_pos (hfits rfl)
      refine ⟨_, ?_, hrep.put p ⟨data, node.version + 1⟩⟩
      simp [FlatStore.change, hrep.node, hnode, hmeets, hnext]
  | deleted hnode hmeets hbelow =>
      refine ⟨_, ?_, hrep.drop p⟩
      simp [FlatStore.change, hrep.node, hnode, hmeets, hrep.hasChildren_text hgrounded, hbelow]
  | checked hnode =>
      refine ⟨f, ?_, hrep⟩
      simp [FlatStore.change, hrep.find?_text, hnode]

theorem change_of_conflicted (hrep : f.Represents t) (hgrounded : t.Grounded)
    (hconflicted : t.Conflicted p change conflict) :
    f.change p.text change = some (.error conflict) := by
  cases hconflicted with
  | taken htaken => simp [FlatStore.change, hrep.has_text, htaken]
  | parentless hfree hparent =>
      simp [FlatStore.change, hrep.has_text, hfree, hrep.any_parentText?, hparent]
  | unwritable hnode => simp [FlatStore.change, hrep.node, hnode]
  | overwritten hnode hmeets => simp [FlatStore.change, hrep.node, hnode, hmeets]
  | missing hnode => simp [FlatStore.change, hrep.node, hnode]
  | outdated hnode hmeets => simp [FlatStore.change, hrep.node, hnode, hmeets]
  | inhabited hnode hmeets hbelow =>
      simp [FlatStore.change, hrep.node, hnode, hmeets, hrep.hasChildren_text hgrounded, hbelow]
  | unseen hnode => simp [FlatStore.change, hrep.find?_text, hnode]
  | different hnode hne => simp [FlatStore.change, hrep.find?_text, hnode, hne]

theorem step_of_ok (hrep : f.Represents t) (hgrounded : t.Grounded)
    (hstep : t.step s = .ok (version, t'))
    (hfits : s.change.isWriting = true → version ≤ lastVersion) :
    ∃ f', f.step s = some (.ok (version, f')) ∧ f'.Represents t' := by
  obtain ⟨p, hparse, hchanged⟩ := Tree.step_eq_ok_iff.mp hstep
  obtain ⟨f', hchange, hrep'⟩ := hrep.change_of_changed hgrounded hchanged hfits
  rw [Path.text_of_parse hparse] at hchange
  exact ⟨f', by simp [FlatStore.step, hparse, hchange], hrep'⟩

theorem step_of_error {refusal : Refusal} (hrep : f.Represents t) (hgrounded : t.Grounded)
    (hstep : t.step s = .error refusal) : f.step s = some (.error refusal) := by
  cases refusal with
  | badPath fault => simp [FlatStore.step, Tree.step_eq_badPath_iff.mp hstep]
  | conflict conflict =>
      obtain ⟨p, hparse, hconflict⟩ := Tree.step_eq_conflict_iff.mp hstep
      have hchange := hrep.change_of_conflicted hgrounded (Tree.change_eq_error_iff.mp hconflict)
      rw [Path.text_of_parse hparse] at hchange
      simp [FlatStore.step, hparse, hchange]

/-- Steps lead to a store that represents the tree they lead to, or stop for the same reason. -/
inductive Mirrors : Except Stop FlatStore → Except Stop Tree → Prop where
  | reached {f : FlatStore} {t : Tree} (hrep : f.Represents t) : Mirrors (.ok f) (.ok t)
  | stopped (stop : Stop) : Mirrors (.error stop) (.error stop)

theorem stepsFrom (hrep : f.Represents t) (hgrounded : t.Grounded) (hrecorded : t.Recorded made)
    (hfit : t.WritesFit made steps) (index : Nat) :
    ∃ taken, f.stepsFrom index steps = some taken ∧ Mirrors taken (t.stepsFrom index steps) := by
  induction steps generalizing index f t made with
  | nil => exact ⟨.ok f, rfl, .reached hrep⟩
  | cons s steps ih =>
      cases hstep : t.step s with
      | error refusal =>
          rw [FlatStore.stepsFrom, Tree.stepsFrom, hrep.step_of_error hgrounded hstep, hstep]
          exact ⟨_, rfl, .stopped _⟩
      | ok result =>
          obtain ⟨version, next⟩ := result
          obtain ⟨f', hflat, hrep'⟩ :=
            hrep.step_of_ok hgrounded hstep (hfit.version_le hrecorded hstep)
          rw [FlatStore.stepsFrom, Tree.stepsFrom, hflat, hstep]
          exact ih hrep' (hgrounded.step hstep) (hrecorded.step hstep) (hfit.tail hstep) (index + 1)

theorem transact (hrep : f.Represents t) (hgrounded : t.Grounded) (hrecorded : t.Recorded made)
    (hfit : t.WritesFit made steps) :
    ∃ f', f.transact steps = some ((t.transact steps).1, f') ∧
      f'.Represents (t.transact steps).2 := by
  obtain ⟨taken, hflat, hmirrors⟩ := hrep.stepsFrom hgrounded hrecorded hfit 0
  rw [FlatStore.transact, Tree.transact, hflat]
  generalize t.stepsFrom 0 steps = whole at hmirrors ⊢
  cases hmirrors with
  | reached hrep' => exact ⟨_, rfl, hrep'⟩
  | stopped stop =>
      obtain ⟨index, path, refusal⟩ := stop
      cases refusal <;> exact ⟨f, rfl, hrep⟩

theorem afterConflict_eq (hrep : f.Represents t) (hparse : Path.parse s.path = .ok p)
    (conflict : Conflict) : f.afterConflict s conflict = t.afterConflict s conflict := by
  have hversion : f.version? s.path = t.version? s.path := by
    rw [FlatStore.version?, Tree.version?, hparse, ← Path.text_of_parse hparse, hrep.find?_text]
  cases conflict with
  | noNode =>
      cases hchange : s.change <;>
        simp [FlatStore.afterConflict, Tree.afterConflict, hchange, hversion]
  | _ => simp [FlatStore.afterConflict, Tree.afterConflict, hversion]

theorem alter (hrep : f.Represents t) (hgrounded : t.Grounded) (hrecorded : t.Recorded made)
    (hfit : t.WritesFit made [s]) :
    ∃ f', f.alter s = some ((t.alter s).1, f') ∧ f'.Represents (t.alter s).2 := by
  cases hstep : t.step s with
  | error refusal =>
      rw [FlatStore.alter, Tree.alter, hrep.step_of_error hgrounded hstep, hstep]
      cases refusal with
      | badPath fault => exact ⟨f, rfl, hrep⟩
      | conflict conflict =>
          obtain ⟨p, hparse, _⟩ := Tree.step_eq_conflict_iff.mp hstep
          have hafter := hrep.afterConflict_eq hparse conflict
          exact ⟨f, congrArg (fun outcome => some (outcome, f)) hafter, hrep⟩
  | ok result =>
      obtain ⟨version, t'⟩ := result
      obtain ⟨f', hflat, hrep'⟩ := hrep.step_of_ok hgrounded hstep (hfit.version_le hrecorded hstep)
      rw [FlatStore.alter, Tree.alter, hflat, hstep]
      exact ⟨f', rfl, hrep'⟩

/-! ## Calls -/

theorem atPath_congr {α : Type} {g h : Path → Except StoreError α}
    (hsame : ∀ p : Path, path = p.text → g p = h p) : Tree.atPath path g = Tree.atPath path h := by
  unfold Tree.atPath
  cases hparse : Path.parse path with
  | error fault => rfl
  | ok p => exact hsame p (Path.text_of_parse hparse).symm

theorem stat_eq (hrep : f.Represents t) (path : String) :
    f.stat path = (t.answer (.stat path)).1 := by
  apply atPath_congr
  rintro p rfl
  rw [hrep.find?_text]

theorem read_eq (hrep : f.Represents t) (path : String) :
    f.read path = (t.answer (.read path)).1 := by
  apply atPath_congr
  rintro p rfl
  rw [hrep.find?_text]

theorem children_eq (hrep : f.Represents t) (hgrounded : t.Grounded) (path : String) :
    f.children path = (t.answer (.children path)).1 := by
  apply atPath_congr
  rintro p rfl
  rw [hrep.has_text, hrep.childNames_text hgrounded]

/-- A store answers a call as the tree does that it represents, and goes on to represent it. -/
theorem answer (hrep : f.Represents t) (hgrounded : t.Grounded) (hrecorded : t.Recorded made)
    (c : Call) (hfit : t.WritesFit made c.steps) :
    ∃ f', f.answer c = some ((t.answer c).1, f') ∧ f'.Represents (t.answer c).2 := by
  cases c with
  | stat path => exact ⟨f, by rw [FlatStore.answer, hrep.stat_eq], hrep⟩
  | read path => exact ⟨f, by rw [FlatStore.answer, hrep.read_eq], hrep⟩
  | children path => exact ⟨f, by rw [FlatStore.answer, hrep.children_eq hgrounded], hrep⟩
  | create | write | delete => exact hrep.alter hgrounded hrecorded hfit
  | transact steps => exact hrep.transact hgrounded hrecorded hfit

end Represents
end FlatStore
end DeltaLedger
