import DeltaLedger.Proofs.ByteOrder
import DeltaLedger.Proofs.FlatRefinement

/-!
# Flat stores that calls have made

Whatever calls are made of a flat store, one after another, it answers them all while every node is
written fewer than 2^31 times, and it keeps in shape.  Its keys are paths, and the parent of a key
is stored or is the root.  The scan for children lists just the nodes right below.  A node with
children is kept from being deleted by a look at one key, which sees one exactly if the scan lists
any, although texts such as those of siblings stand around the keys below a node.
-/

namespace DeltaLedger
namespace FlatStore

variable {f : FlatStore} {t : Tree} {calls : List Call} {made : List Step} {path : String}

/-- The store that calls make of the empty one, and the steps they have taken, unless a version
overflows.  The newest come first. -/
def grown : List Call → Option (FlatStore × List Step)
  | [] => some (.empty, [])
  | c :: calls =>
    match grown calls with
    | none => none
    | some (f, made) =>
      match f.answer c with
      | none => none
      | some (reply, f') => some (f', (c.taken reply).reverse ++ made)

/-! ## Few writes -/

/-- At no moment, be it between the steps of a call, has a node been written 2^31 times since it was
created. -/
def FewWrites : List Call → Prop
  | [] => True
  | c :: calls =>
    FewWrites calls ∧ (Tree.grown calls).1.WritesFit (Tree.grown calls).2 c.steps

section Counts

theorem taken_sublist (c : Call) (reply : c.Reply) : (c.taken reply).Sublist c.steps := by
  have hstep : ∀ (s : Step) (outcome : Except StoreError WriteOutcome),
      (s.taken outcome).Sublist [s] := by
    intro s outcome
    unfold Step.taken
    split
    next => exact List.Sublist.refl _
    next => exact List.nil_sublist _
  cases c with
  | stat | read | children => exact List.nil_sublist _
  | create | write | delete => exact hstep _ reply
  | transact steps =>
      cases reply with
      | error => exact List.nil_sublist _
      | ok outcome =>
          cases outcome with
          | committed => exact List.Sublist.refl _
          | aborted => exact List.nil_sublist _

theorem writesOf_le_countP (path : String) (made : List Step) :
    Step.writesOf path made ≤ made.countP fun s => s.writes path :=
  (List.takeWhile_sublist _).countP_le

theorem countP_grown_le (path : String) (calls : List Call) :
    ((Tree.grown calls).2.countP fun s => s.writes path) ≤
      (calls.flatMap Call.steps).countP fun s => s.writes path := by
  induction calls with
  | nil => exact Nat.le_refl 0
  | cons c calls ih =>
      have htaken := (taken_sublist c ((Tree.grown calls).1.answer c).1).countP_le
        (p := fun s => s.writes path)
      rw [Tree.grown, List.countP_append, List.countP_reverse, List.flatMap_cons,
        List.countP_append]
      exact Nat.add_le_add htaken ih

/-- If fewer than 2^31 writes are asked of every path, then few are made. -/
theorem fewWrites_of_countP
    (hfew : ∀ path, ((calls.flatMap Call.steps).countP fun s => s.writes path) < 2_147_483_648) :
    FewWrites calls := by
  induction calls with
  | nil => trivial
  | cons c calls ih =>
      have hsplit : ∀ path, (c.steps.countP fun s => s.writes path) +
          ((calls.flatMap Call.steps).countP fun s => s.writes path) < 2_147_483_648 := by
        intro path
        rw [← List.countP_append, ← List.flatMap_cons]
        exact hfew path
      refine ⟨ih fun path => Nat.lt_of_le_of_lt (Nat.le_add_left _ _) (hsplit path), ?_⟩
      intro done rest t' hsteps _ path
      have hdone : (done.countP fun s => s.writes path) ≤
          c.steps.countP fun s => s.writes path := by
        rw [hsteps]
        exact (List.sublist_append_left _ _).countP_le
      have hbefore := countP_grown_le path calls
      have hwrites := writesOf_le_countP path (done.reverse ++ (Tree.grown calls).2)
      rw [List.countP_append, List.countP_reverse] at hwrites
      have hbound := hsplit path
      omega

end Counts

/-- While writes are few, no version overflows, and the store represents the tree that the same
calls make. -/
theorem grown_represents (hfew : FewWrites calls) :
    ∃ f, grown calls = some (f, (Tree.grown calls).2) ∧ f.Represents (Tree.grown calls).1 := by
  induction calls with
  | nil => exact ⟨.empty, rfl, .empty⟩
  | cons c calls ih =>
      obtain ⟨f, hgrown, hrep⟩ := ih hfew.1
      obtain ⟨f', hanswer, hrep'⟩ :=
        hrep.answer (Tree.grounded_grown calls) (Tree.recorded_grown calls) c hfew.2
      refine ⟨f', ?_, hrep'⟩
      rw [grown, hgrown]
      simp only [hanswer]
      rfl

/-! ## What clients see -/

/-- A look finds a node at the path. -/
def Found (f : FlatStore) (path : String) : Prop :=
  ∃ stat, f.stat path = .ok (some stat)

/-- A store is in shape, and the record of the steps taken accounts for its versions. -/
structure Intact (f : FlatStore) (made : List Step) : Prop where
  key : ∀ key node, f.nodes[key]? = some node → key ≠ "/" ∧ ∃ p, Path.parse key = .ok p
  parent : ∀ key node, f.nodes[key]? = some node →
    ∃ above, Path.parentText? key = some above ∧ f.has above = true
  version : ∀ key node, f.nodes[key]? = some node →
    (∃ s ∈ made, s.creates key = true) ∧ node.version = Step.writesOf key made
  missing_iff : ∀ path p, Path.parse path = .ok p →
    ((∃ message, f.children path = .error (.notFound message)) ↔ ¬f.Found path)
  children : ∀ path, f.Found path → ∃ names, f.children path = .ok names ∧
    (names.map Json.utf8).Pairwise (· < ·) ∧
      ∀ name, name ∈ names ↔ name ≠ "" ∧ '/' ∉ name.toList ∧ f.Found (Path.join path name)
  removal : ∀ key node expected, f.nodes[key]? = some node →
    expected = none ∨ expected = some (node.version : Int) →
      (f.transact [⟨key, .delete expected⟩] = some (.ok (.aborted 0 key .notEmpty), f) ↔
        ∃ name names, f.children key = .ok (name :: names))

section Answers

theorem Represents.found_iff (hrep : f.Represents t) : f.Found path ↔ t.Found path := by
  rw [Found, Tree.Found, hrep.stat_eq]

theorem Represents.children_of_has (hrep : f.Represents t) (hgrounded : t.Grounded) {p : Path}
    (hhas : t.has p = true) : f.children p.text = .ok (t.childNames p) := by
  rw [hrep.children_eq hgrounded, Tree.children_of_found (Tree.found_text_iff.mpr hhas)]

theorem pairwise_bytes_childNames (f : FlatStore) (path : String) :
    ((f.childNames path).map Json.utf8).Pairwise (· < ·) :=
  List.pairwise_map.mpr ((f.pairwise_childNames path).imp Json.utf8_lt_utf8)

/-- A delete that meets the version of a node looks at one key, and fails if it is below the
node. -/
theorem transact_delete_eq_iff {key : String} {node : Node} {expected : Option Int} {p : Path}
    (hparse : Path.parse key = .ok p) (hnode : f.nodes[key]? = some node)
    (hmeets : Tree.meets expected node.version = true) :
    f.transact [⟨key, .delete expected⟩] = some (.ok (.aborted 0 key .notEmpty), f) ↔
      f.hasChildren key = true := by
  cases hbelow : f.hasChildren key <;>
    simp [transact, stepsFrom, step, hparse, change, hnode, hmeets, hbelow]

theorem Represents.intact (hrep : f.Represents t) (hgrounded : t.Grounded)
    (hrecorded : t.Recorded made) : f.Intact made := by
  constructor
  case key =>
    intro key node hkey
    obtain ⟨p, rfl, hnode⟩ := hrep.exists_path hkey
    exact ⟨mt Path.text_eq_slash_iff.mp (hgrounded.ne_root hnode), p, Path.parse_text p⟩
  case parent =>
    intro key node hkey
    obtain ⟨p, rfl, hnode⟩ := hrep.exists_path hkey
    have habove := hgrounded p node hnode
    rw [← hrep.any_parentText?] at habove
    exact (Option.any_eq_true _ _).mp habove
  case version =>
    intro key node hkey
    obtain ⟨p, rfl, hnode⟩ := hrep.exists_path hkey
    exact hrecorded p node hnode
  case missing_iff =>
    intro path p hparse
    obtain rfl := Path.text_of_parse hparse
    rw [hrep.children_eq hgrounded, hrep.found_iff]
    exact Tree.missing_iff
  case children =>
    intro path hfound
    obtain ⟨p, hparse, hhas⟩ := Tree.found_iff.mp (hrep.found_iff.mp hfound)
    obtain rfl := Path.text_of_parse hparse
    refine ⟨_, hrep.children_of_has hgrounded hhas, ?_, ?_⟩
    · rw [← hrep.childNames_text hgrounded]
      exact f.pairwise_bytes_childNames p.text
    · intro name
      rw [Tree.mem_childNames_iff_found, hrep.found_iff]
  case removal =>
    intro key node expected hkey hexpected
    obtain ⟨p, rfl, hnode⟩ := hrep.exists_path hkey
    have hmeets : Tree.meets expected node.version = true := by
      rcases hexpected with rfl | rfl <;> simp [Tree.meets]
    rw [transact_delete_eq_iff (Path.parse_text p) hkey hmeets, hrep.hasChildren_text hgrounded,
      hgrounded.hasBelow_iff, hrep.children_of_has hgrounded (Tree.has_of_getElem? hnode)]
    simp [List.ne_nil_iff_exists_cons]

end Answers

/-- Whatever calls are made, as long as every node is written fewer than 2^31 times, they are all
answered and the store is in shape: its keys are paths that have their parents, the nodes are at the
versions of the record, each node lists its children by name in the order of their bytes, and a node
that has any is not deleted. -/
theorem intact_grown (hfew : FewWrites calls) :
    ∃ f made, grown calls = some (f, made) ∧ f.Intact made := by
  obtain ⟨f, hgrown, hrep⟩ := grown_represents hfew
  exact ⟨f, _, hgrown, hrep.intact (Tree.grounded_grown calls) (Tree.recorded_grown calls)⟩

/-- Three nodes whose keys stand around the one of a child, and a transaction that writes the child.
The newest call is the first. -/
def siblings : List Call :=
  [.write "/a" [1] (some 0), .transact [.create "/a/b" [], .writeAt "/a/b" 0 [2]],
    .create "/ab" [], .create "/a-b" [], .create "/a" []]

/-- The keys in their order are those of the first node, of the second, of the child and of the
third, and only the child is listed below the first. -/
theorem intact_grown_siblings : FewWrites siblings ∧
    ∃ f made, grown siblings = some (f, made) ∧ f.Intact made ∧
      f.nodes.keys = ["/a", "/a-b", "/a/b", "/ab"] ∧ f.children "/a" = .ok ["b"] ∧
        f.children "/" = .ok ["a", "a-b", "ab"] := by
  have hfew : FewWrites siblings := by
    refine fewWrites_of_countP fun path => ?_
    exact Nat.lt_of_le_of_lt List.countP_le_length (by decide)
  obtain ⟨f, made, hgrown, hintact⟩ := intact_grown hfew
  have hseen : (grown siblings).map (fun grown =>
      (grown.1.nodes.keys, grown.1.children "/a", grown.1.children "/")) =
      some (["/a", "/a-b", "/a/b", "/ab"], .ok ["b"], .ok ["a", "a-b", "ab"]) := by
    decide +kernel
  rw [hgrown, Option.map_some, Option.some.injEq, Prod.mk.injEq, Prod.mk.injEq] at hseen
  exact ⟨hfew, f, made, hgrown, hintact, hseen⟩

/-- The empty name joined to the root is the root, which is there and is no child of its own. -/
theorem empty_name_not_listed : ∃ f made names, grown [] = some (f, made) ∧
    f.children "/" = .ok names ∧ "" ∉ names ∧ '/' ∉ "".toList ∧ f.Found (Path.join "/" "") :=
  ⟨.empty, [], [], rfl, rfl, List.not_mem_nil, by decide, ⟨"/", 0, 0, true⟩, rfl⟩

end FlatStore
end DeltaLedger
