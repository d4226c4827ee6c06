import DeltaLedger.NodeTree.Call

/-!
# What transactions do

A change of one node succeeds exactly under its precondition and then touches no
other node.  A transaction either commits, which means that its steps succeed one
after another, or leaves the tree as it was, and the first step that is refused gives
the answer.
-/

namespace DeltaLedger
namespace Step

variable {path : String} {version : Nat} {data : List UInt8}

@[simp] theorem path_create : (create path data).path = path := rfl

@[simp] theorem path_writeAt : (writeAt path version data).path = path := rfl

@[simp] theorem path_deleteAt : (deleteAt path version).path = path := rfl

@[simp] theorem path_checkAt : (checkAt path version).path = path := rfl

end Step

namespace Tree

theorem find?_of_ne_root {t : Tree} {p : Path} (hp : p ≠ Path.root) : t.find? p = t.nodes[p]? := by
  simp [find?, hp]

theorem has_eq_false_iff {t : Tree} {p : Path} (hp : p ≠ Path.root) :
    t.has p = false ↔ t.nodes[p]? = none := by
  rw [has, find?_of_ne_root hp, Option.isSome_eq_false_iff, Option.isNone_iff_eq_none]

theorem has_congr {t t' : Tree} {p : Path} (hsame : t.nodes[p]? = t'.nodes[p]?) :
    t.has p = t'.has p := by
  simp only [has, find?, hsame]

theorem has_of_getElem? {t : Tree} {p : Path} {node : Node} (hnode : t.nodes[p]? = some node) :
    t.has p = true := by
  simp [has, find?, hnode]

theorem hasBelow_eq_true_iff {t : Tree} {p : Path} :
    t.hasBelow p = true ↔ ∃ q node, t.nodes[q]? = some node ∧ p.isAbove q = true := by
  simp only [hasBelow, List.any_eq_true, Std.ExtTreeMap.mem_keys]
  constructor
  · rintro ⟨q, hmem, habove⟩
    obtain ⟨node, hnode⟩ := Option.isSome_iff_exists.mp (Std.ExtTreeMap.mem_iff_isSome_getElem?.mp hmem)
    exact ⟨q, node, hnode, habove⟩
  · rintro ⟨q, node, hnode, habove⟩
    refine ⟨q, ?_, habove⟩
    rw [Std.ExtTreeMap.mem_iff_isSome_getElem?, hnode]
    rfl

theorem mem_childNames {t : Tree} {p : Path} {name : String} :
    name ∈ t.childNames p ↔ ∃ q node, t.nodes[q]? = some node ∧ p.childName? q = some name := by
  simp only [childNames, List.mem_filterMap, Std.ExtTreeMap.mem_keys]
  constructor
  · rintro ⟨q, hmem, hname⟩
    obtain ⟨node, hnode⟩ := Option.isSome_iff_exists.mp (Std.ExtTreeMap.mem_iff_isSome_getElem?.mp hmem)
    exact ⟨q, node, hnode, hname⟩
  · rintro ⟨q, node, hnode, hname⟩
    refine ⟨q, ?_, hname⟩
    rw [Std.ExtTreeMap.mem_iff_isSome_getElem?, hnode]
    rfl

@[simp] theorem atPath_text {α : Type} (p : Path) (f : Path → Except StoreError α) :
    atPath p.text f = f p := by
  simp [atPath]

/-! ## Single steps -/

/-- There is a node at a path, and it is at a version. -/
def At (t : Tree) (p : Path) (version : Nat) : Prop :=
  ∃ node, t.nodes[p]? = some node ∧ node.version = version

theorem at_put_of_ne {t : Tree} {p q : Path} {node : Node} {version : Nat} (hne : q ≠ p) :
    (t.put q node).At p version ↔ t.At p version := by
  simp [At, getElem?_put, hne]

theorem has_put_of_ne {t : Tree} {p q : Path} {node : Node} (hne : q ≠ p) :
    (t.put q node).has p = t.has p := by
  simp only [has, find?, getElem?_put, if_neg hne]

theorem has_drop_of_ne {t : Tree} {p q : Path} (hne : q ≠ p) : (t.drop q).has p = t.has p := by
  simp only [has, find?, getElem?_drop, if_neg hne]

section Answers

variable {t : Tree} {s : Step}

theorem step_eq_badPath_iff {fault : Path.Fault} :
    t.step s = .error (.badPath fault) ↔ Path.parse s.path = .error fault := by
  unfold step
  cases Path.parse s.path with
  | error fault' => simp
  | ok p => cases hchange : t.change p s.change <;> simp [hchange]

theorem step_eq_conflict_iff {conflict : Conflict} :
    t.step s = .error (.conflict conflict) ↔
      ∃ p, Path.parse s.path = .ok p ∧ t.change p s.change = .error conflict := by
  unfold step
  cases Path.parse s.path with
  | error fault => simp
  | ok p => cases hchange : t.change p s.change <;> simp [hchange]

end Answers

section Steps

variable {t t' : Tree} {p : Path} {v version : Nat} {data : List UInt8}

theorem step_create_iff (hp : p ≠ Path.root) :
    t.step (.create p.text data) = .ok (v, t') ↔
      t.nodes[p]? = none ∧ p.parent?.any t.has = true ∧ v = 0 ∧ t' = t.put p ⟨data, 0⟩ := by
  simp only [step, Step.create, Path.parse_text, change]
  by_cases hfree : t.has p = true
  · have hnode : t.nodes[p]? ≠ none := by
      rw [ne_eq, ← has_eq_false_iff hp, hfree]
      decide
    simp [hfree, hnode]
  · rw [Bool.not_eq_true] at hfree
    rw [if_neg (by simp [hfree]), (has_eq_false_iff hp).mp hfree]
    by_cases hparent : p.parent?.any t.has = true
    · simp only [hparent, if_true, true_and, Except.ok.injEq, Prod.mk.injEq]
      exact ⟨fun h => ⟨h.1.symm, h.2.symm⟩, fun h => ⟨h.1.symm, h.2.symm⟩⟩
    · simp [hparent]

theorem step_writeAt_iff :
    t.step (.writeAt p.text version data) = .ok (v, t') ↔
      t.At p version ∧ v = version + 1 ∧ t' = t.put p ⟨data, version + 1⟩ := by
  simp only [step, Step.writeAt, Path.parse_text, change, At]
  cases hnode : t.nodes[p]? with
  | none => simp
  | some node =>
      by_cases hversion : node.version = version
      · subst hversion
        simp only [meets, Option.all_some, BEq.rfl, if_true, Except.ok.injEq, Prod.mk.injEq,
          Option.some.injEq, exists_eq_left', true_and]
        exact ⟨fun h => ⟨h.1.symm, h.2.symm⟩, fun h => ⟨h.1.symm, h.2.symm⟩⟩
      · have hmiss : meets (some (version : Int)) node.version = false := by
          simp only [meets, Option.all_some, beq_eq_false_iff_ne, ne_eq]
          omega
        simp [hmiss, hversion]

theorem step_deleteAt_iff :
    t.step (.deleteAt p.text version) = .ok (v, t') ↔
      t.At p version ∧ t.hasBelow p = false ∧ v = version ∧ t' = t.drop p := by
  simp only [step, Step.deleteAt, Path.parse_text, change, At]
  cases hnode : t.nodes[p]? with
  | none => simp
  | some node =>
      by_cases hversion : node.version = version
      · subst hversion
        by_cases hbelow : t.hasBelow p = true
        · simp [meets, hbelow]
        · rw [Bool.not_eq_true] at hbelow
          simp only [meets, Option.all_some, BEq.rfl, if_true, hbelow, Bool.false_eq_true, if_false,
            Except.ok.injEq, Prod.mk.injEq, Option.some.injEq, exists_eq_left', true_and]
          exact ⟨fun h => ⟨h.1.symm, h.2.symm⟩, fun h => ⟨h.1.symm, h.2.symm⟩⟩
      · have hmiss : meets (some (version : Int)) node.version = false := by
          simp only [meets, Option.all_some, beq_eq_false_iff_ne, ne_eq]
          omega
        simp [hmiss, hversion]

theorem step_checkAt_iff (hp : p ≠ Path.root) :
    t.step (.checkAt p.text version) = .ok (v, t') ↔
      t.At p version ∧ v = version ∧ t' = t := by
  simp only [step, Step.checkAt, Path.parse_text, change, find?_of_ne_root hp, At]
  cases hnode : t.nodes[p]? with
  | none => simp
  | some node =>
      by_cases hversion : node.version = version
      · subst hversion
        simp only [if_true, Except.ok.injEq, Prod.mk.injEq, Option.some.injEq, exists_eq_left',
          true_and]
        exact ⟨fun h => ⟨h.1.symm, h.2.symm⟩, fun h => ⟨h.1.symm, h.2.symm⟩⟩
      · have hmiss : (version : Int) ≠ node.version := by omega
        simp [hmiss, hversion]

end Steps

/-! ## Transactions -/

/-- The steps succeed one after another and lead to a tree. -/
def Commits (t : Tree) : List Step → Tree → Prop
  | [], t' => t' = t
  | s :: steps, t' => ∃ v next, t.step s = .ok (v, next) ∧ next.Commits steps t'

theorem stepsFrom_eq_ok_iff {index : Nat} {t t' : Tree} {steps : List Step} :
    t.stepsFrom index steps = .ok t' ↔ t.Commits steps t' := by
  induction steps generalizing index t with
  | nil =>
      simp only [stepsFrom, Commits, Except.ok.injEq]
      exact eq_comm
  | cons s steps ih =>
      simp only [stepsFrom, Commits]
      cases hstep : t.step s with
      | error refusal => simp
      | ok reached =>
          simp only [Except.ok.injEq]
          rw [ih]
          constructor
          · intro hrest
            exact ⟨reached.1, reached.2, rfl, hrest⟩
          · rintro ⟨v, next, rfl, hrest⟩
            exact hrest

theorem transact_of_commits {t t' : Tree} {steps : List Step} (hcommits : t.Commits steps t') :
    t.transact steps = (.ok .committed, t') := by
  unfold transact
  rw [stepsFrom_eq_ok_iff.mpr hcommits]

theorem commits_append {t t' : Tree} {steps steps' : List Step} :
    t.Commits (steps ++ steps') t' ↔ ∃ middle, t.Commits steps middle ∧ middle.Commits steps' t' := by
  induction steps generalizing t with
  | nil => simp [Commits]
  | cons s steps ih =>
      simp only [List.cons_append, Commits, ih]
      constructor
      · rintro ⟨v, next, hstep, middle, hfirst, hsecond⟩
        exact ⟨middle, ⟨v, next, hstep, hfirst⟩, hsecond⟩
      · rintro ⟨middle, ⟨v, next, hstep, hfirst⟩, hsecond⟩
        exact ⟨v, next, hstep, middle, hfirst, hsecond⟩

/-! ## The first step that fails -/

section Refusals

variable {t : Tree} {s : Step} {steps : List Step}

/-- A step is refused on the tree that the steps before it lead to. -/
structure Refuses (t : Tree) (done : List Step) (s : Step) (middle : Tree) (refusal : Refusal) :
    Prop where
  reached : t.Commits done middle
  refused : middle.step s = .error refusal

theorem refuses_nil {middle : Tree} {refusal : Refusal} :
    t.Refuses [] s middle refusal ↔ middle = t ∧ t.step s = .error refusal := by
  constructor
  · rintro ⟨rfl, hrefused⟩
    exact ⟨rfl, hrefused⟩
  · rintro ⟨rfl, hrefused⟩
    exact ⟨rfl, hrefused⟩

theorem refuses_cons {first : Step} {done : List Step} {middle : Tree} {refusal : Refusal} :
    t.Refuses (first :: done) s middle refusal ↔
      ∃ v next, t.step first = .ok (v, next) ∧ next.Refuses done s middle refusal := by
  constructor
  · rintro ⟨⟨v, next, hfirst, hdone⟩, hrefused⟩
    exact ⟨v, next, hfirst, hdone, hrefused⟩
  · rintro ⟨v, next, hfirst, hdone, hrefused⟩
    exact ⟨⟨v, next, hfirst, hdone⟩, hrefused⟩

theorem stepsFrom_of_refuses {index : Nat} {done rest : List Step} {middle : Tree}
    {refusal : Refusal} (hrefuses : t.Refuses done s middle refusal) :
    t.stepsFrom index (done ++ s :: rest) = .error ⟨index + done.length, s.path, refusal⟩ := by
  induction done generalizing index t with
  | nil =>
      obtain ⟨-, hrefused⟩ := refuses_nil.mp hrefuses
      simp [stepsFrom, hrefused]
  | cons first done ih =>
      obtain ⟨v, next, hfirst, hrest⟩ := refuses_cons.mp hrefuses
      have hindex : index + 1 + done.length = index + (first :: done).length := by
        rw [List.length_cons]
        omega
      rw [List.cons_append, stepsFrom, hfirst, ← hindex]
      exact ih hrest

/-- Steps succeed one after another up to the end, or up to one that is refused. -/
theorem commits_or_refuses (t : Tree) (steps : List Step) :
    (∃ t', t.Commits steps t') ∨
      ∃ done s rest middle refusal,
        steps = done ++ s :: rest ∧ t.Refuses done s middle refusal := by
  induction steps generalizing t with
  | nil => exact .inl ⟨t, rfl⟩
  | cons s steps ih =>
      cases hstep : t.step s with
      | error refusal => exact .inr ⟨[], s, steps, t, refusal, rfl, refuses_nil.mpr ⟨rfl, hstep⟩⟩
      | ok reached =>
          obtain ⟨v, next⟩ := reached
          rcases ih next with ⟨t', hcommits⟩ | ⟨done, s', rest, middle, refusal, rfl, hrefuses⟩
          · exact .inl ⟨t', v, next, hstep, hcommits⟩
          · exact .inr ⟨s :: done, s', rest, middle, refusal, rfl,
              refuses_cons.mpr ⟨v, next, hstep, hrefuses⟩⟩

theorem transact_of_refuses {done : List Step} {middle : Tree} {refusal : Refusal}
    (hrefuses : t.Refuses done s middle refusal) (rest : List Step) :
    t.transact (done ++ s :: rest) =
      match refusal with
      | .badPath fault => (.error (.badPath fault), t)
      | .conflict conflict => (.ok (.aborted done.length s.path conflict), t) := by
  unfold transact
  rw [stepsFrom_of_refuses hrefuses, Nat.zero_add]
  cases refusal <;> rfl

/-- A transaction on well-formed paths commits, or it is aborted and changes nothing. -/
theorem transact_cases (hpaths : ∀ s ∈ steps, ∃ p : Path, s.path = p.text) :
    (∃ t', t.Commits steps t' ∧ t.transact steps = (.ok .committed, t')) ∨
      ∃ index path conflict, t.transact steps = (.ok (.aborted index path conflict), t) := by
  rcases commits_or_refuses t steps with
    ⟨t', hcommits⟩ | ⟨done, s, rest, middle, refusal, rfl, hrefuses⟩
  · exact .inl ⟨t', hcommits, transact_of_commits hcommits⟩
  · have hanswer := transact_of_refuses hrefuses rest
    cases refusal with
    | badPath fault =>
        obtain ⟨p, hp⟩ := hpaths s (by simp)
        have hparse := step_eq_badPath_iff.mp hrefuses.refused
        rw [hp, Path.parse_text] at hparse
        cases hparse
    | conflict conflict => exact .inr ⟨_, _, conflict, hanswer⟩

end Refusals

/-! ## Deletions -/

/-- Steps that delete nodes at the versions they were read with. -/
def deletes (items : List (Path × Nat)) : List Step :=
  items.map fun item => .deleteAt item.1.text item.2

def dropAll (t : Tree) (ps : List Path) : Tree :=
  ps.foldl drop t

theorem getElem?_dropAll (t : Tree) (ps : List Path) (q : Path) :
    (t.dropAll ps).nodes[q]? = if q ∈ ps then none else t.nodes[q]? := by
  induction ps generalizing t with
  | nil => simp [dropAll]
  | cons p ps ih =>
      have htail := ih (t.drop p)
      change ((t.drop p).dropAll ps).nodes[q]? = _
      rw [htail, getElem?_drop]
      by_cases hmem : q ∈ ps
      · simp [hmem]
      · by_cases hhead : p = q
        · simp [hhead]
        · simp [hmem, hhead, Ne.symm hhead]

theorem at_dropAll_of_not_mem {t : Tree} {ps : List Path} {q : Path} {version : Nat}
    (hmem : q ∉ ps) : (t.dropAll ps).At q version ↔ t.At q version := by
  simp [At, getElem?_dropAll, hmem]

theorem has_dropAll_of_not_mem {t : Tree} {ps : List Path} {q : Path} (hmem : q ∉ ps) :
    (t.dropAll ps).has q = t.has q := by
  simp only [has, find?, getElem?_dropAll, if_neg hmem]

theorem hasBelow_drop_eq_false {t : Tree} {p q : Path} (hleaf : t.hasBelow q = false) :
    (t.drop p).hasBelow q = false := by
  rw [← Bool.not_eq_true] at hleaf ⊢
  intro hbelow
  obtain ⟨r, node, hnode, habove⟩ := hasBelow_eq_true_iff.mp hbelow
  rw [getElem?_drop] at hnode
  split at hnode
  next => cases hnode
  next => exact hleaf (hasBelow_eq_true_iff.mpr ⟨r, node, hnode, habove⟩)

/-- Leaves are deleted together exactly when each of them is there at its version. -/
theorem commits_deletes_iff
    {t t' : Tree} {items : List (Path × Nat)}
    (hleaf : ∀ item ∈ items, t.hasBelow item.1 = false) :
    t.Commits (deletes items) t' ↔
      (items.map Prod.fst).Nodup ∧
        (∀ item ∈ items, t.At item.1 item.2) ∧ t' = t.dropAll (items.map Prod.fst) := by
  induction items generalizing t with
  | nil => simp [deletes, Commits, dropAll]
  | cons item items ih =>
      have hrest := @ih (t.drop item.1) fun other hother =>
        hasBelow_drop_eq_false (hleaf other (List.mem_cons_of_mem _ hother))
      rw [List.map_cons, List.nodup_cons]
      constructor
      · rintro ⟨v, next, hstep, hcommits⟩
        obtain ⟨hat, _, _, rfl⟩ := step_deleteAt_iff.mp hstep
        obtain ⟨hdistinct, hpresent, rfl⟩ := hrest.mp hcommits
        have hother : ∀ other ∈ items, item.1 ≠ other.1 ∧ t.At other.1 other.2 := by
          intro other hother
          obtain ⟨found, hfound, hfoundVersion⟩ := hpresent other hother
          rw [getElem?_drop] at hfound
          split at hfound
          next => cases hfound
          next hne => exact ⟨hne, found, hfound, hfoundVersion⟩
        refine ⟨⟨?_, hdistinct⟩, ?_, rfl⟩
        · intro hmem
          obtain ⟨other, hmem, hsame⟩ := List.mem_map.mp hmem
          exact (hother other hmem).1 hsame.symm
        · intro other hmem
          rcases List.mem_cons.mp hmem with rfl | hmem
          · exact hat
          · exact (hother other hmem).2
      · rintro ⟨⟨hfresh, hdistinct⟩, hpresent, rfl⟩
        have hstep := step_deleteAt_iff.mpr
          ⟨hpresent item List.mem_cons_self, hleaf item List.mem_cons_self, rfl, rfl⟩
        refine ⟨item.2, t.drop item.1, hstep, hrest.mpr ⟨hdistinct, ?_, rfl⟩⟩
        intro other hmem
        have hne : item.1 ≠ other.1 := by
          intro hsame
          exact hfresh (hsame ▸ List.mem_map_of_mem hmem)
        obtain ⟨found, hfound, hversion⟩ := hpresent other (List.mem_cons_of_mem _ hmem)
        exact ⟨found, by rw [getElem?_drop, if_neg hne, hfound], hversion⟩

end Tree

/-- The call commits a transaction on a tree. -/
def Call.commits (c : Call) (t : Tree) : Bool :=
  match c with
  | .transact steps => ((t.transact steps).1 matches .ok .committed)
  | _ => false

end DeltaLedger
