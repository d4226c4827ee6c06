import DeltaLedger.Proofs.FoundingSteps
import DeltaLedger.Proofs.Isolation

/-!
# Roots made by many clients at once

Clients that make roots of datamarts, requests, and any clients that delete nothing share a store
and take turns at its calls.  Whoever is first, every client that makes a root is told its path, the
root and its environment are there from then on, and no node that was there is touched.
-/

namespace DeltaLedger

/-- The call could delete a node. -/
def Call.deletes : Call → Bool
  | .delete _ _ => true
  | .transact steps => steps.any fun step => step.change.isRemoval
  | _ => false

/-- A client that makes the root of a datamart, and what it still does. -/
structure Founding where
  site : Site
  rest : Program StoreError String

/-- A cluster, and clients that make roots on its store. -/
structure Settlement (ι κ : Type) where
  cluster : Cluster ι
  founding? : κ → Option Founding

namespace Settlement

/-- What happens next. -/
inductive Turn (ι κ : Type) where
  /-- A request comes in or goes on. -/
  | request (action : Action ι)
  /-- A client begins to make a root. -/
  | begin (j : κ) (s : Site)
  | proceed (j : κ) (now : DateTime)
  /-- Some other client makes a call, but not to delete anything. -/
  | call (c : Call) (hkeeps : c.deletes = false)

section Turns

variable {ι κ : Type} [DecidableEq ι] [DecidableEq κ]

/-- The turn is a step of a client that makes a root. -/
def Turn.isStep (j : κ) : Turn ι κ → Bool
  | .proceed j' _ => j' = j
  | _ => false

def tree (k : Settlement ι κ) : Tree :=
  k.cluster.history.now

def withTree (k : Settlement ι κ) (t : Tree) : Settlement ι κ :=
  { k with cluster := { k.cluster with history := k.cluster.history.next t } }

def withFounding (k : Settlement ι κ) (j : κ) (f : Founding) : Settlement ι κ :=
  { k with founding? := fun j' => if j' = j then some f else k.founding? j' }

def take (k : Settlement ι κ) : Turn ι κ → Settlement ι κ
  | .request action => { k with cluster := k.cluster.act action }
  | .begin j s =>
    match k.founding? j with
    | some _ => k
    | none => k.withFounding j ⟨s, Datamart.ensureRoot s.env s.datamart.text⟩
  | .proceed j now =>
    match k.founding? j with
    | some f =>
      let next := f.rest.stepOn k.tree now
      (k.withFounding j ⟨f.site, next.1⟩).withTree next.2
    | none => k
  | .call c _ => k.withTree (k.tree.answer c).2

/-- What some turns make of a store on which any calls were made before. -/
def settled (calls : List Call) (turns : List (Turn ι κ)) : Settlement ι κ :=
  turns.foldl take ⟨.start (Tree.grown calls).1, fun _ => none⟩

def result? (k : Settlement ι κ) (j : κ) : Option (Except StoreError String) :=
  (k.founding? j).bind fun f => f.rest.result?

end Turns
end Settlement

/-! ## Nodes that nobody deletes -/

namespace Tree

variable {t t' : Tree} {p : Path} {steps : List Step} {c : Call}

theorem Changed.has {change : Change} {version : Nat} {q : Path}
    (hchanged : t.Changed p change version t') (hremoval : change.isRemoval = false)
    (hhas : t.has q = true) : t'.has q = true := by
  cases hchanged with
  | created _ _ => exact has_put hhas
  | written _ _ => exact has_put hhas
  | deleted _ _ _ => cases hremoval
  | checked _ => exact hhas

theorem has_of_commits (hcommits : t.Commits steps t')
    (hremoval : ∀ step ∈ steps, step.change.isRemoval = false) (hhas : t.has p = true) :
    t'.has p = true := by
  induction steps generalizing t with
  | nil =>
      cases hcommits
      exact hhas
  | cons step steps ih =>
      obtain ⟨version, next, hstep, hrest⟩ := hcommits
      obtain ⟨hfirst, hsteps⟩ := List.forall_mem_cons.mp hremoval
      obtain ⟨q, _, hchanged⟩ := step_eq_ok_iff.mp hstep
      exact ih hrest hsteps (hchanged.has hfirst hhas)

theorem isRemoval_of_taken (hdeletes : c.deletes = false) {reply : c.Reply} :
    ∀ step ∈ c.taken reply, step.change.isRemoval = false := by
  have hsingle : ∀ (s : Step) outcome, s.change.isRemoval = false →
      ∀ step ∈ s.taken outcome, step.change.isRemoval = false := by
    intro s outcome hs step hstep
    unfold Step.taken at hstep
    split at hstep
    next =>
      rw [List.mem_singleton.mp hstep]
      exact hs
    next => cases hstep
  cases c with
  | stat | read | children => nofun
  | create path data => exact hsingle _ reply rfl
  | write path data expected => exact hsingle _ reply rfl
  | delete path expected => cases hdeletes
  | transact steps =>
      have hsteps : ∀ step ∈ steps, step.change.isRemoval = false := by
        simpa [Call.deletes] using hdeletes
      cases reply with
      | error e => nofun
      | ok outcome =>
          cases outcome with
          | committed => exact hsteps
          | aborted => nofun

/-- Unless a call deletes, what was there is there. -/
theorem has_answer (hdeletes : c.deletes = false) (hhas : t.has p = true) :
    (t.answer c).2.has p = true :=
  has_of_commits (commits_taken t c) (isRemoval_of_taken hdeletes) hhas

end Tree

/-- A request changes no node of a path so short. -/
theorem Task.has_treeAfter {task : Task} {t : Tree} {p : Path}
    (hmakes : task.rest.Makes fun c => ∃ s, c.Within s) (hshort : p.names.length ≤ 2) :
    (task.treeAfter t).has p = t.has p := by
  unfold treeAfter
  cases hrest : task.rest with
  | call c next =>
      rw [hrest] at hmakes
      obtain ⟨s, hwithin⟩ := hmakes.1
      have hnode : (t.answer c).2.nodes[p]? = t.nodes[p]? := by
        apply t.getElem?_answer hwithin
        intro hregion
        have hlong := hregion.owns.length_lt
        omega
      simp only [Tree.has, Tree.find?, hnode]
  | _ => rfl

/-! ## What every turn keeps -/

/-- Environments and roots that are there in one tree are there in another. -/
def Tree.Stands (t t' : Tree) : Prop :=
  ∀ p : Path, p.names.length ≤ 2 → t.has p = true → t'.has p = true

theorem FoundingStage.stands {s : Site} {t t' : Tree} {n : Nat} {rest : Program StoreError String}
    (hstage : FoundingStage s t n rest) (hstands : t.Stands t') : FoundingStage s t' n rest :=
  hstage.mono (hstands s.above (by simp [Site.above])) (hstands s.root (by simp [Site.root]))

theorem makes_serve (c : Coordinator) (r : Request) :
    (c.serve r).Makes fun call => ∃ s, call.Within s := by
  obtain ⟨s, hconfined⟩ := exists_confined_serve c r
  exact hconfined.makes.mono fun call hwithin => ⟨s, hwithin⟩

namespace Settlement

variable {ι κ : Type} {k : Settlement ι κ} {j : κ} {f : Founding}

/-- Requests keep to their sites, every client that makes a root has come to some stage, and every
node has its parent. -/
structure Sound (k : Settlement ι κ) : Prop where
  requests : ∀ i task, k.cluster.task? i = some task → task.rest.Makes fun c => ∃ s, c.Within s
  foundings : ∀ j f, k.founding? j = some f → ∃ n, FoundingStage f.site k.tree n f.rest
  grounded : k.tree.Grounded

theorem sound_start (calls : List Call) :
    Sound (⟨.start (Tree.grown calls).1, fun _ => none⟩ : Settlement ι κ) where
  requests _ _ hi := nomatch hi
  foundings _ _ hj := nomatch hj
  grounded := Tree.grounded_grown calls

theorem Sound.progress (hsound : k.Sound) (hj : k.founding? j = some f) (now : DateTime) :
    ∃ n, FoundingStage f.site k.tree n f.rest ∧
      FoundingStage.Progress f.site k.tree n (f.rest.stepOn k.tree now) := by
  obtain ⟨n, hstage⟩ := hsound.foundings j f hj
  exact ⟨n, hstage, hstage.step now⟩

variable [DecidableEq ι] [DecidableEq κ]

theorem tree_request (k : Settlement ι κ) (action : Action ι) :
    (k.take (.request action)).tree = k.tree ∨ ∃ i task, k.cluster.task? i = some task ∧
      (k.take (.request action)).tree = task.treeAfter k.tree := by
  cases action with
  | begin i c r => exact .inl (congrArg History.now Cluster.history_begin)
  | proceed i now =>
      cases hi : k.cluster.task? i with
      | none => exact .inl (congrArg History.now (Cluster.history_proceed_of_none hi))
      | some task => exact .inr ⟨i, task, hi, Cluster.now_advance hi⟩

theorem take_begin_of_none {s : Site} (hj : k.founding? j = none) :
    k.take (.begin j s) = k.withFounding j ⟨s, Datamart.ensureRoot s.env s.datamart.text⟩ := by
  simp only [take, hj]

theorem take_begin_of_some {s : Site} (hj : k.founding? j = some f) :
    k.take (.begin j s) = k := by
  simp only [take, hj]

theorem take_proceed_of_none {now : DateTime} (hj : k.founding? j = none) :
    k.take (.proceed j now) = k := by
  simp only [take, hj]

theorem take_proceed_of_some {now : DateTime} (hj : k.founding? j = some f) :
    k.take (.proceed j now) =
      (k.withFounding j ⟨f.site, (f.rest.stepOn k.tree now).1⟩).withTree
        (f.rest.stepOn k.tree now).2 := by
  simp only [take, hj]

/-- In every turn at most one call is served. -/
theorem tree_take (k : Settlement ι κ) (turn : Turn ι κ) :
    (k.take turn).tree = k.tree ∨ ∃ c, (k.take turn).tree = (k.tree.answer c).2 := by
  cases turn with
  | request action =>
      rcases k.tree_request action with hsame | ⟨i, task, _, htree⟩
      · exact .inl hsame
      · rw [htree]
        unfold Task.treeAfter
        cases task.rest with
        | call c next => exact .inr ⟨c, rfl⟩
        | _ => exact .inl rfl
  | begin j s =>
      cases hj : k.founding? j with
      | none => exact .inl (by rw [take_begin_of_none hj]; rfl)
      | some f => exact .inl (by rw [take_begin_of_some hj])
  | proceed j now =>
      cases hj : k.founding? j with
      | none => exact .inl (by rw [take_proceed_of_none hj])
      | some f =>
          rw [take_proceed_of_some hj]
          change (f.rest.stepOn k.tree now).2 = _ ∨ ∃ c, (f.rest.stepOn k.tree now).2 = _
          cases f.rest with
          | call c next => exact .inr ⟨c, rfl⟩
          | _ => exact .inl rfl
  | call c hkeeps => exact .inr ⟨c, rfl⟩

theorem stands_take (hsound : k.Sound) (turn : Turn ι κ) : k.tree.Stands (k.take turn).tree := by
  intro p hshort hhas
  cases turn with
  | request action =>
      rcases k.tree_request action with hsame | ⟨i, task, hi, htree⟩
      · rwa [hsame]
      · rwa [htree, Task.has_treeAfter (hsound.requests i task hi) hshort]
  | begin j s =>
      cases hj : k.founding? j with
      | none => rwa [take_begin_of_none hj]
      | some f => rwa [take_begin_of_some hj]
  | proceed j now =>
      cases hj : k.founding? j with
      | none => rwa [take_proceed_of_none hj]
      | some f =>
          obtain ⟨n, _, hprogress⟩ := hsound.progress hj now
          rw [take_proceed_of_some hj]
          exact hprogress.keeps.has hhas
  | call c hkeeps => exact Tree.has_answer hkeeps hhas

omit [DecidableEq ι] in
theorem withFounding_self : (k.withFounding j f).founding? j = some f :=
  if_pos rfl

omit [DecidableEq ι] in
theorem withFounding_of_ne {j' : κ} (hne : j' ≠ j) :
    (k.withFounding j f).founding? j' = k.founding? j' :=
  if_neg hne

/-- A turn that is no step of a client leaves it where it is. -/
theorem founding?_take_of_not_step {turn : Turn ι κ} (hj : k.founding? j = some f)
    (hturn : turn.isStep j = false) : (k.take turn).founding? j = some f := by
  cases turn with
  | request | call => exact hj
  | begin j' s =>
      cases hj' : k.founding? j' with
      | some f' => rwa [take_begin_of_some hj']
      | none =>
          have hne : j ≠ j' := by
            rintro rfl
            rw [hj] at hj'
            cases hj'
          rw [take_begin_of_none hj', withFounding_of_ne hne, hj]
  | proceed j' now =>
      have hne : j ≠ j' := fun hsame => of_decide_eq_false hturn hsame.symm
      cases hj' : k.founding? j' with
      | none => rwa [take_proceed_of_none hj']
      | some f' =>
          rw [take_proceed_of_some hj']
          exact (withFounding_of_ne hne).trans hj

omit [DecidableEq ι] in
theorem exists_step_of_isStep {turn : Turn ι κ} (hturn : turn.isStep j = true) :
    ∃ now, turn = .proceed j now := by
  cases turn with
  | proceed j' now => exact ⟨now, by rw [of_decide_eq_true hturn]⟩
  | _ => cases hturn

/-- What a client that makes a root has come to after a turn. -/
theorem founding?_take (hsound : k.Sound) (hj : k.founding? j = some f) {n : Nat}
    (hstage : FoundingStage f.site k.tree n f.rest) (turn : Turn ι κ) :
    ∃ f' m, (k.take turn).founding? j = some f' ∧ f'.site = f.site ∧
      FoundingStage f.site (k.take turn).tree m f'.rest ∧
        m ≤ n - if turn.isStep j then 1 else 0 := by
  cases hturn : turn.isStep j with
  | false =>
      exact ⟨f, n, founding?_take_of_not_step hj hturn, rfl,
        hstage.stands (stands_take hsound turn), Nat.le_refl n⟩
  | true =>
      obtain ⟨now, rfl⟩ := exists_step_of_isStep hturn
      obtain ⟨m, hless, hnext⟩ := (hstage.step now).stage
      rw [take_proceed_of_some hj]
      exact ⟨_, m, withFounding_self, rfl, hnext, hless⟩

/-- A client that was not there has just begun. -/
theorem founding?_take_of_none {turn : Turn ι κ} (hnone : k.founding? j = none)
    (hj : (k.take turn).founding? j = some f) :
    f.rest = Datamart.ensureRoot f.site.env f.site.datamart.text := by
  cases turn with
  | request | call =>
      change k.founding? j = some f at hj
      rw [hnone] at hj
      cases hj
  | begin j' s =>
      cases hj' : k.founding? j' with
      | some f' =>
          rw [take_begin_of_some hj', hnone] at hj
          cases hj
      | none =>
          rw [take_begin_of_none hj'] at hj
          by_cases hsame : j = j'
          · subst hsame
            rw [withFounding_self] at hj
            cases hj
            rfl
          · rw [withFounding_of_ne hsame, hnone] at hj
            cases hj
  | proceed j' now =>
      cases hj' : k.founding? j' with
      | none =>
          rw [take_proceed_of_none hj', hnone] at hj
          cases hj
      | some f' =>
          have hne : j ≠ j' := by
            rintro rfl
            rw [hnone] at hj'
            cases hj'
          rw [take_proceed_of_some hj'] at hj
          change (k.withFounding j' _).founding? j = some f at hj
          rw [withFounding_of_ne hne, hnone] at hj
          cases hj

theorem task?_take {turn : Turn ι κ} (hturn : ∀ action, turn ≠ .request action) :
    (k.take turn).cluster.task? = k.cluster.task? := by
  cases turn with
  | request action => exact absurd rfl (hturn action)
  | call => rfl
  | begin j s =>
      cases hj : k.founding? j with
      | none => rw [take_begin_of_none hj, withFounding]
      | some f => rw [take_begin_of_some hj]
  | proceed j now =>
      cases hj : k.founding? j with
      | none => rw [take_proceed_of_none hj]
      | some f => rw [take_proceed_of_some hj, withTree, withFounding]

theorem sound_take (hsound : k.Sound) (turn : Turn ι κ) : (k.take turn).Sound where
  requests i task hi := by
    by_cases hrequest : ∃ action, turn = .request action
    · obtain ⟨action, rfl⟩ := hrequest
      have hmakes : ∀ i task, (fun _ : ι => true) i = true →
          (k.cluster.act action).task? i = some task →
            task.rest.Makes fun c => ∃ s, c.Within s :=
        Cluster.makes_act (fun i task _ hi => hsound.requests i task hi)
          fun _ c r _ _ => makes_serve c r
      exact hmakes i task rfl hi
    · rw [task?_take fun action hsame => hrequest ⟨action, hsame⟩] at hi
      exact hsound.requests i task hi
  foundings j f hj := by
    cases hbefore : k.founding? j with
    | none => exact ⟨4, founding?_take_of_none hbefore hj ▸ .begun⟩
    | some f' =>
        obtain ⟨n, hstage⟩ := hsound.foundings j f' hbefore
        obtain ⟨found, m, hfound, hsite, hnext, _⟩ := founding?_take hsound hbefore hstage turn
        rw [hfound] at hj
        cases hj
        exact ⟨m, hsite ▸ hnext⟩
  grounded := by
    rcases k.tree_take turn with hsame | ⟨c, hanswer⟩
    · rw [hsame]
      exact hsound.grounded
    · rw [hanswer]
      exact hsound.grounded.answer c

/-! ## Runs -/

theorem sound_foldl (hsound : k.Sound) (turns : List (Turn ι κ)) :
    (turns.foldl take k).Sound := by
  induction turns generalizing k with
  | nil => exact hsound
  | cons turn turns ih => exact ih (sound_take hsound turn)

theorem stands_foldl (hsound : k.Sound) (turns : List (Turn ι κ)) :
    k.tree.Stands (turns.foldl take k).tree := by
  induction turns generalizing k with
  | nil => exact fun _ _ hhas => hhas
  | cons turn turns ih =>
      intro p hshort hhas
      exact ih (sound_take hsound turn) p hshort (stands_take hsound turn p hshort hhas)

theorem founding?_foldl (hsound : k.Sound) (hj : k.founding? j = some f) {n : Nat}
    (hstage : FoundingStage f.site k.tree n f.rest) (turns : List (Turn ι κ)) :
    ∃ f' m, (turns.foldl take k).founding? j = some f' ∧ f'.site = f.site ∧
      FoundingStage f.site (turns.foldl take k).tree m f'.rest ∧
        m ≤ n - turns.countP (Turn.isStep j) := by
  induction turns generalizing k f n with
  | nil => exact ⟨f, n, hj, rfl, hstage, Nat.le_refl n⟩
  | cons turn turns ih =>
      obtain ⟨f', m, hj', hsite, hstage', hm⟩ := founding?_take hsound hj hstage turn
      obtain ⟨f'', m', hj'', hsite', hstage'', hm'⟩ :=
        ih (sound_take hsound turn) hj' (hsite ▸ hstage')
      refine ⟨f'', m', hj'', hsite'.trans hsite, hsite ▸ hstage'', ?_⟩
      rw [List.countP_cons]
      omega

theorem settled_append (calls : List Call) (turns later : List (Turn ι κ)) :
    settled calls (turns ++ later) = later.foldl take (settled calls turns) :=
  List.foldl_append

theorem sound_settled (calls : List Call) (turns : List (Turn ι κ)) :
    (settled calls turns).Sound :=
  sound_foldl (sound_start calls) turns

/-- How a client fares that makes the root of a site, from some moment of a run on. -/
structure Founds (calls : List Call) (turns : List (Turn ι κ)) (j : κ) (s : Site) : Prop where
  returns : ∀ later, 4 ≤ later.countP (Turn.isStep j) →
    (settled calls (turns ++ later)).result? j =
      some (.ok ("/" ++ s.env.text ++ "/" ++ s.datamart.text))
  answers : ∀ result, (settled calls turns).result? j = some result →
    result = .ok ("/" ++ s.env.text ++ "/" ++ s.datamart.text)
  remains : (settled calls turns).result? j ≠ none → ∀ later,
    (settled calls (turns ++ later)).tree.Found ("/" ++ s.env.text) ∧
      (settled calls (turns ++ later)).tree.Found ("/" ++ s.env.text ++ "/" ++ s.datamart.text)
  keeps : ∀ now,
    (settled calls turns).tree.Keeps (settled calls (turns ++ [.proceed j now])).tree
  idle : (settled calls turns).tree.Found ("/" ++ s.env.text ++ "/" ++ s.datamart.text) →
    ∀ later now, (settled calls (turns ++ later ++ [.proceed j now])).tree =
      (settled calls (turns ++ later)).tree

theorem has_above_of_root {t : Tree} {s : Site} (hgrounded : t.Grounded)
    (hroot : t.has s.root = true) : t.has s.above = true := by
  rcases Tree.has_eq_true_iff.mp hroot with hempty | ⟨node, hnode⟩
  · exact absurd hempty s.root_ne_root
  · exact hgrounded.has_of_prefix hnode ⟨[s.datamart.text], rfl⟩

theorem stage_settled {calls : List Call} {turns : List (Turn ι κ)}
    (hj : (settled calls turns).founding? j = some f) (later : List (Turn ι κ)) :
    ∃ f' m, (settled calls (turns ++ later)).founding? j = some f' ∧ f'.site = f.site ∧
      FoundingStage f.site (settled calls (turns ++ later)).tree m f'.rest ∧
        m ≤ 4 - later.countP (Turn.isStep j) := by
  have hsound := sound_settled calls turns
  obtain ⟨n, hstage⟩ := hsound.foundings j f hj
  obtain ⟨f', m, hj', hsite, hstage', hm⟩ := founding?_foldl hsound hj hstage later
  have hn := hstage.le_four
  rw [settled_append]
  exact ⟨f', m, hj', hsite, hstage', by omega⟩

/-- Whoever else makes roots, asks for epochs or calls the store, a client that makes a root is told
its path after four steps, and from then on the root and its environment are there.  No step of it
changes a node that was there, and none changes anything once the root is there. -/
theorem founds {calls : List Call} {turns : List (Turn ι κ)} {j : κ} {f : Founding}
    (hj : (settled calls turns).founding? j = some f) : Founds calls turns j f.site := by
  have hsound := sound_settled calls turns
  obtain ⟨n, hstage⟩ := hsound.foundings j f hj
  have hresult : (settled calls turns).result? j = f.rest.result? := by
    rw [result?, hj, Option.bind_some]
  constructor
  case returns =>
    intro later hsteps
    obtain ⟨f', m, hj', _, hstage', hm⟩ := stage_settled hj later
    obtain rfl : m = 0 := by omega
    rw [result?, hj', Option.bind_some, hstage'.result_of_zero, f.site.text_root]
  case answers =>
    intro result hfound
    rw [hresult] at hfound
    rw [(hstage.of_result hfound).1, f.site.text_root]
  case remains =>
    intro hended later
    obtain ⟨result, hfound⟩ := Option.ne_none_iff_exists'.mp hended
    rw [hresult] at hfound
    obtain ⟨_, habove, hroot⟩ := hstage.of_result hfound
    have hstands := stands_foldl hsound later
    rw [← f.site.text_root, ← f.site.text_above, Tree.found_text_iff, Tree.found_text_iff,
      settled_append]
    exact ⟨hstands f.site.above (by simp [Site.above]) habove,
      hstands f.site.root (by simp [Site.root]) hroot⟩
  case keeps =>
    intro now
    rw [settled_append, List.foldl_cons, List.foldl_nil, take_proceed_of_some hj]
    exact (hstage.step now).keeps
  case idle =>
    intro hfound later now
    rw [← f.site.text_root, Tree.found_text_iff] at hfound
    obtain ⟨f', m, hj', hsite, hstage', _⟩ := stage_settled hj later
    have hroot : (settled calls (turns ++ later)).tree.has f.site.root = true := by
      rw [settled_append]
      exact stands_foldl hsound later _ (by simp [Site.root]) hfound
    have habove := has_above_of_root (sound_settled calls (turns ++ later)).grounded hroot
    rw [settled_append calls (turns ++ later), List.foldl_cons, List.foldl_nil,
      take_proceed_of_some hj']
    exact (hstage'.step now).idle habove hroot

section Samples

/-- Two clients make the same root at once, a third makes another one in the same environment, and a
request comes in as soon as there is a root. -/
def race : List (Turn Nat Nat) :=
  [.begin 0 Sample.site, .begin 1 Sample.site, .begin 2 ⟨Sample.env, Sample.env⟩,
    .proceed 0 Sample.time, .proceed 1 Sample.time, .proceed 2 Sample.time, .proceed 1 Sample.time,
    .proceed 0 Sample.time, .request (Sample.begins 0 .openDelta)] ++
    (Sample.proceeds 0 20).map .request ++
    [.proceed 0 Sample.time, .call (.create "/test/dtm/note" []) rfl, .proceed 2 Sample.time]

theorem founds_race :
    ((settled [] race).founding? 0).map Founding.site = some Sample.site ∧
      (settled [] race).cluster.result? 0 ≠ none ∧
        (settled [] (race ++ [.proceed 0 Sample.time, .proceed 1 Sample.time,
          .proceed 0 Sample.time, .proceed 0 Sample.time, .proceed 0 Sample.time])).result? 0 =
            some (.ok "/test/dtm") := by
  have hrun : ((settled [] race).founding? 0).map Founding.site = some Sample.site ∧
      ((settled [] race).cluster.result? 0).isSome = true := by decide +kernel
  obtain ⟨hsite, hanswered⟩ := hrun
  obtain ⟨f, hj, hf⟩ := Option.map_eq_some_iff.mp hsite
  refine ⟨hsite, Option.isSome_iff_ne_none.mp hanswered, ?_⟩
  have hreturns := (founds hj).returns [.proceed 0 Sample.time, .proceed 1 Sample.time,
    .proceed 0 Sample.time, .proceed 0 Sample.time, .proceed 0 Sample.time] (by decide)
  rw [hf] at hreturns
  exact hreturns

end Samples

end Settlement

end DeltaLedger
