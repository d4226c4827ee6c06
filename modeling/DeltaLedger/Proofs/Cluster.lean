import DeltaLedger.Datamart.Root
import DeltaLedger.Proofs.ServedRequests

/-!
# Clusters

A cluster is a store with requests at work on it.  At every moment any of them may
take its next step, a request may come in, and one that never takes another step has
stopped.  Every call is served as one step.  The history of the store and the trails of
the requests are written down on the way; no request looks at them.
-/

namespace DeltaLedger

/-! ## Roots -/

/-- The tree after the roots of some datamarts were made. -/
def Tree.rooted (time : DateTime) : List (Name × String) → Tree
  | [] => .empty
  | root :: roots =>
    ((Datamart.ensureRoot root.1 root.2).runAlone time (rooted time roots)).2

/-- Calls that create an empty node where environments and datamarts have theirs. -/
def Call.Founds (c : Call) : Prop :=
  ∃ p : Path, p ≠ Path.root ∧ p.names.length ≤ 2 ∧ c = .create p.text []

section Roots

theorem founded_answer {c : Call} {t : Tree} (hfounds : c.Founds) (hfounded : t.Founded) :
    (t.answer c).2.Founded := by
  obtain ⟨p, hp, hshort, rfl⟩ := hfounds
  change (t.alter (.create p.text [])).2.Founded
  unfold Tree.alter
  cases hstep : t.step (.create p.text []) with
  | error refusal => cases refusal <;> exact hfounded
  | ok done =>
      obtain ⟨_, _, _, hput⟩ := (Tree.step_create_iff hp).mp hstep
      intro q node hnode
      change done.2.nodes[q]? = some node at hnode
      rw [hput, Tree.getElem?_put] at hnode
      split at hnode
      next hq =>
        rw [← hq]
        exact hshort
      next => exact hfounded q node hnode

theorem makes_ensureNode {p : Path} (hp : p ≠ Path.root) (hshort : p.names.length ≤ 2) :
    (Datamart.ensureNode p.text).Makes Call.Founds := by
  apply Program.Makes.bind
  · refine ⟨⟨p, hp, hshort, rfl⟩, ?_⟩
    intro reply
    cases reply <;> trivial
  · intro outcome
    cases outcome <;> trivial

theorem makes_ensureRoot (env : Name) (datamart : String) :
    (Datamart.ensureRoot env datamart).Makes Call.Founds := by
  unfold Datamart.ensureRoot Datamart.parseRoot
  cases hname : Datamart.parseName datamart with
  | error e => trivial
  | ok name =>
      change ((Datamart.ensureNode (Datamart.envPath env) >>= fun _ =>
        Datamart.ensureNode (Datamart.rootPath env name) >>= fun _ =>
          pure (Datamart.rootPath env name)) : Program StoreError String).Makes _
      rw [Site.envPath_eq env, Site.rootPath_eq ⟨env, name⟩]
      refine Program.Makes.bind (makes_ensureNode ?_ (by simp)) ?_
      · intro hroot
        cases congrArg Path.names hroot
      · intro _
        refine Program.Makes.bind (makes_ensureNode ?_ (by simp [Site.root])) fun _ => trivial
        exact Site.root_ne_root ⟨env, name⟩

theorem founded_rooted (time : DateTime) (roots : List (Name × String)) :
    (Tree.rooted time roots).Founded := by
  induction roots with
  | nil =>
      intro p node hnode
      simp [Tree.rooted, Tree.empty] at hnode
  | cons root roots ih =>
      exact (makes_ensureRoot root.1 root.2).runAlone Tree.Founded (fun c t => founded_answer) ih

end Roots

/-! ## Steps -/

structure Task where
  coordinator : Coordinator
  request : Request
  rest : Program Failure Response
  trail : Trail

def Task.result? (task : Task) : Option (Except Failure Response) :=
  match task.rest with
  | .done result => some result
  | _ => none

theorem Task.rest_of_result? {task : Task} {result : Except Failure Response}
    (hresult : task.result? = some result) : task.rest = .done result := by
  unfold Task.result? at hresult
  split at hresult
  next found hrest =>
    cases hresult
    exact hrest
  next => cases hresult

structure Cluster (ι : Type) where
  history : History
  task? : ι → Option Task

inductive Action (ι : Type) where
  | begin (i : ι) (c : Coordinator) (r : Request)
  | proceed (i : ι) (now : DateTime)

namespace Cluster

variable {ι : Type} [DecidableEq ι]

def start (t : Tree) : Cluster ι :=
  ⟨.start t, fun _ => none⟩

def withTask (k : Cluster ι) (i : ι) (task : Task) : Cluster ι :=
  { k with task? := fun j => if j = i then some task else k.task? j }

/-- One step of a request; the clock shows `now`. -/
def advance (k : Cluster ι) (i : ι) (now : DateTime) (task : Task) : Cluster ι :=
  match task.rest with
  | .done _ => k
  | .call c next =>
    { k.withTask i
        { task with
          rest := next (k.history.now.answer c).1
          trail := .answered c k.history :: task.trail } with
      history := k.history.next (k.history.now.answer c).2 }
  | .clock next => k.withTask i { task with rest := next now, trail := .told now :: task.trail }
  | .note _ next => k.withTask i { task with rest := next }

def act (k : Cluster ι) : Action ι → Cluster ι
  | .begin i c r =>
    match k.task? i with
    | some _ => k
    | none => k.withTask i ⟨c, r, c.serve r, []⟩
  | .proceed i now =>
    match k.task? i with
    | some task => k.advance i now task
    | none => k

/-- A run from a tree in which only roots were made. -/
def run (time : DateTime) (roots : List (Name × String)) (actions : List (Action ι)) : Cluster ι :=
  actions.foldl act (start (.rooted time roots))

def result? (k : Cluster ι) (i : ι) : Option (Except Failure Response) :=
  (k.task? i).bind Task.result?

end Cluster

/-! ## What holds in every cluster -/

theorem Trail.Precedes.mono {trail : Trail} {h h' : History} (hprecedes : trail.Precedes h)
    (hle : h ≤ h') : trail.Precedes h' :=
  fun c first hmem => History.le_trans (hprecedes c first hmem) hle

theorem Trail.Precedes.answered {trail : Trail} {c : Call} {h : History}
    (hprecedes : trail.Precedes h) :
    Trail.Precedes (.answered c h :: trail) (h.next (h.now.answer c).2) := by
  intro c' h' hmem
  rcases List.mem_cons.mp hmem with hhead | htail
  · cases hhead
    exact History.le_refl _
  · exact History.le_next (hprecedes c' h' htail) _

theorem Trail.Precedes.told {trail : Trail} {now : DateTime} {h : History}
    (hprecedes : trail.Precedes h) : Trail.Precedes (.told now :: trail) h := by
  intro c h' hmem
  rcases List.mem_cons.mp hmem with hhead | htail
  · cases hhead
  · exact hprecedes c h' htail

namespace Task

/-- The sites of a request: the one of its datamart, if the name is one. -/
def Sites (task : Task) : Site → Prop :=
  task.coordinator.Serves task.request.datamart

/-- A request is safe to go on after what it has seen. -/
structure Sound (task : Task) (h : History) : Prop where
  safe : task.rest.Safe task.Sites (Ends task.coordinator task.request) task.trail
  precedes : task.trail.Precedes h

theorem sound_serve {c : Coordinator} {r : Request} {h : History} :
    Sound ⟨c, r, c.serve r, []⟩ h where
  safe := safe_serve c r
  precedes := nofun

end Task

namespace Cluster

variable {ι : Type}

/-- The history is orderly, and every request is sound. -/
structure Sound (k : Cluster ι) : Prop where
  orderly : k.history.Orderly
  tasks : ∀ i task, k.task? i = some task → task.Sound k.history

theorem sound_start {t : Tree} (hfounded : t.Founded) : (start t : Cluster ι).Sound where
  orderly := .start hfounded
  tasks i task hi := by cases hi

variable [DecidableEq ι] {k : Cluster ι} {i : ι} {task task' : Task}

theorem withTask_self : (k.withTask i task').task? i = some task' :=
  if_pos rfl

theorem withTask_of_ne {j : ι} (hne : j ≠ i) : (k.withTask i task').task? j = k.task? j :=
  if_neg hne

theorem Sound.update {h' : History} (hsound : k.Sound) (hle : k.history ≤ h')
    (horderly : h'.Orderly) (htask : task'.Sound h') :
    Sound { k.withTask i task' with history := h' } where
  orderly := horderly
  tasks j task hj := by
    by_cases hsame : j = i
    · subst hsame
      obtain rfl := Option.some.inj (withTask_self.symm.trans hj)
      exact htask
    · obtain ⟨hsafe, hprecedes⟩ := hsound.tasks j task ((withTask_of_ne hsame).symm.trans hj)
      exact ⟨hsafe, hprecedes.mono hle⟩

theorem Sound.advance {now : DateTime} (hsound : k.Sound) (hi : k.task? i = some task) :
    (k.advance i now task).Sound := by
  obtain ⟨hsafe, hprecedes⟩ := hsound.tasks i task hi
  have hpresent : k.history ≤ k.history := History.le_refl _
  unfold Cluster.advance
  split
  next => exact hsound
  next c next hrest =>
    rw [hrest] at hsafe
    obtain ⟨hcall, hnext⟩ := hsafe k.history hsound.orderly hprecedes
    have hlater : k.history ≤ k.history.next (k.history.now.answer c).2 :=
      History.le_next hpresent _
    exact hsound.update hlater (hsound.orderly.next hcall.changes) ⟨hnext, hprecedes.answered⟩
  next next hrest =>
    rw [hrest] at hsafe
    exact hsound.update hpresent hsound.orderly ⟨hsafe now, hprecedes.told⟩
  next notice next hrest =>
    rw [hrest] at hsafe
    exact hsound.update hpresent hsound.orderly ⟨hsafe, hprecedes⟩

theorem Sound.act (hsound : k.Sound) (action : Action ι) : (k.act action).Sound := by
  cases action with
  | begin i c r =>
      cases hi : k.task? i with
      | some task =>
          simp only [Cluster.act, hi]
          exact hsound
      | none =>
          simp only [Cluster.act, hi]
          exact hsound.update (History.le_refl _) hsound.orderly Task.sound_serve
  | proceed i now =>
      cases hi : k.task? i with
      | some task =>
          simp only [Cluster.act, hi]
          exact hsound.advance hi
      | none =>
          simp only [Cluster.act, hi]
          exact hsound

theorem sound_run (time : DateTime) (roots : List (Name × String)) (actions : List (Action ι)) :
    (run time roots actions).Sound := by
  have hfold : ∀ k : Cluster ι, k.Sound → (actions.foldl Cluster.act k).Sound := by
    induction actions with
    | nil => exact fun k hsound => hsound
    | cons action actions ih => exact fun k hsound => ih _ (hsound.act action)
  exact hfold _ (sound_start (founded_rooted time roots))

end Cluster

/-! ## A small cluster -/

namespace Sample

def env : Name :=
  ⟨"test", by decide, List.all_eq_true.mp (by decide)⟩

def time : DateTime :=
  ⟨⟨2021, 1, 1, by decide⟩, ⟨0, 0, 0, 0, by decide⟩⟩

def coordinator : Coordinator :=
  ⟨env, .utc, 3, by decide⟩

def site : Site :=
  ⟨env, ⟨"dtm", by decide, List.all_eq_true.mp (by decide)⟩⟩

theorem serves_site : coordinator.Serves "dtm" site :=
  ⟨rfl, rfl⟩

def roots : List (Name × String) :=
  [(env, "dtm")]

def begins (i : Nat) (command : Command) : Action Nat :=
  .begin i coordinator ⟨"dtm", command⟩

def proceeds (i count : Nat) : List (Action Nat) :=
  List.replicate count (.proceed i time)

def alone (i : Nat) (command : Command) : List (Action Nat) :=
  begins i command :: proceeds i 20

end Sample

end DeltaLedger
