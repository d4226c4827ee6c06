import DeltaLedger.Proofs.CommittedRanges
import DeltaLedger.Proofs.Issuance

/-!
# The life of a write

Under every change number there is at most one life.  The node of the number is created by
the registration that is given the number, with what it asked for and in progress.  It is
changed at most once, in its status, which is then final, and it is removed at most once.
The number is not given out again, so nothing comes after.

The induction is over the trees that the store has been.  That a removed node stays away,
and that a finished one is not finished again, follows from how a book leads to a later one.
-/

namespace DeltaLedger

/-- The trees that a store has been, the oldest first. -/
def History.trees : History → List Tree
  | start t => [t]
  | next h t => h.trees ++ [t]

theorem History.mem_trees_of_le {h h' : History} (hle : h ≤ h') : h.now ∈ h'.trees := by
  induction hle with
  | refl => cases h <;> simp [trees, now]
  | next _ ih => exact List.mem_append_left _ ih

theorem History.exists_of_mem_trees {h : History} {t : Tree} (ht : t ∈ h.trees) :
    ∃ u, u ≤ h ∧ u.now = t := by
  induction h with
  | start first => exact ⟨_, le_refl _, (List.mem_singleton.mp ht).symm⟩
  | next h last ih =>
      rcases List.mem_append.mp ht with hearlier | hlast
      · obtain ⟨u, hle, hu⟩ := ih hearlier
        exact ⟨u, le_next hle last, hu⟩
      · exact ⟨_, le_refl _, (List.mem_singleton.mp hlast).symm⟩

/-- What the node of a change number can be read as, with its version. -/
def Site.written? (s : Site) (n : Int) (t : Tree) : Option (Except Failure WriteOperation × Nat) :=
  t.nodes[s.path (.write n)]?.map fun node =>
    (Stored.decode WriteOperation (s.path (.write n)).text node.data, node.version)

/-- A node that holds an entry. -/
def Versioned.written (entry : Versioned WriteOperation) : Except Failure WriteOperation × Nat :=
  (.ok entry.record, entry.version)

theorem Site.written?_eq {s : Site} {t : Tree} (hkept : s.Kept t) (n : Int) :
    s.written? n t = ((s.book t).write n).map Versioned.written := by
  cases hnode : t.nodes[s.path (.write n)]? with
  | none => simp [written?, book, Tree.record?, hnode]
  | some node =>
      obtain ⟨record, hdecode⟩ := hkept.reads (.write n) node hnode
      simp [written?, book, Tree.record?_of_decode hnode hdecode, hnode, hdecode,
        Versioned.written]

/-! ## Lives -/

namespace WriteOperation

/-- How an entry is first kept. -/
def opened (first : WriteOperation) : Versioned WriteOperation :=
  ⟨first, 0⟩

/-- How an entry is kept once it has a final status. -/
def ended (first : WriteOperation) (status : WriteStatus) : Versioned WriteOperation :=
  ⟨{ first with status }, 1⟩

/-- The states of a node over time, and the last of them: it is not there, then it is in
progress, then it may be finished, and then it may be gone. -/
inductive Lived (first : WriteOperation) :
    List (Option (Versioned WriteOperation)) → Option (Versioned WriteOperation) → Prop where
  | born (before : Nat) :
      Lived first (List.replicate before none ++ [some first.opened]) (some first.opened)
  | kept {states : List (Option (Versioned WriteOperation))}
      {last : Option (Versioned WriteOperation)} (hlived : Lived first states last) :
      Lived first (states ++ [last]) last
  | finished {states : List (Option (Versioned WriteOperation))}
      (hlived : Lived first states (some first.opened)) {status : WriteStatus}
      (hstatus : status ≠ .inProgress) :
      Lived first (states ++ [some (first.ended status)]) (some (first.ended status))
  | removed {states : List (Option (Versioned WriteOperation))} {entry : Versioned WriteOperation}
      (hlived : Lived first states (some entry)) : Lived first (states ++ [none]) none

/-- A life by how long each part of it lasts. -/
def life (first : WriteOperation) (status : WriteStatus) (before present final after : Nat) :
    List (Option (Versioned WriteOperation)) :=
  List.replicate before none ++ List.replicate present (some first.opened) ++
    List.replicate final (some (first.ended status)) ++ List.replicate after none

section Lives

variable {first : WriteOperation} {status : WriteStatus} {before present final after : Nat}
variable {states : List (Option (Versioned WriteOperation))}
variable {last : Option (Versioned WriteOperation)} {entry entry' : Versioned WriteOperation}

theorem life_opened : first.life status before present 0 0 ++ [some first.opened] =
    first.life status before (present + 1) 0 0 := by
  simp [life, List.replicate_succ']

theorem life_ended : first.life status before present final 0 ++ [some (first.ended status)] =
    first.life status before present (final + 1) 0 := by
  simp [life, List.replicate_succ']

theorem life_after : first.life status before present final after ++ [none] =
    first.life status before present final (after + 1) := by
  simp [life, List.replicate_succ']

/-- The part of a life that its last state belongs to. -/
inductive Stage (first : WriteOperation) (status : WriteStatus) :
    Nat → Nat → Option (Versioned WriteOperation) → Prop where
  | present : Stage first status 0 0 (some first.opened)
  | final (n : Nat) : Stage first status (n + 1) 0 (some (first.ended status))
  | after (m n : Nat) : Stage first status m (n + 1) none

theorem Lived.exists_stage (hlived : Lived first states last) :
    ∃ status before present final after, status ≠ .inProgress ∧ 0 < present ∧
      states = first.life status before present final after ∧
        Stage first status final after last := by
  induction hlived with
  | born before =>
      exact ⟨.success, before, 1, 0, 0, by decide, by decide, by simp [life], .present⟩
  | kept hlived ih =>
      obtain ⟨status, before, present, final, after, hstatus, hpresent, rfl, hstage⟩ := ih
      cases hstage with
      | present =>
          exact ⟨status, before, present + 1, 0, 0, hstatus, Nat.succ_pos _, life_opened, .present⟩
      | final n =>
          exact ⟨status, before, present, n + 2, 0, hstatus, hpresent, life_ended, .final _⟩
      | after _ n =>
          exact ⟨status, before, present, final, n + 2, hstatus, hpresent, life_after, .after _ _⟩
  | @finished states hlived status hstatus ih =>
      obtain ⟨_, before, present, final, after, _, hpresent, rfl, hstage⟩ := ih
      generalize hlast : some first.opened = last at hstage
      cases hstage with
      | present =>
          exact ⟨status, before, present, 1, 0, hstatus, hpresent, by simp [life], .final 0⟩
      | final => simp [opened, ended] at hlast
      | after => cases hlast
  | removed hlived ih =>
      obtain ⟨status, before, present, final, after, hstatus, hpresent, rfl, hstage⟩ := ih
      cases hstage with
      | present => exact ⟨status, before, present, 0, 1, hstatus, hpresent, life_after, .after _ _⟩
      | final n =>
          exact ⟨status, before, present, n + 1, 1, hstatus, hpresent, life_after, .after _ _⟩

/-- Only the first state of an entry is in progress. -/
theorem Lived.eq_opened (hlived : Lived first states (some entry))
    (hprogress : entry.record.status = .inProgress) : entry = first.opened := by
  obtain ⟨status, _, _, _, _, hstatus, _, _, hstage⟩ := hlived.exists_stage
  cases hstage with
  | present => rfl
  | final => exact absurd hprogress hstatus

/-- An entry that is later what it was, or finished, continues a life; so does its removal. -/
theorem Lived.leads (hlived : Lived first states last)
    {next : Option (Versioned WriteOperation)}
    (hleads : ∀ entry', next = some entry' → ∃ entry, last = some entry ∧ Leads entry entry') :
    Lived first (states ++ [next]) next := by
  cases next with
  | none =>
      cases last with
      | none => exact hlived.kept
      | some entry => exact hlived.removed
  | some entry' =>
      obtain ⟨entry, rfl, rfl | ⟨hprogress, status, hstatus, rfl⟩⟩ := hleads entry' rfl
      · exact hlived.kept
      · obtain rfl := hlived.eq_opened hprogress
        exact hlived.finished hstatus

end Lives

end WriteOperation

/-! ## The lives of the numbers -/

namespace Book

variable {b b' : Book} {m : Move} {n : Int} {entry : Versioned WriteOperation}

/-- A new entry is that of a registration. -/
theorem Moves.opened_of_new_entry (hmoves : b.Moves m b') (hbefore : b.write n = none)
    (hafter : b'.write n = some entry) :
    ∃ datamart r, entry = (Registration.entry r datamart n).opened := by
  obtain ⟨hn, hgrown, _⟩ := hmoves.of_new_entry hbefore (by simp [hafter])
  have hregistered : ∃ datamart r, m = .registered datamart r := by
    by_contra hother
    have hsame := hmoves.nextCn_eq fun datamart r hm => hother ⟨datamart, r, hm⟩
    omega
  obtain ⟨datamart, r, rfl⟩ := hregistered
  have hentry := hmoves.entry_registered.2
  rw [← hn, hafter] at hentry
  exact ⟨datamart, r, Option.some.inj hentry⟩

end Book

section Histories

variable {s : Site} {n : Int} {h : History}

/-- The states of a change number over time. -/
def Site.states (s : Site) (n : Int) (h : History) : List (Option (Versioned WriteOperation)) :=
  h.trees.map fun t => (s.book t).write n

theorem History.Orderly.written_eq (horderly : h.Orderly) (s : Site) (n : Int) :
    h.trees.map (s.written? n) = (s.states n h).map (Option.map Versioned.written) := by
  rw [Site.states, List.map_map]
  apply List.map_congr_left
  intro t ht
  obtain ⟨u, hle, rfl⟩ := History.exists_of_mem_trees ht
  exact Site.written?_eq ((horderly.of_le hle).kept s) n

/-- Under a change number there has been nothing so far, or it is in use and has its life. -/
theorem History.Orderly.lived (horderly : h.Orderly) (s : Site) (n : Int) :
    (∃ k, s.states n h = List.replicate k none) ∧ (s.book h.now).write n = none ∨
      (0 ≤ n ∧ n < (s.book h.now).sequence.nextCn) ∧ ∃ datamart r,
        WriteOperation.Lived (Registration.entry r datamart n) (s.states n h)
          ((s.book h.now).write n) := by
  induction horderly with
  | start hfounded =>
      left
      simp only [Site.states, History.trees, List.map_cons, List.map_nil, History.now,
        Site.book_of_founded hfounded]
      exact ⟨⟨1, rfl⟩, rfl⟩
  | @next h t horderly hchanges ih =>
      have hstates : s.states n (h.next t) = s.states n h ++ [(s.book t).write n] := by
        simp [Site.states, History.trees]
      have hleads := hchanges.leads (horderly.valid s)
      rw [hstates]
      rcases ih with ⟨⟨k, hnone⟩, hbefore⟩ | ⟨⟨hlow, hn⟩, datamart, r, hlived⟩
      · cases hafter : (s.book t).write n with
        | none =>
            left
            rw [hnone, ← List.replicate_succ']
            exact ⟨⟨k + 1, rfl⟩, hafter⟩
        | some entry =>
            right
            rcases hchanges.book s with hsame | ⟨m, hturns⟩
            · rw [hsame, hbefore] at hafter
              cases hafter
            · obtain ⟨datamart, r, rfl⟩ := hturns.moves.opened_of_new_entry hbefore hafter
              have hvalid := (horderly.next hchanges).valid s
              refine ⟨(hvalid.issued n _ hafter).2, datamart, r, ?_⟩
              rw [hnone, History.now, hafter]
              exact .born k
      · right
        refine ⟨⟨hlow, Int.lt_of_lt_of_le hn hleads.nextCn⟩, datamart, r, hlived.leads ?_⟩
        exact fun entry' hentry' => hleads.write n entry' hn hentry'

/-- The first state of a life is the entry that a registration was seen to make. -/
theorem WriteOperation.Lived.eq_of_mem {first found : WriteOperation}
    {states : List (Option (Versioned WriteOperation))} {last : Option (Versioned WriteOperation)}
    (hlived : Lived first states last) (hmem : some found.opened ∈ states) : first = found := by
  obtain ⟨status, before, present, final, after, _, _, rfl, _⟩ := hlived.exists_stage
  simp only [life, List.mem_append, List.mem_replicate] at hmem
  simp only [opened, ended] at hmem
  simp_all

end Histories

open Cluster

/-- Whatever requests are at work, a change number that was given to no registration never
has a node.  The node of any other is created once, by the registration that was given the
number and with exactly what this asked for, and is in progress; it is changed at most once,
in nothing but its status, which then is final; and it is removed at most once, for good. -/
theorem write_lives {ι : Type} [DecidableEq ι] (time : DateTime) (roots : List (Name × String))
    (actions : List (Action ι)) (s : Site) :
    (∀ n : Int, (∀ m : Nat, n = m →
        ((start (.rooted time roots)).registrations s actions)[m]? = none) →
      ∀ t ∈ (run time roots actions).history.trees, s.written? n t = none) ∧
      ∀ (n : Nat) i, ((start (.rooted time roots)).registrations s actions)[n]? = some i →
        ∃ task r status before present final after,
          (run time roots actions).task? i = some task ∧ task.Issued s n ∧
            task.request.command = .registerWrite r ∧ status ≠ .inProgress ∧ 0 < present ∧
              (run time roots actions).history.trees.map (s.written? n) =
                ((r.entry s.datamart.text n).life status before present final after).map
                  (Option.map Versioned.written) := by
  have hissues := issues_run time roots actions s
  have hsound := sound_run time roots actions
  generalize (start (.rooted time roots)).registrations s actions = ids at hissues
  generalize run time roots actions = k at hissues hsound
  have hstates : ∀ n, k.history.trees.map (s.written? n) =
      (s.states n k.history).map (Option.map Versioned.written) :=
    fun n => hsound.orderly.written_eq s n
  constructor
  · intro n hids t ht
    have hmem : s.written? n t ∈ k.history.trees.map (s.written? n) := List.mem_map_of_mem ht
    rcases hsound.orderly.lived s n with ⟨⟨length, hnone⟩, _⟩ | ⟨⟨hlow, hhigh⟩, _⟩
    · rw [hstates, hnone, List.map_replicate] at hmem
      exact List.eq_of_mem_replicate hmem
    · -- A number below the next one was given to a registration.
      have hnext := hissues.count
      have hgiven := hids n.toNat (by omega)
      rw [List.getElem?_eq_none_iff] at hgiven
      omega
  · intro n i hi
    obtain ⟨task, htask, hissued⟩ := hissues.issued n i hi
    obtain ⟨r, call, h, before, hcommand, htrail, _, _, _, hentry⟩ := hissued.entered
    have hle := (hsound.tasks i task htask).precedes call h (by simp [htrail])
    have hmem : some (r.entry s.datamart.text n).opened ∈ s.states n k.history :=
      hentry ▸ List.mem_map_of_mem (History.mem_trees_of_le hle)
    rcases hsound.orderly.lived s n with ⟨⟨length, hnone⟩, _⟩ | ⟨_, datamart, r', hlived⟩
    · rw [hnone] at hmem
      cases List.eq_of_mem_replicate hmem
    · rw [hlived.eq_of_mem hmem] at hlived
      obtain ⟨status, before, present, final, after, hstatus, hpresent, hlife, _⟩ :=
        hlived.exists_stage
      refine ⟨task, r, status, before, present, final, after, htask, hissued, hcommand, hstatus,
        hpresent, ?_⟩
      rw [hstates, hlife]

section Samples

/-- One write is finished and discarded with its epoch, the other is withdrawn. -/
def twoWrites : List (Action Nat) :=
  Sample.alone 0 .openDelta ++ Sample.alone 1 (.registerWrite ⟨"a", "a_ext", "q"⟩) ++
    Sample.alone 2 (.registerWrite ⟨"b", "b_ext", "q"⟩) ++ Sample.alone 3 (.withdrawWrite 1) ++
      Sample.alone 4 (.succeedWrite 0) ++ Sample.alone 5 .discardDelta

theorem write_lives_discarded :
    ((start (.rooted Sample.time Sample.roots)).registrations Sample.site twoWrites)[0]? = some 1 ∧
      ∃ task r status before present final after,
        (run Sample.time Sample.roots twoWrites).task? 1 = some task ∧ task.Issued Sample.site 0 ∧
          task.request.command = .registerWrite r ∧ status ≠ .inProgress ∧ 0 < present ∧
            (run Sample.time Sample.roots twoWrites).history.trees.map (Sample.site.written? 0) =
              ((r.entry "dtm" 0).life status before present final after).map
                (Option.map Versioned.written) := by
  have hid : ((start (.rooted Sample.time Sample.roots)).registrations Sample.site
      twoWrites)[0]? = some 1 := by decide +kernel
  exact ⟨hid, (write_lives Sample.time Sample.roots twoWrites Sample.site).2 0 1 hid⟩

end Samples

end DeltaLedger
