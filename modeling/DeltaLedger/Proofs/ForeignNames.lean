import Mathlib.Data.List.Count
import Mathlib.Data.List.Nodup
import DeltaLedger.Proofs.AtomicRequests
import DeltaLedger.Proofs.GrownTrees
import DeltaLedger.Proofs.SpelledNumbers

/-!
# Foreign names below a datamart

Anybody may create nodes next to the records of a datamart.  A scan lists the names below a node and
reads one record for each name that spells a number, so a name that spells none has no effect, and a
record is read twice only if there are two spellings of its number.
-/

namespace DeltaLedger

open Program

/-! ## The calls of a scan -/

/-- The names that a store tells to be below a path. -/
def ObservedTree.names (store : ObservedTree) (path : String) : List String :=
  (Scope.namesResult (store.answer (.children path)).1).toOption.getD []

theorem ObservedTree.nodup_names (store : ObservedTree) (path : String) :
    (store.names path).Nodup := by
  unfold names answer
  cases hfailure : store.failure? (.children path) with
  | some e => cases e <;> simp [Scope.namesResult, Except.toOption]
  | none =>
      dsimp only [Tree.answer, Tree.atPath]
      split
      next => simp [Scope.namesResult, Except.toOption, StoreError.badPath]
      next p _ =>
        by_cases hhas : store.tree.has p = true
        · simpa [hhas, Scope.namesResult, Except.toOption] using Site.nodup_childNames store.tree p
        · simp [hhas, Scope.namesResult, Except.toOption, StoreError.nodeMissing]

/-- Some calls, the newest first, have read the records of some numbers in this order, or have come
to some of them. -/
def ReadInOrder (record : Int → String) (ns : List Int) (reads : List Encounter) : Prop :=
  (reads.map Encounter.call).reverse <+: ns.map fun n => .read (record n)

/-- All of the numbers have been come to. -/
def ReadAll (record : Int → String) (ns : List Int) (reads : List Encounter) : Prop :=
  (reads.map Encounter.call).reverse = ns.map fun n => .read (record n)

section Reading

variable {record : Int → String} {n : Int} {ns : List Int} {reads : List Encounter}
variable {seen : List Encounter} {store : ObservedTree}

theorem readInOrder_nil : ReadInOrder record ns [] :=
  List.nil_prefix

theorem ReadInOrder.cons (hreads : ReadInOrder record ns reads) :
    ReadInOrder record (n :: ns) (reads ++ [⟨.read (record n), store⟩]) := by
  simpa [ReadInOrder] using hreads

theorem ReadAll.cons (hreads : ReadAll record ns reads) :
    ReadAll record (n :: ns) (reads ++ [⟨.read (record n), store⟩]) := by
  simpa [ReadAll] using hreads

/-- What the reads of some numbers add to what was seen. -/
def AfterReads (record : Int → String) (ns : List Int) (before : List Encounter) {α : Type}
    (seen : List Encounter) (result : Except Failure α) : Prop :=
  ∃ reads, seen = reads ++ before ∧ ReadInOrder record ns reads ∧
    (result.isOk = true → ReadAll record ns reads)

theorem ensures_writesAt (s : Scope) (ns : List Int) :
    (s.writesAt ns).Ensures (AfterReads s.layout.write ns seen) seen := by
  induction ns generalizing seen with
  | nil => exact ⟨[], rfl, readInOrder_nil, fun _ => rfl⟩
  | cons n ns ih =>
      unfold Scope.writesAt
      apply Ensures.read
      · intro store e
        exact ⟨[⟨.read (s.layout.write n), store⟩], rfl, readInOrder_nil.cons,
          (absurd · Bool.false_ne_true)⟩
      · intro store found _
        apply ih.bind
        · rintro seen' entries ⟨reads, rfl, hreads, hall⟩
          exact ⟨reads ++ [⟨.read (s.layout.write n), store⟩], by simp, hreads.cons,
            fun _ => (hall rfl).cons⟩
        · rintro seen' e ⟨reads, rfl, hreads, -⟩
          exact ⟨reads ++ [⟨.read (s.layout.write n), store⟩], by simp, hreads.cons,
            (absurd · Bool.false_ne_true)⟩

theorem ensures_firstBy (s : Scope) (t : DateTime) (ns : List Int) :
    (s.firstBy t ns).Ensures
      (fun seen' _ => ∃ reads, seen' = reads ++ seen ∧ ReadInOrder s.layout.okDelta ns reads)
      seen := by
  induction ns generalizing seen with
  | nil => exact ⟨[], rfl, readInOrder_nil⟩
  | cons n ns ih =>
      unfold Scope.firstBy
      have hrest : ∀ store, (s.firstBy t ns).Ensures (fun seen' _ => ∃ reads,
          seen' = reads ++ seen ∧ ReadInOrder s.layout.okDelta (n :: ns) reads)
          (⟨.read (s.layout.okDelta n), store⟩ :: seen) := by
        intro store
        refine ih.mono ?_
        rintro seen' result ⟨reads, rfl, hreads⟩
        exact ⟨reads ++ [⟨.read (s.layout.okDelta n), store⟩], by simp, hreads.cons⟩
      apply Ensures.read
      · intro store e
        exact ⟨[⟨.read (s.layout.okDelta n), store⟩], rfl, readInOrder_nil.cons⟩
      · intro store found _
        cases found with
        | none => exact hrest store
        | some ok =>
            dsimp only
            split
            next => exact ⟨[⟨.read (s.layout.okDelta n), store⟩], rfl, readInOrder_nil.cons⟩
            next => exact hrest store

/-! ## One record for each spelling -/

section Counting

variable (hrecord : record.Injective)

include hrecord

theorem ReadInOrder.nodup (hreads : ReadInOrder record ns reads) (hnodup : ns.Nodup) :
    (reads.map Encounter.call).Nodup := by
  rw [← List.nodup_reverse]
  apply List.Nodup.sublist hreads.sublist
  exact hnodup.map fun m n hsame => hrecord (Call.read.inj hsame)

theorem count_map_read : (ns.map fun n => Call.read (record n)).count (.read (record n)) =
    ns.count n :=
  List.count_map_of_injective ns _ (fun _ _ hsame => hrecord (Call.read.inj hsame)) n

theorem ReadInOrder.count_le (hreads : ReadInOrder record ns reads) :
    (reads.map Encounter.call).count (.read (record n)) ≤ ns.count n := by
  rw [← List.count_reverse, ← count_map_read hrecord]
  exact hreads.sublist.count_le _

theorem ReadAll.count_eq (hreads : ReadAll record ns reads) :
    (reads.map Encounter.call).count (.read (record n)) = ns.count n := by
  rw [← List.count_reverse, hreads, count_map_read hrecord]

end Counting

end Reading

/-- What a scan makes of the names it was told: every record that it reads is that of a number which
one of the names spells, and it is read no more often than there are such names.  If only keys are
read as numbers, nothing is read twice. -/
structure ScansNames (record : Int → String) (names : List String) (reads : List Encounter) :
    Prop where
  spelled : ∀ e ∈ reads, ∃ n name, e.call = .read (record n) ∧ name ∈ names ∧
    Layout.number? name = some n
  perSpelling : ∀ n, (reads.map Encounter.call).count (.read (record n)) ≤
    names.countP fun name => Layout.number? name == some n
  once : (∀ name ∈ names, ∀ n, Layout.number? name = some n → name = Layout.key n) →
    (reads.map Encounter.call).Nodup

section Spellings

variable {record : Int → String} {names : List String} {ns : List Int} {reads : List Encounter}

theorem ReadInOrder.scansNames (hreads : ReadInOrder record ns reads) (hrecord : record.Injective)
    (hnodup : names.Nodup) (hns : ns.Perm (names.filterMap Layout.number?)) :
    ScansNames record names reads where
  spelled e he := by
    have hcall : e.call ∈ (reads.map Encounter.call).reverse :=
      List.mem_reverse.mpr (List.mem_map_of_mem he)
    obtain ⟨n, hn, hread⟩ := List.mem_map.mp (hreads.subset hcall)
    obtain ⟨name, hname, hnumber⟩ := List.mem_filterMap.mp (hns.mem_iff.mp hn)
    exact ⟨n, name, hread.symm, hname, hnumber⟩
  perSpelling n := by
    rw [← List.count_filterMap, ← hns.count_eq]
    exact hreads.count_le hrecord
  once hkeys := by
    apply hreads.nodup hrecord
    rw [hns.nodup_iff]
    exact Site.nodup_numbers hnodup hkeys

end Spellings

/-! ## Names that spell nothing -/

theorem Path.child_injective {p q : Path} {name name' : String} {hlegal : LegalName name}
    {hlegal' : LegalName name'} (hsame : p.child name hlegal = q.child name' hlegal') :
    p = q ∧ name = name' := by
  have hnames := congrArg Path.names hsame
  obtain ⟨hbefore, hlast⟩ := List.append_inj' hnames rfl
  exact ⟨Path.ext_names hbefore, List.singleton_inj.mp hlast⟩

theorem Tree.childNames_drop_child (t : Tree) (p q : Path) {name : String}
    (hlegal : LegalName name) : (t.drop (q.child name hlegal)).childNames p =
      (t.childNames p).filter fun name' => ¬(p = q ∧ name' = name) := by
  apply (pairwise_childNames _ p).eq_of_mem_iff ((t.pairwise_childNames p).filter _)
  intro name'
  rw [List.mem_filter, decide_eq_true_eq, mem_childNames_iff, mem_childNames_iff]
  by_cases hsame : p = q ∧ name' = name
  · obtain ⟨rfl, rfl⟩ := hsame
    simp [has_eq_true_iff, Path.child_ne_root, getElem?_drop]
  · have hkeeps : ∀ hlegal', (t.drop (q.child name hlegal)).has (p.child name' hlegal') =
        t.has (p.child name' hlegal') := by
      intro hlegal'
      apply has_drop_of_ne
      intro heq
      obtain ⟨hpath, hname⟩ := Path.child_injective heq
      exact hsame ⟨hpath.symm, hname.symm⟩
    simp only [hkeeps, hsame, not_false_iff, and_true]

theorem Tree.numbers_drop_child (t : Tree) (p q : Path) {name : String} (hlegal : LegalName name)
    (hnumber : Layout.number? name = none) :
    ((t.drop (q.child name hlegal)).childNames p).filterMap Layout.number? =
      (t.childNames p).filterMap Layout.number? := by
  rw [childNames_drop_child, List.filterMap_filter]
  congr 1
  funext name'
  by_cases hsame : p = q ∧ name' = name
  · simp [hsame, hnumber]
  · simp [hsame]

/-- A program gives the same on two trees and leaves both as they are. -/
def Program.Agrees {ε α : Type} (time : DateTime) (t t' : Tree) (p : Program ε α) : Prop :=
  ∃ result, p.runAlone time t = (result, t) ∧ p.runAlone time t' = (result, t')

section Agreement

variable {time : DateTime} {t t' : Tree} {scope : Scope} {s : Site}

theorem Program.Agrees.bind {ε α β : Type} {p : Program ε α} {f : α → Program ε β}
    (hagrees : p.Agrees time t t') (hnext : ∀ a, (f a).Agrees time t t') :
    (p >>= f).Agrees time t t' := by
  obtain ⟨result, hrun, hrun'⟩ := hagrees
  cases result with
  | error e => exact ⟨.error e, runAlone_bind_of_error hrun, runAlone_bind_of_error hrun'⟩
  | ok a =>
      obtain ⟨result, hrest, hrest'⟩ := hnext a
      exact ⟨result, (runAlone_bind_of_ok hrun).trans hrest, (runAlone_bind_of_ok hrun').trans hrest'⟩

theorem agrees_done {ε α : Type} (result : Except ε α) :
    (Program.done result).Agrees time t t' :=
  ⟨result, rfl, rfl⟩

theorem agrees_read (α : Type) [Stored α] {p : Path} (hsame : t.find? p = t'.find? p) :
    (Scope.read α p.text).Agrees time t t' := by
  rw [Scope.read_eq]
  refine ⟨Scope.readResult α p.text (.ok (t.find? p)), ?_, ?_⟩
  · rw [runAlone, Tree.answer_read]
    rfl
  · rw [runAlone, Tree.answer_read, hsame]
    rfl

variable (time) in
theorem runAlone_read_of_some {α : Type} [Stored α] {place : Place} {found : Versioned α}
    (hfound : t.record? α (s.path place) = some found) :
    (Scope.read α (s.path place).text).runAlone time t = (.ok (some found), t) := by
  obtain ⟨node, hnode, hdecode⟩ := Tree.node_of_record? hfound
  rw [Scope.read_eq, runAlone, Tree.answer_read, Tree.find?_of_ne_root (s.path_ne_root place), hnode]
  simp [Scope.readResult, hdecode, runAlone, Except.map]

/-- Two trees show the same numbers below a place of a site, and have the same records of them. -/
structure Site.Resembles (s : Site) (dir : Place) (record : Int → Place) (t t' : Tree) : Prop where
  numbers : (s.names dir t).filterMap Layout.number? = (s.names dir t').filterMap Layout.number?
  records : ∀ n, Decimal.Fits n → t.find? (s.path (record n)) = t'.find? (s.path (record n))

/-- Names matter only for what is made of them. -/
theorem agrees_namesBelow {α : Type} {dir : Place} {f : List String → Program Failure α}
    (hsame : f (s.names dir t) = f (s.names dir t'))
    (hnext : (f (s.names dir t)).Agrees time t t') :
    (Scope.namesBelow (s.path dir).text >>= f).Agrees time t t' := by
  obtain ⟨result, hrun, hrun'⟩ := hnext
  rw [hsame] at hrun'
  exact ⟨result, (runAlone_bind_of_ok runAlone_namesBelow).trans hrun,
    (runAlone_bind_of_ok runAlone_namesBelow).trans hrun'⟩

theorem Site.Resembles.records_of_mem {dir : Place} {record : Int → Place} {names : List String}
    (hresembles : s.Resembles dir record t t') {n : Int}
    (hn : n ∈ names.filterMap Layout.number?) :
    t.find? (s.path (record n)) = t'.find? (s.path (record n)) := by
  obtain ⟨name, _, hnumber⟩ := List.mem_filterMap.mp hn
  exact hresembles.records n (Layout.number?_eq_some_iff.mp hnumber).1

variable (hlayout : scope.layout = s.layout)

include hlayout

theorem agrees_writesAt {ns : List Int}
    (hrecords : ∀ n ∈ ns, t.find? (s.path (.write n)) = t'.find? (s.path (.write n))) :
    (scope.writesAt ns).Agrees time t t' := by
  induction ns with
  | nil => exact agrees_done _
  | cons n ns ih =>
      unfold Scope.writesAt
      rw [hlayout, Site.layout_write]
      apply (agrees_read _ (hrecords n List.mem_cons_self)).bind
      intro found
      apply (ih fun m hm => hrecords m (List.mem_cons_of_mem _ hm)).bind
      exact fun rest => agrees_done _

theorem agrees_firstBy {asOf : DateTime} {ns : List Int}
    (hrecords : ∀ n ∈ ns, t.find? (s.path (.ok n)) = t'.find? (s.path (.ok n))) :
    (scope.firstBy asOf ns).Agrees time t t' := by
  induction ns with
  | nil => exact agrees_done _
  | cons n ns ih =>
      have hrest := ih fun m hm => hrecords m (List.mem_cons_of_mem _ hm)
      unfold Scope.firstBy
      rw [hlayout, Site.layout_okDelta]
      apply (agrees_read _ (hrecords n List.mem_cons_self)).bind
      intro found
      cases found with
      | none => exact hrest
      | some ok =>
          dsimp only
          split
          next => exact agrees_done _
          next => exact hrest

theorem agrees_ledger (hresembles : s.Resembles .writes .write t t') :
    scope.ledger.Agrees time t t' := by
  unfold Scope.ledger
  rw [hlayout, Site.layout_writes]
  apply agrees_namesBelow
  · rw [hresembles.numbers]
  · apply (agrees_writesAt hlayout fun n hn => hresembles.records_of_mem hn).bind
    exact fun entries => agrees_done _

theorem agrees_readAsOf {asOf : DateTime} (hresembles : s.Resembles .okDeltas .ok t t') :
    (scope.readAsOf asOf).Agrees time t t' := by
  unfold Scope.readAsOf
  rw [hlayout, Site.layout_okDeltas]
  apply agrees_namesBelow
  · rw [List.filterMap_reverse, List.filterMap_reverse, hresembles.numbers]
  · exact agrees_firstBy hlayout fun n hn => hresembles.records_of_mem hn

end Agreement

/-- The places below which there is a record for each number. -/
inductive Place.Numbers : Place → (Int → Place) → Prop where
  | okDeltas : Numbers .okDeltas .ok
  | writes : Numbers .writes .write

section Foreign

variable {s : Site} {t : Tree} {place dir dir' : Place} {record record' : Int → Place}
variable {name : String}

theorem Site.path_ne_child {hlegal : LegalName name} (hne : place.names ≠ dir.names ++ [name]) :
    s.path place ≠ (s.path dir).child name hlegal := by
  intro hsame
  have hchild := (s.path dir).childName?_child hlegal
  rw [← hsame] at hchild
  exact hne (place_of_childName? hchild)

/-- Nothing that a scan makes use of goes away with a name that spells no number. -/
theorem resembles_drop_child (hdir : dir.Numbers record) (hdir' : dir'.Numbers record')
    (hlegal : LegalName name) (hnumber : Layout.number? name = none) :
    s.Resembles dir record t (t.drop ((s.path dir').child name hlegal)) where
  numbers := by
    have hne : s.path dir ≠ (s.path dir').child name hlegal :=
      Site.path_ne_child (by cases hdir <;> cases hdir' <;> simp [Place.names])
    unfold Site.names
    rw [Tree.has_drop_of_ne hne.symm]
    split
    next => exact (t.numbers_drop_child _ _ hlegal hnumber).symm
    next => rfl
  records n hfits := by
    have hne : s.path (record n) ≠ (s.path dir').child name hlegal := by
      apply Site.path_ne_child
      intro hnames
      have hkey : Layout.key n = name := by
        cases hdir <;> cases hdir' <;> simp [Place.names] at hnames <;> exact hnames
      rw [← hkey, Layout.number?_key hfits] at hnumber
      cases hnumber
    simp only [Tree.find?, Tree.getElem?_drop, if_neg hne.symm]

end Foreign

/-! ## What names mean to a scan -/

/-- How the scans of a datamart take the names that they are told. -/
structure ReadsSpelled (scope : Scope) (s : Site) : Prop where
  spelled : ∀ name n, Layout.number? name = some n ↔ Decimal.Fits n ∧ Layout.Spells name n
  ledger : scope.ledger.Ensures (fun seen result => ∃ store reads,
    seen = reads ++ [⟨.children s.layout.writes, store⟩] ∧
      ScansNames s.layout.write (store.names s.layout.writes) reads ∧
        (result.isOk = true → ∀ n, (reads.map Encounter.call).count (.read (s.layout.write n)) =
          (store.names s.layout.writes).countP fun name => Layout.number? name == some n)) []
  readAsOf : ∀ t, (scope.readAsOf t).Ensures (fun seen _ => ∃ store reads,
    seen = reads ++ [⟨.children s.layout.okDeltas, store⟩] ∧
      ScansNames s.layout.okDelta (store.names s.layout.okDeltas) reads) []
  foreign : ∀ dir record, dir.Numbers record → ∀ name (hlegal : LegalName name),
    Layout.number? name = none → ∀ time t asOf,
      scope.ledger.Agrees time t (t.drop ((s.path dir).child name hlegal)) ∧
        (scope.readAsOf asOf).Agrees time t (t.drop ((s.path dir).child name hlegal))

theorem Site.write_injective (s : Site) : Function.Injective s.layout.write := by
  intro m n hsame
  rw [layout_write, layout_write] at hsame
  injection path_injective (text_injective hsame)

theorem Site.okDelta_injective (s : Site) : Function.Injective s.layout.okDelta := by
  intro m n hsame
  rw [layout_okDelta, layout_okDelta] at hsame
  injection path_injective (text_injective hsame)

theorem Program.Ensures.namesBelow {β : Type} {path : String} {seen : List Encounter}
    {f : List String → Program Failure β} {post : List Encounter → Except Failure β → Prop}
    (herror : ∀ store e, post (⟨.children path, store⟩ :: seen) (.error e))
    (hnext : ∀ store : ObservedTree,
      (f (store.names path)).Ensures post (⟨.children path, store⟩ :: seen)) :
    (Scope.namesBelow path >>= f).Ensures post seen := by
  rw [Scope.namesBelow_eq]
  intro store
  have hrest := hnext store
  unfold ObservedTree.names at hrest
  change (Program.bind (.done (Scope.namesResult (store.answer (.children path)).1)) f).Ensures
    post _
  cases hresult : Scope.namesResult (store.answer (.children path)).1 with
  | error e => exact herror store e
  | ok names =>
      rw [hresult] at hrest
      exact hrest

theorem scansNames_nil {record : Int → String} {names : List String} :
    ScansNames record names [] where
  spelled _ he := absurd he List.not_mem_nil
  perSpelling _ := Nat.zero_le _
  once _ := .nil

/-- A name is read as a number exactly if it spells one, by its key or with a sign in place of its
first zero.  A scan reads one record for each name that spells its number, and a name that spells
none could as well not be there. -/
theorem reads_spelled (c : Coordinator) (r : Request) (s : Site) :
    ReadsSpelled (scopeAt c r s) s where
  spelled name n := Layout.number?_eq_some_iff
  ledger := by
    unfold Scope.ledger
    apply Ensures.namesBelow
    · exact fun store e => ⟨store, [], rfl, scansNames_nil, (absurd · Bool.false_ne_true)⟩
    · intro store
      have hnodup := store.nodup_names s.layout.writes
      apply (ensures_writesAt _ _).bind
      · rintro seen entries ⟨reads, rfl, hreads, hall⟩
        refine ⟨store, reads, rfl, hreads.scansNames s.write_injective hnodup (.refl _), fun _ n => ?_⟩
        rw [← List.count_filterMap]
        exact (hall rfl).count_eq s.write_injective
      · rintro seen e ⟨reads, rfl, hreads, -⟩
        exact ⟨store, reads, rfl, hreads.scansNames s.write_injective hnodup (.refl _),
          (absurd · Bool.false_ne_true)⟩
  readAsOf t := by
    unfold Scope.readAsOf
    apply Ensures.namesBelow
    · exact fun store e => ⟨store, [], rfl, scansNames_nil⟩
    · intro store
      apply (ensures_firstBy _ t _).mono
      rintro seen result ⟨reads, rfl, hreads⟩
      exact ⟨store, reads, rfl, hreads.scansNames s.okDelta_injective
        (store.nodup_names s.layout.okDeltas) ((List.reverse_perm _).filterMap _)⟩
  foreign dir record hdir name hlegal hnumber time t asOf :=
    ⟨agrees_ledger rfl (resembles_drop_child .writes hdir hlegal hnumber),
      agrees_readAsOf rfl (resembles_drop_child .okDeltas hdir hlegal hnumber)⟩

section Samples

open Cluster

/-- An epoch with one write, and a node next to its record, whose name spells the same number. -/
def signedName : Tree :=
  let actions : List (Action Nat) :=
    Sample.alone 0 .openDelta ++ Sample.alone 1 (.registerWrite ⟨"a", "a_ext", "q"⟩)
  ((run Sample.time Sample.roots actions).history.now.answer
    (.create "/test/dtm/delta/write_op/+0000000000000000000" [])).2

/-- A name that is no key is read as a number, and the ledger tells the one record of the number
twice. -/
theorem signed_name_told_twice :
    Layout.number? "+0000000000000000000" = some 0 ∧ "+0000000000000000000" ≠ Layout.key 0 ∧
      ∃ entry, entry.record = ⟨"dtm", "a", "a_ext", "q", 0, .inProgress⟩ ∧
        (scopeAt Sample.coordinator ⟨"dtm", .readLedger⟩ Sample.site).ledger.runAlone Sample.time
          signedName = (.ok [entry, entry], signedName) := by
  have htree : (Sample.site.names .writes signedName).filterMap Layout.number? = [0, 0] ∧
      ((Sample.site.book signedName).write 0).map Versioned.record =
        some ⟨"dtm", "a", "a_ext", "q", 0, .inProgress⟩ := by decide +kernel
  obtain ⟨hnumbers, hwrite⟩ := htree
  obtain ⟨entry, hentry, hrecord⟩ := Option.map_eq_some_iff.mp hwrite
  refine ⟨by decide, by decide, entry, hrecord, ?_⟩
  have hread := runAlone_read_of_some Sample.time hentry
  unfold Scope.ledger
  rw [scopeAt_layout, Site.layout_writes, runAlone_bind_of_ok runAlone_namesBelow, hnumbers]
  have hreads : ((scopeAt Sample.coordinator ⟨"dtm", .readLedger⟩ Sample.site).writesAt
      [0, 0]).runAlone Sample.time signedName = (.ok [entry, entry], signedName) := by
    simp only [Scope.writesAt, scopeAt_layout, Site.layout_write]
    rw [runAlone_bind_of_ok hread, runAlone_bind_of_ok (runAlone_bind_of_ok hread)]
    rfl
  rw [runAlone_bind_of_ok hreads, List.mergeSort_of_pairwise (by simp)]
  rfl

end Samples

end DeltaLedger
