import DeltaLedger.Proofs.Cluster

/-!
# A table has one entry in progress

Registering looks for an entry in progress of its table before its transaction, and
the look is not part of the transaction.  Still no run of a cluster gets two of them
into the ledger of a datamart, for the counters guard the ledger: an entry that the look
has missed was registered later, and has changed their version.
-/

namespace DeltaLedger

namespace Site

/-- The entry of the ledger that a node is, if it lies there and can be read. -/
def entry? (s : Site) (item : Path × Node) : Option WriteOperation :=
  if (s.path .writes).isAbove item.1 then
    (Stored.decode WriteOperation item.1.text item.2.data).toOption
  else none

/-- Everything in the ledger of a site. -/
def entries (s : Site) (t : Tree) : List WriteOperation :=
  t.nodes.toList.filterMap s.entry?

end Site

/-- An entry that keeps a table busy. -/
def WriteOperation.Busy (table : String) (w : WriteOperation) : Prop :=
  w.tableName = table ∧ w.status = .inProgress

instance (table : String) (w : WriteOperation) : Decidable (w.Busy table) :=
  inferInstanceAs (Decidable (_ ∧ _))

section Entries

variable {s : Site} {t : Tree} {table : String}

theorem owns_of_isAbove {place : Place} {p : Path} (habove : (s.path place).isAbove p = true) :
    s.Owns p := by
  simp only [Path.isAbove, Bool.and_eq_true, List.isPrefixOf_iff_prefix] at habove
  obtain ⟨⟨rest, hrest⟩, _⟩ := habove
  refine ⟨place.names ++ rest, ?_, ?_⟩
  · cases place <;> simp [Place.names]
  · rw [← hrest, ← List.append_assoc]
    rfl

theorem names_of_isAbove {place place' : Place}
    (habove : (s.path place).isAbove (s.path place') = true) :
    place.names <+: place'.names ∧ place.names.length < place'.names.length := by
  simp only [Path.isAbove, Bool.and_eq_true, decide_eq_true_eq, List.isPrefixOf_iff_prefix] at habove
  obtain ⟨hbegins, hlength⟩ := habove
  refine ⟨(List.prefix_append_right_inj _).mp hbegins, ?_⟩
  simpa [Site.path] using hlength

theorem place_of_isAbove {place : Place}
    (habove : (s.path .writes).isAbove (s.path place) = true) : ∃ n, place = .write n := by
  obtain ⟨hbegins, hlength⟩ := names_of_isAbove habove
  cases place with
  | write n => exact ⟨n, rfl⟩
  | _ => simp [Place.names] at hbegins hlength

theorem write_of_entry? (hkept : s.Kept t) {item : Path × Node} {w : WriteOperation}
    (hitem : item ∈ t.nodes.toList) (hw : s.entry? item = some w) :
    ∃ n, item.1 = s.path (.write n) ∧ (s.book t).write n = some ⟨w, item.2.version⟩ := by
  obtain ⟨p, node⟩ := item
  have hnode := Std.ExtTreeMap.mem_toList_iff_getElem?_eq_some.mp hitem
  unfold Site.entry? at hw
  split at hw
  next habove =>
    obtain ⟨place, rfl⟩ := hkept.known p node hnode (owns_of_isAbove habove)
    obtain ⟨n, rfl⟩ := place_of_isAbove habove
    refine ⟨n, rfl, ?_⟩
    cases hdecode : Stored.decode WriteOperation (s.path (.write n)).text node.data with
    | error e => simp [hdecode, Except.toOption] at hw
    | ok record =>
        simp only [hdecode, Except.toOption, Option.some.injEq] at hw
        subst hw
        exact Tree.record?_of_decode hnode hdecode
  next => cases hw

theorem countP_le_one_of_pairwise {α : Type} {holds : α → Bool} {l : List α}
    (hpairwise : l.Pairwise fun a b => ¬(holds a = true ∧ holds b = true)) :
    l.countP holds ≤ 1 := by
  induction l with
  | nil => exact Nat.zero_le 1
  | cons a l ih =>
      obtain ⟨hhead, htail⟩ := List.pairwise_cons.mp hpairwise
      cases ha : holds a with
      | false =>
          rw [List.countP_cons_of_neg (by simp [ha])]
          exact ih htail
      | true =>
          have hnone : l.countP holds = 0 :=
            List.countP_eq_zero.mpr fun b hb hholds => hhead b hb ⟨ha, hholds⟩
          rw [List.countP_cons_of_pos ha, hnone]

theorem countP_entries_le_one (hkept : s.Kept t) (hvalid : (s.book t).Valid) :
    (s.entries t).countP (fun w => w.Busy table) ≤ 1 := by
  apply countP_le_one_of_pairwise
  have hdistinct : t.nodes.toList.Pairwise fun a b => a.1 ≠ b.1 := by
    apply Std.ExtTreeMap.distinct_keys_toList.imp
    rintro a b hne hsame
    rw [hsame] at hne
    exact hne Std.ReflCmp.compare_self
  unfold Site.entries
  apply List.pairwise_filterMap.mpr
  apply hdistinct.imp_of_mem
  intro a b ha hb hne w hw w' hw' hbusy
  obtain ⟨m, hm, hentry⟩ := write_of_entry? hkept ha hw
  obtain ⟨n, hn, hentry'⟩ := write_of_entry? hkept hb hw'
  obtain ⟨htable, hprogress⟩ := of_decide_eq_true hbusy.1
  obtain ⟨htable', hprogress'⟩ := of_decide_eq_true hbusy.2
  have hsame : m = n := hvalid.exclusive m n _ _ hentry hentry' hprogress hprogress'
    (htable.trans htable'.symm)
  apply hne
  rw [hm, hn, hsame]

end Entries

/-- Whatever requests are at work, in every datamart every table has at most one entry
in progress. -/
theorem countP_busy_le_one {ι : Type} [DecidableEq ι] (time : DateTime)
    (roots : List (Name × String)) (actions : List (Action ι)) (s : Site) (table : String) :
    (s.entries (Cluster.run time roots actions).history.now).countP (fun w => w.Busy table) ≤ 1 :=
  have hsound := Cluster.sound_run time roots actions
  countP_entries_le_one (hsound.orderly.kept s) (hsound.orderly.valid s)

end DeltaLedger
