import DeltaLedger.Coordinator.Request
import DeltaLedger.Proofs.SiteBook

/-!
# What requests read

The calls by which requests read, answered by a tree that keeps their site.  A read
of a record gives what the book has at the place, and the ledger is read under the
numbers of exactly the entries that the book has.
-/

namespace DeltaLedger

/-- What a read of a record results in, given the reply to its call. -/
def Scope.readResult (α : Type) [Stored α] (path : String) :
    Except StoreError (Option Node) → Except Failure (Option (Versioned α))
  | .ok none => .ok none
  | .ok (some node) =>
    (Stored.decode α path node.data).map fun record => some ⟨record, node.version⟩
  | .error e => .error (.unavailable e)

/-- What a list of names results in, given the reply to its call. -/
def Scope.namesResult : Except StoreError (List String) → Except Failure (List String)
  | .ok names => .ok names
  | .error (.notFound _) => .ok []
  | .error e => .error (.unavailable e)

namespace Scope

theorem read_eq (α : Type) [Stored α] (path : String) :
    read α path = .call (.read path) fun reply => .done (readResult α path reply) := by
  change Program.call _ _ = _
  congr 1
  funext reply
  cases reply with
  | error e => rfl
  | ok found =>
      cases found with
      | none => rfl
      | some node =>
          change Program.bind (.done (Stored.decode α path node.data)) _ = _
          cases hdecode : Stored.decode α path node.data with
          | error e => simp [Program.bind, readResult, hdecode, Except.map]
          | ok record =>
              simp only [Program.bind, readResult, hdecode, Except.map]
              rfl

theorem namesBelow_eq (path : String) :
    namesBelow path = .call (.children path) fun reply => .done (namesResult reply) := by
  change Program.call _ _ = _
  congr 1
  funext reply
  cases reply with
  | ok names => rfl
  | error e => cases e <;> rfl

end Scope

namespace Tree

variable {t : Tree} {p : Path}

theorem answer_read : t.answer (.read p.text) = (.ok (t.find? p), t) := by
  simp [answer]

theorem answer_stat : t.answer (.stat p.text) = (.ok ((t.find? p).map (Node.stat p.text)), t) := by
  simp [answer]

theorem answer_children : t.answer (.children p.text) =
    (if t.has p then .ok (t.childNames p) else .error (.nodeMissing p.text), t) := by
  simp [answer]

end Tree

namespace Site

variable {s : Site} {t : Tree}

/-- A kind of record belongs at a place. -/
def Suits (place : Place) (α : Type) [Stored α] : Prop :=
  ∀ path payload, place.Reads path payload → ∃ record, Stored.decode α path payload = .ok record

theorem suits_counters : Suits .counters Counters := fun _ _ hreads => hreads

theorem suits_hot : Suits .hot HotDelta := fun _ _ hreads => hreads

theorem suits_ok (n : Int) : Suits (.ok n) OkDelta := fun _ _ hreads => hreads

theorem suits_write (n : Int) : Suits (.write n) WriteOperation := fun _ _ hreads => hreads

theorem readResult_eq {place : Place} {α : Type} [Stored α] (hsuits : Suits place α)
    (hkept : s.Kept t) :
    Scope.readResult α (s.path place).text (.ok (t.find? (s.path place))) =
      .ok (t.record? α (s.path place)) := by
  rw [Tree.find?_of_ne_root (s.path_ne_root place)]
  cases hnode : t.nodes[s.path place]? with
  | none => simp [Scope.readResult, Tree.record?, hnode]
  | some node =>
      obtain ⟨record, hdecode⟩ := hsuits _ _ (hkept.reads place node hnode)
      simp [Scope.readResult, Tree.record?_of_decode hnode hdecode, hdecode, Except.map]

/-! ## The names of the ledger -/

/-- The names that a client sees below a place. -/
def names (s : Site) (place : Place) (t : Tree) : List String :=
  if t.has (s.path place) then t.childNames (s.path place) else []

theorem namesResult_eq {place : Place} :
    Scope.namesResult (t.answer (.children (s.path place).text)).1 = .ok (s.names place t) := by
  rw [Tree.answer_children, names]
  by_cases hhas : t.has (s.path place) = true
  · rw [if_pos hhas, if_pos hhas]
    rfl
  · rw [if_neg hhas, if_neg hhas]
    rfl

theorem names_of_childName? {p q : Path} {name : String} (hname : p.childName? q = some name) :
    q.names = p.names ++ [name] := by
  unfold Path.childName? at hname
  split at hname
  next hdrop =>
    obtain ⟨hne, hlast⟩ := List.getLast?_eq_some_iff.mp hname
    rw [hlast] at hdrop ⊢
    simp at hdrop
    rw [hdrop]
  next => cases hname

theorem owns_of_childName? {place : Place} {q : Path} {name : String}
    (hname : (s.path place).childName? q = some name) : s.Owns q := by
  refine ⟨place.names ++ [name], by simp, ?_⟩
  rw [names_of_childName? hname, ← List.append_assoc]
  rfl

theorem place_of_childName? {place place' : Place} {name : String}
    (hname : (s.path place).childName? (s.path place') = some name) :
    place'.names = place.names ++ [name] := by
  have hnames := names_of_childName? hname
  have happend : s.root.names ++ place'.names = s.root.names ++ (place.names ++ [name]) := by
    rw [← List.append_assoc]
    exact hnames
  exact List.append_cancel_left happend

/-- The names below a place are the last names of the places right below it. -/
theorem mem_names_iff (hkept : s.Kept t) {place : Place} {name : String} :
    name ∈ s.names place t ↔ t.has (s.path place) = true ∧
      ∃ place' node, t.nodes[s.path place']? = some node ∧
        place'.names = place.names ++ [name] := by
  unfold names
  by_cases hhas : t.has (s.path place) = true
  · rw [if_pos hhas, Tree.mem_childNames]
    constructor
    · rintro ⟨q, node, hnode, hchild⟩
      obtain ⟨place', rfl⟩ := hkept.known q node hnode (owns_of_childName? hchild)
      exact ⟨hhas, place', node, hnode, place_of_childName? hchild⟩
    · rintro ⟨_, place', node, hnode, hplace⟩
      refine ⟨s.path place', node, hnode, ?_⟩
      simp [Path.childName?, path, hplace, ← List.append_assoc]
  · rw [if_neg hhas]
    exact ⟨fun hnone => absurd hnone List.not_mem_nil, fun hboth => absurd hboth.1 hhas⟩

theorem mem_names_writes_iff (hkept : s.Kept t) (hvalid : (s.book t).Valid) {name : String} :
    name ∈ s.names .writes t ↔
      ∃ n entry, (s.book t).write n = some entry ∧ name = Layout.key n := by
  rw [mem_names_iff hkept]
  constructor
  · rintro ⟨_, place, node, hnode, hplace⟩
    cases place <;> simp [Place.names] at hplace
    next n =>
      cases hentry : (s.book t).write n with
      | none =>
          rw [book_write_eq_none_iff hkept, hnode] at hentry
          cases hentry
      | some entry => exact ⟨n, entry, hentry, hplace.symm⟩
  · rintro ⟨n, entry, hentry, rfl⟩
    obtain ⟨hot, hhot⟩ := hvalid.hot_of_write hentry
    obtain ⟨counters, hcounters⟩ := hvalid.counters_of_hot hhot
    obtain ⟨node, hnode, _⟩ := Tree.node_of_record? hentry
    exact ⟨(hkept.has_carrier (.inr (.inr rfl))).mpr (by simp [hcounters]), _, node, hnode, rfl⟩

theorem mem_numbers_writes_iff (hkept : s.Kept t) (hvalid : (s.book t).Valid) {n : Int} :
    n ∈ (s.names .writes t).filterMap Layout.number? ↔ ∃ entry, (s.book t).write n = some entry := by
  rw [List.mem_filterMap]
  constructor
  · rintro ⟨name, hname, hnumber⟩
    obtain ⟨m, entry, hentry, rfl⟩ := (mem_names_writes_iff hkept hvalid).mp hname
    rw [Layout.number?_key (hvalid.fits_of_write hentry)] at hnumber
    cases hnumber
    exact ⟨entry, hentry⟩
  · rintro ⟨entry, hentry⟩
    exact ⟨Layout.key n, (mem_names_writes_iff hkept hvalid).mpr ⟨n, entry, hentry, rfl⟩,
      Layout.number?_key (hvalid.fits_of_write hentry)⟩

theorem nodup_childNames (t : Tree) (p : Path) : (t.childNames p).Nodup := by
  refine List.Pairwise.filterMap _ ?_ Std.ExtTreeMap.nodup_keys
  rintro q q' hne name hname _ hname' rfl
  have hnames := names_of_childName? hname
  rw [← names_of_childName? hname'] at hnames
  cases q
  cases q'
  cases hnames
  exact hne rfl

theorem nodup_numbers {names : List String} (hnodup : names.Nodup)
    (hkeys : ∀ name ∈ names, ∀ n, Layout.number? name = some n → name = Layout.key n) :
    (names.filterMap Layout.number?).Nodup := by
  refine List.pairwise_filterMap.mpr (hnodup.imp_of_mem ?_)
  rintro name name' hname hname' hne n hn _ hn' rfl
  exact hne ((hkeys name hname n hn).trans (hkeys name' hname' n hn').symm)

/-- The numbers under which the ledger is read are distinct. -/
theorem nodup_numbers_writes (hkept : s.Kept t) (hvalid : (s.book t).Valid) :
    ((s.names .writes t).filterMap Layout.number?).Nodup := by
  apply nodup_numbers
  · unfold names
    split
    next => exact nodup_childNames t _
    next => exact List.Pairwise.nil
  · intro name hname m hnumber
    obtain ⟨n, entry, hentry, rfl⟩ := (mem_names_writes_iff hkept hvalid).mp hname
    rw [Layout.number?_key (hvalid.fits_of_write hentry)] at hnumber
    rw [Option.some.inj hnumber]

end Site
end DeltaLedger
