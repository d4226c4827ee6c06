import DeltaLedger.Proofs.Interference
import DeltaLedger.Proofs.Readings

/-!
# Rules for the parts of a request

How the parts that requests are built of behave under interference: reads of single
records, the scan of the ledger, the transaction at the end of an attempt, and the
loop of attempts.

The scan is not one call.  What it gives are entries that each were in the book at
some moment of the scan, and among them is every entry that was there from its first
call on.  If the counters did not change since they were read before the scan, every
entry of the book is one of them or has been finished since.
-/

namespace DeltaLedger

open Program

theorem Call.Proper.of_same {sites : Site → Prop} {trail : Trail} {c : Call} {h : History}
    (hsame : (h.now.answer c).2 = h.now) : c.Proper sites trail h :=
  .inl hsame

section Rules

variable {sites : Site → Prop} {trail : Trail} {s : Site} {scope : Scope} {β : Type}
variable {post : Trail → Except Failure β → Prop}

theorem Safe.localTime {f : DateTime → Program Failure β}
    (hnext : ∀ now, (f (now.atOffset scope.coordinator.zone).wholeSecond).Safe sites post
      (.told now :: trail)) :
    (scope.localTime >>= f).Safe sites post trail :=
  fun now => hnext now

/-! ## Records -/

theorem Safe.read {place : Place} {α : Type} [Stored α]
    {f : Option (Versioned α) → Program Failure β} (hsuits : Site.Suits place α)
    (hnext : ∀ h, h.Orderly → trail.Precedes h →
      (f (h.now.record? α (s.path place))).Safe sites post
        (.answered (.read (s.path place).text) h :: trail)) :
    (Scope.read α (s.path place).text >>= f).Safe sites post trail := by
  rw [Scope.read_eq]
  intro h horderly hprecedes
  have hanswer := Tree.answer_read (t := h.now) (p := s.path place)
  refine ⟨.of_same (by rw [hanswer]), ?_⟩
  have hresult : Scope.readResult α (s.path place).text
      (h.now.answer (.read (s.path place).text)).1 = .ok (h.now.record? α (s.path place)) := by
    rw [hanswer]
    exact Site.readResult_eq hsuits (horderly.kept s)
  change (Program.bind (.done (Scope.readResult α (s.path place).text
    (h.now.answer (.read (s.path place).text)).1)) f).Safe sites post _
  rw [hresult]
  exact hnext h horderly hprecedes

theorem Safe.require {place : Place} {α : Type} [Stored α] {missing : Failure}
    {f : Versioned α → Program Failure β} (hsuits : Site.Suits place α)
    (hmissing : ∀ h, h.Orderly → trail.Precedes h → h.now.record? α (s.path place) = none →
      post (.answered (.read (s.path place).text) h :: trail) (.error missing))
    (hfound : ∀ h found, h.Orderly → trail.Precedes h →
      h.now.record? α (s.path place) = some found →
      (f found).Safe sites post (.answered (.read (s.path place).text) h :: trail)) :
    (Scope.require α (s.path place).text missing >>= f).Safe sites post trail := by
  unfold Scope.require
  rw [bind_bind]
  apply Safe.read hsuits
  intro h horderly hprecedes
  cases hrecord : h.now.record? α (s.path place) with
  | none => exact hmissing h horderly hprecedes hrecord
  | some found => exact hfound h found horderly hprecedes hrecord

theorem Safe.hot {f : Versioned HotDelta → Program Failure β} (hlayout : scope.layout = s.layout)
    (hmissing : ∀ h, h.Orderly → trail.Precedes h → (s.book h.now).hot = none →
      post (.answered (.read (s.path .hot).text) h :: trail)
        (.error (.noHotDelta scope.datamart)))
    (hfound : ∀ h hot, h.Orderly → trail.Precedes h → (s.book h.now).hot = some hot →
      (f hot).Safe sites post (.answered (.read (s.path .hot).text) h :: trail)) :
    (scope.hot >>= f).Safe sites post trail := by
  unfold Scope.hot
  rw [hlayout, Site.layout_hot]
  exact Safe.require Site.suits_hot hmissing hfound

theorem Safe.counters {f : Versioned Counters → Program Failure β}
    (hlayout : scope.layout = s.layout)
    (hmissing : ∀ h, h.Orderly → trail.Precedes h → (s.book h.now).counters = none →
      post (.answered (.read (s.path .counters).text) h :: trail)
        (.error (.noCounters scope.datamart)))
    (hfound : ∀ h counters, h.Orderly → trail.Precedes h →
      (s.book h.now).counters = some counters →
      (f counters).Safe sites post (.answered (.read (s.path .counters).text) h :: trail)) :
    (scope.counters >>= f).Safe sites post trail := by
  unfold Scope.counters
  rw [hlayout, Site.layout_counters]
  exact Safe.require Site.suits_counters hmissing hfound

theorem Safe.write {n : Int} {f : Versioned WriteOperation → Program Failure β}
    (hlayout : scope.layout = s.layout)
    (hmissing : ∀ h, h.Orderly → trail.Precedes h → (s.book h.now).write n = none →
      post (.answered (.read (s.path (.write n)).text) h :: trail)
        (.error (.noWrite scope.datamart n)))
    (hfound : ∀ h entry, h.Orderly → trail.Precedes h → (s.book h.now).write n = some entry →
      (f entry).Safe sites post (.answered (.read (s.path (.write n)).text) h :: trail)) :
    (scope.write n >>= f).Safe sites post trail := by
  unfold Scope.write
  rw [hlayout, Site.layout_write]
  exact Safe.require (Site.suits_write n) hmissing hfound

/-- Once a client has seen a hot delta, it finds counters. -/
theorem Safe.counters_after {call : Call} {h1 : History} {hot : Versioned HotDelta}
    {f : Versioned Counters → Program Failure β} (hlayout : scope.layout = s.layout)
    (horderly1 : h1.Orderly) (hhot : (s.book h1.now).hot = some hot)
    (hfound : ∀ h counters, h.Orderly → Trail.Precedes (.answered call h1 :: trail) h →
      (s.book h.now).counters = some counters →
      (f counters).Safe sites post
        (.answered (.read (s.path .counters).text) h :: .answered call h1 :: trail)) :
    (scope.counters >>= f).Safe sites post (.answered call h1 :: trail) := by
  apply Safe.counters hlayout
  · intro h horderly hprecedes hnone
    obtain ⟨counters, hcounters⟩ := (horderly1.valid s).counters_of_hot hhot
    obtain ⟨counters', hcounters', _⟩ :=
      (horderly.leads hprecedes.head s).counters counters hcounters
    rw [hnone] at hcounters'
    cases hcounters'
  · exact hfound

theorem Safe.namesBelow {place : Place} {f : List String → Program Failure β}
    (hnext : ∀ h, h.Orderly → trail.Precedes h → (f (s.names place h.now)).Safe sites post
      (.answered (.children (s.path place).text) h :: trail)) :
    (Scope.namesBelow (s.path place).text >>= f).Safe sites post trail := by
  rw [Scope.namesBelow_eq]
  intro h horderly hprecedes
  refine ⟨.of_same (by rw [Tree.answer_children]), ?_⟩
  change (Program.bind (.done (Scope.namesResult
    (h.now.answer (.children (s.path place).text)).1)) f).Safe sites post _
  rw [Site.namesResult_eq]
  exact hnext h horderly hprecedes

/-! ## The scan of the ledger -/

/-- The reads of some numbers of the ledger, and what they gave. -/
structure Scan (s : Site) (trail : Trail) (ns : List Int) (seen : Trail)
    (entries : List (Versioned WriteOperation)) : Prop where
  reads : ∀ sight ∈ seen, ∃ n h, sight = .answered (.read (s.path (.write n)).text) h ∧
    h.Orderly ∧ trail.Precedes h
  sound : ∀ entry ∈ entries, ∃ n h, .answered (.read (s.path (.write n)).text) h ∈ seen ∧
    (s.book h.now).write n = some entry
  complete : ∀ n ∈ ns, ∃ h, .answered (.read (s.path (.write n)).text) h ∈ seen ∧
    ∀ entry, (s.book h.now).write n = some entry → entry ∈ entries
  numbers : (entries.map fun entry => entry.record.sysCn).Sublist ns

theorem Scan.nil : Scan s trail [] [] [] where
  reads _ hmem := absurd hmem List.not_mem_nil
  sound _ hmem := absurd hmem List.not_mem_nil
  complete _ hmem := absurd hmem List.not_mem_nil
  numbers := List.Sublist.slnil

theorem Scan.cons {n : Int} {ns : List Int} {seen : Trail} {h : History}
    {entries : List (Versioned WriteOperation)}
    (horderly : h.Orderly) (hprecedes : trail.Precedes h)
    (hscan : Scan s (.answered (.read (s.path (.write n)).text) h :: trail) ns seen entries) :
    Scan s trail (n :: ns) (seen ++ [.answered (.read (s.path (.write n)).text) h])
      (((s.book h.now).write n).toList ++ entries) where
  reads sight hmem := by
    rcases List.mem_append.mp hmem with hmem | hmem
    · obtain ⟨m, h', rfl, horderly', hprecedes'⟩ := hscan.reads sight hmem
      exact ⟨m, h', rfl, horderly', hprecedes'.tail⟩
    · exact ⟨n, h, List.mem_singleton.mp hmem, horderly, hprecedes⟩
  sound entry hmem := by
    rcases List.mem_append.mp hmem with hmem | hmem
    · exact ⟨n, h, by simp, Option.mem_toList.mp hmem⟩
    · obtain ⟨m, h', hseen, hentry⟩ := hscan.sound entry hmem
      exact ⟨m, h', List.mem_append_left _ hseen, hentry⟩
  complete m hmem := by
    rcases List.mem_cons.mp hmem with rfl | hmem
    · refine ⟨h, by simp, ?_⟩
      intro entry hentry
      exact List.mem_append_left _ (Option.mem_toList.mpr hentry)
    · obtain ⟨h', hseen, hentries⟩ := hscan.complete m hmem
      refine ⟨h', List.mem_append_left _ hseen, ?_⟩
      intro entry hentry
      exact List.mem_append_right _ (hentries entry hentry)
  numbers := by
    cases hentry : (s.book h.now).write n with
    | none => exact hscan.numbers.cons n
    | some entry =>
        have hn := ((horderly.valid s).issued n entry hentry).1
        rw [Option.toList_some, List.singleton_append, List.map_cons, hn]
        exact hscan.numbers.cons_cons n

theorem Safe.writesAt {ns : List Int} {f : List (Versioned WriteOperation) → Program Failure β}
    (hlayout : scope.layout = s.layout)
    (hnext : ∀ seen entries, Scan s trail ns seen entries →
      (f entries).Safe sites post (seen ++ trail)) :
    (scope.writesAt ns >>= f).Safe sites post trail := by
  induction ns generalizing trail f with
  | nil => exact hnext [] [] Scan.nil
  | cons n ns ih =>
      unfold Scope.writesAt
      rw [bind_bind, hlayout, Site.layout_write]
      apply Safe.read (Site.suits_write n)
      intro h horderly hprecedes
      rw [bind_bind]
      apply ih
      intro seen entries hscan
      have hall := hnext _ _ (hscan.cons horderly hprecedes)
      rw [List.append_assoc] at hall
      exact hall

/-- The ledger as a client sees it. -/
structure Scanned (s : Site) (trail seen : Trail)
    (entries : List (Versioned WriteOperation)) : Prop where
  quiet : seen.Quiet
  reads : ∀ steps h, .answered (.transact steps) h ∉ seen
  timeless : ∀ now, .told now ∉ seen
  elsewhere : ∀ h, .answered (.read (s.path .hot).text) h ∉ seen
  increasing : entries.Pairwise fun a b => a.record.sysCn < b.record.sysCn
  sound : ∀ entry ∈ entries, ∃ c h, .answered c h ∈ seen ∧ h.Orderly ∧ trail.Precedes h ∧
    (s.book h.now).write entry.record.sysCn = some entry
  complete : ∃ c first, .answered c first ∈ seen ∧ first.Orderly ∧ trail.Precedes first ∧
    ∀ n entry, (s.book first.now).write n = some entry →
      ∃ c h, .answered c h ∈ seen ∧ first ≤ h ∧ h.Orderly ∧
        ∀ found, (s.book h.now).write n = some found → found ∈ entries

theorem pairwise_ledger (entries : List (Versioned WriteOperation)) :
    (entries.mergeSort fun a b => a.record.sysCn ≤ b.record.sysCn).Pairwise
      fun a b => a.record.sysCn ≤ b.record.sysCn := by
  have htrans : ∀ a b c : Versioned WriteOperation,
      decide (a.record.sysCn ≤ b.record.sysCn) = true →
        decide (b.record.sysCn ≤ c.record.sysCn) = true →
          decide (a.record.sysCn ≤ c.record.sysCn) = true := by
    intro a b c hab hbc
    simp only [decide_eq_true_eq] at hab hbc ⊢
    omega
  have htotal : ∀ a b : Versioned WriteOperation,
      (decide (a.record.sysCn ≤ b.record.sysCn) ||
        decide (b.record.sysCn ≤ a.record.sysCn)) = true := by
    intro a b
    simp only [Bool.or_eq_true, decide_eq_true_eq]
    omega
  have hsorted := List.pairwise_mergeSort htrans htotal entries
  exact hsorted.imp fun hab => of_decide_eq_true hab

theorem increasing_ledger {entries : List (Versioned WriteOperation)}
    (hnodup : (entries.map fun entry => entry.record.sysCn).Nodup) :
    (entries.mergeSort fun a b => a.record.sysCn ≤ b.record.sysCn).Pairwise
      fun a b => a.record.sysCn < b.record.sysCn := by
  have hperm := List.mergeSort_perm entries
    fun a b => decide (a.record.sysCn ≤ b.record.sysCn)
  rw [← (hperm.map fun entry => entry.record.sysCn).nodup_iff] at hnodup
  refine (pairwise_ledger entries).imp₂ ?_ (List.pairwise_map.mp hnodup)
  intro a b hle hne
  omega

theorem text_injective {p q : Path} (hsame : p.text = q.text) : p = q := by
  have hparse := Path.parse_text p
  rw [hsame, Path.parse_text] at hparse
  exact (Except.ok.inj hparse).symm

theorem Scan.scanned {first : History} {ns : List Int} {seen : Trail}
    {entries : List (Versioned WriteOperation)}
    (horderly : first.Orderly) (hprecedes : trail.Precedes first)
    (hns : ns = (s.names .writes first.now).filterMap Layout.number?)
    (hscan : Scan s (.answered (.children (s.path .writes).text) first :: trail) ns seen entries) :
    Scanned s trail (seen ++ [.answered (.children (s.path .writes).text) first])
      (entries.mergeSort fun a b => a.record.sysCn ≤ b.record.sysCn) where
  quiet := by
    refine Trail.Quiet.append ?_ (.singleton (by rw [Tree.answer_children]))
    intro c h hmem
    obtain ⟨n, h', heq, _⟩ := hscan.reads _ hmem
    cases heq
    rw [Tree.answer_read]
  reads steps h hmem := by
    rcases List.mem_append.mp hmem with hmem | hmem
    · obtain ⟨n, h', heq, _⟩ := hscan.reads _ hmem
      cases heq
    · simp at hmem
  timeless now hmem := by
    rcases List.mem_append.mp hmem with hmem | hmem
    · obtain ⟨n, h, heq, _⟩ := hscan.reads _ hmem
      cases heq
    · simp at hmem
  elsewhere h hmem := by
    rcases List.mem_append.mp hmem with hmem | hmem
    · obtain ⟨n, h', heq, _⟩ := hscan.reads _ hmem
      injection heq with hcall
      injection hcall with htext
      exact absurd (Site.path_injective (text_injective htext)) (by simp)
    · simp at hmem
  increasing := by
    have hnodup := Site.nodup_numbers_writes (horderly.kept s) (horderly.valid s)
    rw [← hns] at hnodup
    exact increasing_ledger (hnodup.sublist hscan.numbers)
  sound entry hmem := by
    rw [List.mem_mergeSort] at hmem
    obtain ⟨n, h, hseen, hentry⟩ := hscan.sound entry hmem
    obtain ⟨n', h', heq, horderly', hprecedes'⟩ := hscan.reads _ hseen
    have hmoment := (Sight.answered.inj heq).2
    subst hmoment
    refine ⟨_, h, List.mem_append_left _ hseen, horderly', hprecedes'.tail, ?_⟩
    rw [((horderly'.valid s).issued n entry hentry).1]
    exact hentry
  complete := by
    refine ⟨.children (s.path .writes).text, first, by simp, horderly, hprecedes, ?_⟩
    intro n entry hentry
    have hlisted : n ∈ ns := by
      rw [hns]
      exact (Site.mem_numbers_writes_iff (horderly.kept s) (horderly.valid s)).mpr ⟨entry, hentry⟩
    obtain ⟨h, hseen, hfound⟩ := hscan.complete n hlisted
    obtain ⟨n', h', heq, horderly', hprecedes'⟩ := hscan.reads _ hseen
    have hmoment := (Sight.answered.inj heq).2
    subst hmoment
    refine ⟨_, h, List.mem_append_left _ hseen, hprecedes'.head, horderly', ?_⟩
    intro found hmem
    rw [List.mem_mergeSort]
    exact hfound found hmem

theorem Safe.ledger {f : List (Versioned WriteOperation) → Program Failure β}
    (hlayout : scope.layout = s.layout)
    (hnext : ∀ seen entries, Scanned s trail seen entries →
      (f entries).Safe sites post (seen ++ trail)) :
    (scope.ledger >>= f).Safe sites post trail := by
  unfold Scope.ledger
  rw [bind_bind, hlayout, Site.layout_writes]
  apply Safe.namesBelow
  intro h horderly hprecedes
  rw [bind_bind]
  apply Safe.writesAt hlayout
  intro seen entries hscan
  have hall := hnext _ _ (hscan.scanned horderly hprecedes rfl)
  rw [List.append_assoc] at hall
  exact hall

section Covering

variable {seen : Trail} {entries : List (Versioned WriteOperation)} {h h' : History} {c : Call}
variable {counters : Versioned Counters}

/-- While the counters stay as they were before the scan, every entry of the book was
seen, at most in an earlier state. -/
theorem Scanned.covers (hscanned : Scanned s trail seen entries)
    (hmem : .answered c h ∈ trail) (hcounters : (s.book h.now).counters = some counters)
    (horderly' : h'.Orderly) (hprecedes' : Trail.Precedes (seen ++ trail) h')
    (hcounters' : (s.book h'.now).counters = some counters)
    {n : Int} {entry' : Versioned WriteOperation} (hentry' : (s.book h'.now).write n = some entry') :
    ∃ entry ∈ entries, entry.record.sysCn = n ∧ WriteOperation.Leads entry entry' := by
  obtain ⟨c', first, hmemFirst, horderlyFirst, hprecedesFirst, hcomplete⟩ := hscanned.complete
  have hle : h ≤ first := hprecedesFirst.le hmem
  have hleFirst : first ≤ h' := hprecedes'.le (List.mem_append_left _ hmemFirst)
  have hn := ((horderly'.valid s).issued n entry' hentry').2.2
  rw [Book.sequence_of_counters hcounters', ← Book.sequence_of_counters hcounters] at hn
  have hnFirst : n < (s.book first.now).sequence.nextCn :=
    Int.lt_of_lt_of_le hn (horderlyFirst.leads hle s).nextCn
  obtain ⟨entryFirst, hentryFirst, _⟩ := (horderly'.leads hleFirst s).write n entry' hnFirst hentry'
  obtain ⟨c'', m, hseen, hleM, horderlyM, hfound⟩ := hcomplete n entryFirst hentryFirst
  have hleM' : m ≤ h' := hprecedes'.le (List.mem_append_left _ hseen)
  have hnM : n < (s.book m.now).sequence.nextCn :=
    Int.lt_of_lt_of_le hnFirst (horderlyM.leads hleM s).nextCn
  obtain ⟨entry, hentry, hleads⟩ := (horderly'.leads hleM' s).write n entry' hnM hentry'
  exact ⟨entry, hfound entry hentry, ((horderlyM.valid s).issued n entry hentry).1, hleads⟩

theorem Scanned.eq_of_version (hscanned : Scanned s trail seen entries)
    (horderly' : h'.Orderly) (hprecedes' : Trail.Precedes (seen ++ trail) h')
    {entry entry' : Versioned WriteOperation} (hmem : entry ∈ entries)
    (hentry' : (s.book h'.now).write entry.record.sysCn = some entry')
    (hversion : entry'.version = entry.version) : entry' = entry := by
  obtain ⟨c', m, hseen, horderlyM, _, hentry⟩ := hscanned.sound entry hmem
  have hleM : m ≤ h' := hprecedes'.le (List.mem_append_left _ hseen)
  exact (horderly'.leads hleM s).write_eq (horderlyM.valid s) hentry hentry' hversion

/-- An entry in progress cannot have been missed. -/
theorem Scanned.mem_of_inProgress (hscanned : Scanned s trail seen entries)
    (hmem : .answered c h ∈ trail) (hcounters : (s.book h.now).counters = some counters)
    (horderly' : h'.Orderly) (hprecedes' : Trail.Precedes (seen ++ trail) h')
    (hcounters' : (s.book h'.now).counters = some counters)
    {n : Int} {entry : Versioned WriteOperation} (hentry : (s.book h'.now).write n = some entry)
    (hprogress : entry.record.status = .inProgress) : entry ∈ entries := by
  obtain ⟨found, hfound, _, hleads⟩ :=
    hscanned.covers hmem hcounters horderly' hprecedes' hcounters' hentry
  have hsame := hleads.eq_of_inProgress hprogress
  rw [hsame]
  exact hfound

end Covering

/-! ## Attempts -/

/-- A transaction makes a turn of a site and gives its result, or it is aborted and gives
none. -/
theorem Safe.transact {γ : Type} {steps : List Step} {result : γ}
    {post : Trail → Except Failure (Option γ) → Prop}
    (hpaths : ∀ step ∈ steps, ∃ p : Path, step.path = p.text)
    (hcommitted : ∀ h t', h.Orderly → trail.Precedes h → h.now.Commits steps t' →
      (∃ m, sites s ∧ s.Turns m h.now t' ∧ m.Seen s trail) ∧
        post (.answered (.transact steps) h :: trail) (.ok (some result)))
    (haborted : ∀ h index path conflict, h.Orderly → trail.Precedes h →
      h.now.transact steps = (.ok (.aborted index path conflict), h.now) →
        post (.answered (.transact steps) h :: trail) (.ok none)) :
    (scope.commit steps result).Safe sites post trail := by
  intro h horderly hprecedes
  have hanswer : h.now.answer (.transact steps) = h.now.transact steps := rfl
  rcases Tree.transact_cases hpaths with ⟨t', hcommits, htransact⟩ | ⟨index, path, conflict, htransact⟩
  · obtain ⟨⟨m, hsite, hturns, hseen⟩, hpost⟩ := hcommitted h t' horderly hprecedes hcommits
    rw [htransact] at hanswer
    constructor
    · refine .inr ⟨s, m, hsite, ?_, hseen⟩
      rw [hanswer]
      exact hturns
    · rw [hanswer]
      exact hpost
  · have hpost := haborted h index path conflict horderly hprecedes htransact
    constructor
    · apply Call.Proper.of_same
      rw [hanswer, htransact]
    · rw [hanswer, htransact]
      exact hpost

/-- What a commit promises: a turn of a site if it happens, and a result either way. -/
theorem Safe.commit {γ : Type} {steps : List Step} {result : γ}
    {post : Trail → Except Failure (Option γ) → Prop}
    (hpaths : ∀ step ∈ steps, ∃ p : Path, step.path = p.text)
    (hcommitted : ∀ h t', h.Orderly → trail.Precedes h → h.now.Commits steps t' →
      (∃ m, sites s ∧ s.Turns m h.now t' ∧ m.Seen s trail) ∧
        post (.answered (.transact steps) h :: trail) (.ok (some result)))
    (haborted : ∀ h, h.Orderly → trail.Precedes h →
      (h.now.answer (.transact steps)).2 = h.now →
        post (.answered (.transact steps) h :: trail) (.ok none)) :
    (scope.commit steps result).Safe sites post trail := by
  apply Safe.transact hpaths hcommitted
  intro h index path conflict horderly hprecedes htransact
  exact haborted h horderly hprecedes (congrArg Prod.snd htransact)

/-- What holds after an attempt: it lost its race, and everything is as before, or it
has decided the request. -/
def AfterAttempt {τ γ : Type} (inv : τ → Prop) (post : τ → Except Failure γ → Prop) (seen : τ) :
    Except Failure (Option γ) → Prop
  | .ok none => inv seen
  | .ok (some a) => post seen (.ok a)
  | .error e => post seen (.error e)

theorem Safe.attempts {γ : Type} {attempt : Program Failure (Option γ)} {inv : Trail → Prop}
    {post : Trail → Except Failure γ → Prop}
    (hattempt : ∀ trail, inv trail → attempt.Safe sites (AfterAttempt inv post) trail)
    (hlost : ∀ trail, inv trail → post trail
      (.error (.lostRaces scope.operation scope.datamart scope.coordinator.attempts)))
    (left : Nat) (hinv : inv trail) :
    (scope.attempts attempt left).Safe sites post trail := by
  induction left generalizing trail with
  | zero => exact hlost trail hinv
  | succ left ih =>
      apply (hattempt trail hinv).bind
      · intro trail' result hafter
        cases result with
        | none => exact ih hafter
        | some a => exact hafter
      · exact fun trail' e hafter => hafter

/-! ## Entering a datamart -/

/-- A coordinator serves a datamart name at a site. -/
def Coordinator.Serves (c : Coordinator) (datamart : String) (s : Site) : Prop :=
  s.env = c.env ∧ s.datamart.text = datamart

theorem Coordinator.Serves.unique {c : Coordinator} {datamart : String} {s s' : Site}
    (hserves : c.Serves datamart s) (hserves' : c.Serves datamart s') : s = s' := by
  obtain ⟨henv, hname⟩ := hserves
  obtain ⟨henv', hname'⟩ := hserves'
  cases s
  cases s'
  cases henv.trans henv'.symm
  cases Name.text_injective (hname.trans hname'.symm)
  rfl

theorem parseRoot_of_serves {c : Coordinator} {datamart : String} (hserves : c.Serves datamart s) :
    Datamart.parseRoot c.env datamart = .ok s.root.text := by
  obtain ⟨henv, hname⟩ := hserves
  unfold Datamart.parseRoot Datamart.parseName Name.parseField
  rw [← hname, Name.parse_text, ← henv]
  exact congrArg Except.ok s.rootPath_eq

theorem serves_of_parseName {datamart : String} {name : Name} (c : Coordinator)
    (hname : Datamart.parseName datamart = .ok name) : c.Serves datamart ⟨c.env, name⟩ := by
  unfold Datamart.parseName Name.parseField at hname
  cases hparse : Name.parse datamart with
  | ok found =>
      rw [hparse] at hname
      cases hname
      exact ⟨rfl, Name.text_of_parse hparse⟩
  | error fault =>
      rw [hparse] at hname
      cases hname

theorem parseRoot_of_error {datamart : String} {e : StoreError} (c : Coordinator)
    (hname : Datamart.parseName datamart = .error e) :
    Datamart.parseRoot c.env datamart = .error e := by
  unfold Datamart.parseRoot
  rw [hname]

theorem parseRoot_cases (c : Coordinator) (datamart : String) :
    (∃ s, c.Serves datamart s ∧ Datamart.parseRoot c.env datamart = .ok s.root.text) ∨
      ∃ e, Datamart.parseRoot c.env datamart = .error e := by
  cases hname : Datamart.parseName datamart with
  | ok name =>
      have hserves := serves_of_parseName c hname
      exact .inl ⟨_, hserves, parseRoot_of_serves hserves⟩
  | error e => exact .inr ⟨e, parseRoot_of_error c hname⟩

theorem Safe.enter {c : Coordinator} {operation : Operation} {datamart : String}
    {f : Scope → Program Failure β}
    (hbad : ∀ e, Datamart.parseRoot c.env datamart = .error e →
      post trail (.error (.badRequest e.message)))
    (hmissing : ∀ s h, c.Serves datamart s → h.Orderly → trail.Precedes h →
      h.now.has s.root = false →
        post (.answered (.stat s.root.text) h :: trail) (.error (.noDatamart datamart)))
    (hfound : ∀ s h, c.Serves datamart s → h.Orderly → trail.Precedes h →
      h.now.has s.root = true →
        (f ⟨c, operation, datamart, s.layout⟩).Safe sites post
          (.answered (.stat s.root.text) h :: trail)) :
    (Scope.enter c operation datamart >>= f).Safe sites post trail := by
  unfold Scope.enter
  rcases parseRoot_cases c datamart with ⟨s, hserves, hroot⟩ | ⟨e, hroot⟩
  · rw [hroot]
    intro h horderly hprecedes
    have hanswer := Tree.answer_stat (t := h.now) (p := s.root)
    refine ⟨.of_same (by rw [hanswer]), ?_⟩
    rw [hanswer]
    cases hnode : h.now.find? s.root with
    | none =>
        exact hmissing s h hserves horderly hprecedes (by simp [Tree.has, hnode])
    | some node =>
        change (f ⟨c, operation, datamart, .below s.root.text⟩).Safe sites post _
        rw [← Site.layout_eq_below]
        exact hfound s h hserves horderly hprecedes (by simp [Tree.has, hnode])
  · rw [hroot]
    exact hbad e hroot

end Rules

end DeltaLedger
