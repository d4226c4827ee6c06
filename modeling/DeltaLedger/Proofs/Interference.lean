import DeltaLedger.Proofs.History

/-!
# Programs under interference

A program of a client makes its calls while other clients make theirs.  It is safe
when each of its calls, at whatever moment of an orderly history it is served,
changes nothing or makes a turn of one of the client's sites, and when its result
agrees with what the client has seen on the way.  What was seen is a trail: the calls
with the moment of each, and the looks at the clock.

The rules below follow the constructors of programs and the parts that requests are
built of.  A rule for a part speaks about the book of the site at the moment of the
call and leaves the tree out of sight.
-/

namespace DeltaLedger

/-- What a client sees. -/
inductive Sight where
  | answered (c : Call) (h : History)
  | told (now : DateTime)

/-- What a client has seen, the newest first. -/
abbrev Trail :=
  List Sight

namespace Trail

/-- The calls that were seen are over at a moment. -/
def Precedes (trail : Trail) (h : History) : Prop :=
  ∀ c h', .answered c h' ∈ trail → h'.next (h'.now.answer c).2 ≤ h

/-- The calls that were seen changed nothing. -/
def Quiet (trail : Trail) : Prop :=
  ∀ c h, .answered c h ∈ trail → (h.now.answer c).2 = h.now

/-- The calls that were seen committed no transaction and changed nothing. -/
def Uncommitted (trail : Trail) : Prop :=
  ∀ c h, .answered c h ∈ trail → c.commits h.now = false ∧ (h.now.answer c).2 = h.now

/-- The moment of the last read of a node. -/
def lastRead (path : String) : Trail → Option History
  | [] => none
  | .answered (.read p) h :: trail => if p = path then some h else lastRead path trail
  | _ :: trail => lastRead path trail

theorem Precedes.le {trail : Trail} {c : Call} {h h' : History} (hprecedes : trail.Precedes h)
    (hmem : .answered c h' ∈ trail) : h' ≤ h :=
  History.le_of_next_le (hprecedes c h' hmem)

theorem Precedes.tail {sight : Sight} {trail : Trail} {h : History}
    (hprecedes : Precedes (sight :: trail) h) : trail.Precedes h :=
  fun c h' hmem => hprecedes c h' (List.mem_cons_of_mem _ hmem)

theorem Precedes.head {trail : Trail} {c : Call} {h h' : History}
    (hprecedes : Precedes (.answered c h' :: trail) h) : h' ≤ h :=
  hprecedes.le List.mem_cons_self

theorem Precedes.of_append {seen trail : Trail} {h : History}
    (hprecedes : Precedes (seen ++ trail) h) : trail.Precedes h :=
  fun c h' hmem => hprecedes c h' (List.mem_append_right _ hmem)

theorem Quiet.answered {trail : Trail} {c : Call} {h : History} (hquiet : trail.Quiet)
    (hsame : (h.now.answer c).2 = h.now) : Quiet (.answered c h :: trail) := by
  intro c' h' hmem
  rcases List.mem_cons.mp hmem with hhead | hmem
  · cases hhead
    exact hsame
  · exact hquiet c' h' hmem

theorem Quiet.told {trail : Trail} {now : DateTime} (hquiet : trail.Quiet) :
    Quiet (.told now :: trail) := by
  intro c h hmem
  rcases List.mem_cons.mp hmem with hhead | hmem
  · cases hhead
  · exact hquiet c h hmem

theorem Quiet.append {trail seen : Trail} (hseen : seen.Quiet) (hquiet : trail.Quiet) :
    Quiet (seen ++ trail) := by
  intro c h hmem
  rcases List.mem_append.mp hmem with hmem | hmem
  · exact hseen c h hmem
  · exact hquiet c h hmem

theorem quiet_nil : Quiet [] := nofun

theorem Quiet.singleton {c : Call} {h : History} (hsame : (h.now.answer c).2 = h.now) :
    Quiet [.answered c h] :=
  quiet_nil.answered hsame

theorem uncommitted_nil : Uncommitted [] := nofun

theorem Uncommitted.answered {trail : Trail} {c : Call} {h : History}
    (huncommitted : trail.Uncommitted) (hcommits : c.commits h.now = false)
    (hsame : (h.now.answer c).2 = h.now) : Uncommitted (.answered c h :: trail) := by
  intro c' h' hmem
  rcases List.mem_cons.mp hmem with hhead | htail
  · cases hhead
    exact ⟨hcommits, hsame⟩
  · exact huncommitted c' h' htail

theorem Uncommitted.told {trail : Trail} (huncommitted : trail.Uncommitted) (now : DateTime) :
    Uncommitted (.told now :: trail) := by
  intro c h hmem
  rcases List.mem_cons.mp hmem with hhead | htail
  · cases hhead
  · exact huncommitted c h htail

theorem Uncommitted.append {trail seen : Trail} (hseen : seen.Uncommitted)
    (huncommitted : trail.Uncommitted) : Uncommitted (seen ++ trail) := by
  intro c h hmem
  rcases List.mem_append.mp hmem with hmem | hmem
  · exact hseen c h hmem
  · exact huncommitted c h hmem

theorem mem_of_lastRead {path : String} {trail : Trail} {h : History}
    (hlast : trail.lastRead path = some h) : .answered (.read path) h ∈ trail := by
  induction trail with
  | nil => cases hlast
  | cons sight trail ih =>
      unfold lastRead at hlast
      split at hlast
      next => contradiction
      next p h' trail' heq =>
        cases heq
        split at hlast
        next hp =>
          cases hlast
          subst hp
          exact List.mem_cons_self
        next => exact List.mem_cons_of_mem _ (ih hlast)
      next sight' trail' _ heq =>
        cases heq
        exact List.mem_cons_of_mem _ (ih hlast)

theorem lastRead_self {path : String} {trail : Trail} {h : History} :
    lastRead path (.answered (.read path) h :: trail) = some h :=
  if_pos rfl

theorem lastRead_of_ne {path p : String} {trail : Trail} {h : History} (hne : p ≠ path) :
    lastRead path (.answered (.read p) h :: trail) = lastRead path trail :=
  if_neg hne

theorem lastRead_append {path : String} {seen trail : Trail}
    (helsewhere : ∀ h, .answered (.read path) h ∉ seen) :
    lastRead path (seen ++ trail) = lastRead path trail := by
  induction seen with
  | nil => rfl
  | cons sight seen ih =>
      have hrest := ih fun h hmem => helsewhere h (List.mem_cons_of_mem _ hmem)
      cases sight with
      | told => exact hrest
      | answered c h =>
          cases c with
          | read p =>
              have hne : p ≠ path := by
                rintro rfl
                exact helsewhere h List.mem_cons_self
              exact (lastRead_of_ne hne).trans hrest
          | _ => exact hrest

end Trail

/-- What a move takes from a read is what the last read of the hot delta showed. -/
def Move.Seen (s : Site) (trail : Trail) : Move → Prop
  | marked view _ => ∃ h version, trail.lastRead (s.path .hot).text = some h ∧
      (s.book h.now).hot = some ⟨view, version⟩
  | promoted view _ => view.rollingBack = false ∧
      ∃ h version, trail.lastRead (s.path .hot).text = some h ∧
        (s.book h.now).hot = some ⟨view, version⟩
  | _ => True

/-- What a call of a client may do, given the client's sites and its trail. -/
def Call.Proper (sites : Site → Prop) (trail : Trail) (c : Call) (h : History) : Prop :=
  (h.now.answer c).2 = h.now ∨
    ∃ s m, sites s ∧ Site.Turns s m h.now (h.now.answer c).2 ∧ m.Seen s trail

theorem Call.Proper.changes {sites : Site → Prop} {trail : Trail} {c : Call} {h : History}
    (hproper : c.Proper sites trail h) : h.now.Changes (h.now.answer c).2 := by
  rcases hproper with hsame | ⟨s, m, _, hturns, _⟩
  · exact .inl hsame
  · exact .inr ⟨s, m, hturns⟩

namespace Program

variable {ε ε' α β : Type}

/-- Every call of the program is proper, and its result is as stated. -/
def Safe (sites : Site → Prop) (post : Trail → Except ε α → Prop) : Program ε α → Trail → Prop
  | .done result, trail => post trail result
  | .call c next, trail => ∀ h : History, h.Orderly → trail.Precedes h →
      c.Proper sites trail h ∧ (next (h.now.answer c).1).Safe sites post (.answered c h :: trail)
  | .clock next, trail => ∀ now, (next now).Safe sites post (.told now :: trail)
  | .note _ next, trail => next.Safe sites post trail

/-! ## Rules for programs in general -/

theorem bind_bind {γ : Type} (p : Program ε α) (f : α → Program ε β) (g : β → Program ε γ) :
    (p >>= f) >>= g = p >>= fun a => f a >>= g :=
  bind_assoc p f g

section General

variable {sites : Site → Prop} {trail : Trail}

theorem Safe.mono {p : Program ε α} {post post' : Trail → Except ε α → Prop}
    (hsafe : p.Safe sites post trail)
    (himp : ∀ trail result, post trail result → post' trail result) :
    p.Safe sites post' trail := by
  induction p generalizing trail with
  | done result => exact himp trail result hsafe
  | call c next ih =>
      intro h horderly hprecedes
      obtain ⟨hproper, hnext⟩ := hsafe h horderly hprecedes
      exact ⟨hproper, ih _ hnext⟩
  | clock next ih => exact fun now => ih now (hsafe now)
  | note n next ih => exact ih hsafe

theorem Safe.andThen {p : Program ε α} {f : Except ε α → Program ε' β}
    {mid : Trail → Except ε α → Prop} {post : Trail → Except ε' β → Prop}
    (hsafe : p.Safe sites mid trail)
    (hnext : ∀ trail result, mid trail result → (f result).Safe sites post trail) :
    (p.andThen f).Safe sites post trail := by
  induction p generalizing trail with
  | done result => exact hnext trail result hsafe
  | call c next ih =>
      intro h horderly hprecedes
      obtain ⟨hproper, hrest⟩ := hsafe h horderly hprecedes
      exact ⟨hproper, ih _ hrest⟩
  | clock next ih => exact fun now => ih now (hsafe now)
  | note n next ih => exact ih hsafe

theorem Safe.bind {p : Program ε α} {f : α → Program ε β}
    {mid : Trail → Except ε α → Prop} {post : Trail → Except ε β → Prop}
    (hsafe : p.Safe sites mid trail)
    (hok : ∀ trail a, mid trail (.ok a) → (f a).Safe sites post trail)
    (herror : ∀ trail e, mid trail (.error e) → post trail (.error e)) :
    (p >>= f).Safe sites post trail := by
  induction p generalizing trail with
  | done result =>
      cases result with
      | ok a => exact hok trail a hsafe
      | error e => exact herror trail e hsafe
  | call c next ih =>
      intro h horderly hprecedes
      obtain ⟨hproper, hrest⟩ := hsafe h horderly hprecedes
      exact ⟨hproper, ih _ hrest⟩
  | clock next ih => exact fun now => ih now (hsafe now)
  | note n next ih => exact ih hsafe

theorem Safe.map {p : Program ε α} {f : α → β} {mid : Trail → Except ε α → Prop}
    {post : Trail → Except ε β → Prop} (hsafe : p.Safe sites mid trail)
    (hok : ∀ trail a, mid trail (.ok a) → post trail (.ok (f a)))
    (herror : ∀ trail e, mid trail (.error e) → post trail (.error e)) :
    (f <$> p).Safe sites post trail :=
  hsafe.bind hok herror

theorem Safe.ofExcept {result : Except ε α} {f : α → Program ε β}
    {post : Trail → Except ε β → Prop}
    (hok : ∀ a, result = .ok a → (f a).Safe sites post trail)
    (herror : ∀ e, result = .error e → post trail (.error e)) :
    (Program.ofExcept result >>= f).Safe sites post trail := by
  cases result with
  | ok a => exact hok a rfl
  | error e => exact herror e rfl

end General

end Program
end DeltaLedger
