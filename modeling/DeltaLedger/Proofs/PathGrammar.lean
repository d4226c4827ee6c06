import DeltaLedger.Proofs.ChildPaths

/-!
# The grammar of paths

A text is the text of a path if it is a lone slash, or if it consists of legal names with a slash in
front of each, and no other names make up the same text.  What stands in front of the last slash is
the path of the parent, and what stands behind it is the name that joins the parent to the path
again.  So three rules describe the same paths: reading goes from slash to slash, the parent ends
before the last one, and joining makes an exception of the root.
-/

namespace DeltaLedger
namespace Path

variable {s parent name : String} {names names' : List String} {p q : Path}

/-! ## Texts made up of names -/

/-- A text made up of legal names, at least one of them, each with a slash in front of it. -/
structure SpelledBy (names : List String) (s : String) : Prop where
  nonempty : names ≠ []
  legal : ∀ name ∈ names, LegalName name
  joined : s = String.join (names.map ("/" ++ ·))

theorem text_eq_join (hne : p.names ≠ []) : p.text = String.join (p.names.map ("/" ++ ·)) := by
  apply String.toList_injective
  simp [text, hne, List.flatMap_map]

theorem spelledBy_text (hne : p.names ≠ []) : SpelledBy p.names p.text :=
  ⟨hne, p.legal, text_eq_join hne⟩

theorem SpelledBy.exists_text (hspelled : SpelledBy names s) :
    ∃ p : Path, p.names = names ∧ p.text = s :=
  ⟨⟨names, hspelled.legal⟩, rfl,
    (text_eq_join hspelled.nonempty).trans hspelled.joined.symm⟩

theorem SpelledBy.unique (hspelled : SpelledBy names s) (hspelled' : SpelledBy names' s) :
    names = names' := by
  obtain ⟨p, rfl, htext⟩ := hspelled.exists_text
  obtain ⟨q, rfl, htext'⟩ := hspelled'.exists_text
  exact congrArg Path.names (text_injective (htext.trans htext'.symm))

theorem exists_parse_iff : (∃ p, parse s = .ok p) ↔ s = "/" ∨ ∃ names, SpelledBy names s := by
  constructor
  · rintro ⟨p, hparse⟩
    rw [← text_of_parse hparse]
    by_cases hne : p.names = []
    · exact .inl (if_pos hne)
    · exact .inr ⟨p.names, spelledBy_text hne⟩
  · rintro (rfl | ⟨names, hspelled⟩)
    · exact ⟨root, rfl⟩
    · obtain ⟨p, _, rfl⟩ := hspelled.exists_text
      exact ⟨p, parse_text p⟩

/-! ## The last slash -/

theorem beforeLastSlash?_of_not_mem {cs : List Char} (hslash : '/' ∉ cs) :
    beforeLastSlash? cs = none := by
  induction cs with
  | nil => rfl
  | cons c cs ih =>
      have hc : c ≠ '/' := fun hsame => hslash (by simp [hsame])
      have hcs : '/' ∉ cs := fun hmem => hslash (List.mem_cons_of_mem c hmem)
      simp [beforeLastSlash?, ih hcs, hc]

theorem beforeLastSlash?_append {cs : List Char} (hslash : '/' ∉ cs) (before : List Char) :
    beforeLastSlash? (before ++ '/' :: cs) = some before := by
  induction before with
  | nil => simp [beforeLastSlash?, beforeLastSlash?_of_not_mem hslash]
  | cons c before ih => simp [beforeLastSlash?, ih]

theorem join_injective (parent : String) : Function.Injective (join parent) := by
  intro name name' hsame
  apply String.toList_injective
  unfold join at hsame
  have hchars := congrArg String.toList hsame
  split at hchars <;> simpa using hchars

/-- A name without a slash that is joined to a text leads back to the text. -/
theorem parentText?_join (hparent : parent ≠ "") (hne : name ≠ "") (hslash : '/' ∉ name.toList) :
    parentText? (join parent name) = some parent := by
  rw [parentText?, if_neg (join_ne_slash hparent hne)]
  by_cases hroot : parent = "/"
  · -- The root brings its own slash, so the last one is the first character.
    subst hroot
    have hchars : (join "/" name).toList = [] ++ '/' :: name.toList := by simp [join]
    rw [hchars, beforeLastSlash?_append hslash]
    rfl
  · have hchars : (join parent name).toList = parent.toList ++ '/' :: name.toList := by
      simp [join, hroot]
    rw [hchars, beforeLastSlash?_append hslash]
    simp [hparent]

/-- The last slash of a path is the one before its last name. -/
theorem parentText?_text (p : Path) : parentText? p.text = p.parent?.map text := by
  induction p using child_induction with
  | root => rfl
  | child q name hlegal _ =>
      rw [text_child, parent?_child, Option.map_some]
      exact parentText?_join q.text_ne_empty hlegal.1 hlegal.2.1

/-! ## Parents and children -/

theorem exists_parent_join (hparse : parse s = .ok p) (hne : s ≠ "/") :
    ∃ t q, parentText? s = some t ∧ parse t = .ok q ∧ p.parent? = some q ∧
      ∃! name, LegalName name ∧ s = join t name := by
  obtain rfl := text_of_parse hparse
  induction p using child_induction with
  | root => exact absurd rfl hne
  | child q name hlegal _ =>
      refine ⟨q.text, q, ?_, parse_text q, parent?_child q hlegal, name,
        ⟨hlegal, text_child q hlegal⟩, ?_⟩
      · rw [parentText?_text, parent?_child, Option.map_some]
      · rintro name' ⟨_, hjoined⟩
        rw [text_child] at hjoined
        exact (join_injective q.text hjoined).symm

theorem exists_parse_join (hparse : parse s = .ok q) (hlegal : LegalName name) :
    ∃ p, parse (join s name) = .ok p ∧ p.parent? = some q ∧ parentText? (join s name) = some s := by
  obtain rfl := text_of_parse hparse
  refine ⟨q.child name hlegal, ?_, parent?_child q hlegal, ?_⟩
  · rw [← text_child q hlegal, parse_text]
  · rw [← text_child q hlegal, parentText?_text, parent?_child, Option.map_some]

end Path

namespace Name

variable {field s : String} {name : Name}

theorem parseField_eq_ok_iff : parseField field s = .ok name ↔ parse s = .ok name := by
  unfold parseField
  split
  next hparse => rw [hparse]; simp
  next hparse => rw [hparse]; simp

theorem exists_parseField_iff :
    (∃ name, parseField field s = .ok name) ↔ s ≠ "" ∧ ∀ c ∈ s.toList, allows c = true := by
  constructor
  · rintro ⟨name, hname⟩
    rw [← text_of_parse (parseField_eq_ok_iff.mp hname)]
    exact ⟨name.nonempty, name.allowed⟩
  · rintro ⟨hne, hallowed⟩
    exact ⟨⟨s, hne, hallowed⟩, parseField_eq_ok_iff.mpr (parse_text ⟨s, hne, hallowed⟩)⟩

theorem legalName_of_parseField (hname : parseField field s = .ok name) : LegalName s := by
  rw [← text_of_parse (parseField_eq_ok_iff.mp hname)]
  exact name.legal

end Name

namespace Path

/-- Reading, the parent and joining follow one grammar.  A text can be read if it is a lone slash or
if legal names spell it, and no other names spell the same text.  A path other than the root is its
parent joined with just one legal name, and a path joined with a legal name has the path as its
parent, whether the parent is found by the names or by the last slash.  The texts that are accepted
as the name of an environment or a datamart are legal names. -/
theorem parse_parent_join_agree :
    (∀ s, (∃ p, parse s = .ok p) ↔ s = "/" ∨ ∃ names, SpelledBy names s) ∧
    (∀ s names names', SpelledBy names s → SpelledBy names' s → names = names') ∧
    (∀ s p, parse s = .ok p → s ≠ "/" →
      ∃ t q, parentText? s = some t ∧ parse t = .ok q ∧ p.parent? = some q ∧
        ∃! name, LegalName name ∧ s = join t name) ∧
    (∀ s q name, parse s = .ok q → LegalName name →
      ∃ p, parse (join s name) = .ok p ∧ p.parent? = some q ∧
        parentText? (join s name) = some s) ∧
    (∀ field s, (∃ name, Name.parseField field s = .ok name) ↔
      s ≠ "" ∧ ∀ c ∈ s.toList, Name.allows c = true) ∧
    ∀ field s name, Name.parseField field s = .ok name → LegalName s := by
  refine ⟨fun s => exists_parse_iff, ?_, ?_, ?_, fun field s => Name.exists_parseField_iff, ?_⟩
  · exact fun s names names' hspelled hspelled' => hspelled.unique hspelled'
  · exact fun s p hparse hne => exists_parent_join hparse hne
  · exact fun s q name hparse hlegal => exists_parse_join hparse hlegal
  · exact fun field s name hname => Name.legalName_of_parseField hname

/-- Three dots are a name like any other, and a datamart's path leads back to its environment. -/
theorem parse_parent_join_agree_dots :
    SpelledBy ["test", "..."] "/test/..." ∧
      (∀ names, SpelledBy names "/test/..." → names = ["test", "..."]) ∧
      (∃ p q, parse "/test/..." = .ok p ∧ "/test/..." ≠ "/" ∧ parse "/test" = .ok q ∧
        p.parent? = some q ∧ ∃! name, LegalName name ∧ "/test/..." = join "/test" name) ∧
      (∃ name, Name.parseField "datamart" "dtm_1" = .ok name) ∧
      parentText? (join "/test" "dtm_1") = some "/test" := by
  obtain ⟨hreads, hunique, hparent, hjoin, hnames, hlegal⟩ := parse_parent_join_agree
  have hspelled : SpelledBy ["test", "..."] "/test/..." := ⟨by decide, by decide, by decide⟩
  obtain ⟨p, hparse⟩ := (hreads _).mpr (.inr ⟨_, hspelled⟩)
  obtain ⟨t, q, htext, hq, hparse', hname⟩ := hparent _ _ hparse (by decide)
  have ht : t = "/test" := Option.some.inj (htext.symm.trans (by decide))
  subst ht
  have hallowed : ∀ c ∈ "dtm_1".toList, Name.allows c = true := List.all_eq_true.mp (by decide)
  obtain ⟨datamart, hdatamart⟩ := (hnames "datamart" "dtm_1").mpr ⟨by decide, hallowed⟩
  obtain ⟨_, _, _, hback⟩ := hjoin _ _ _ hq (hlegal _ _ _ hdatamart)
  exact ⟨hspelled, fun names hnames => hunique _ _ _ hnames hspelled,
    ⟨p, q, hparse, by decide, hq, hparse', hname⟩, ⟨datamart, hdatamart⟩, hback⟩

end Path
end DeltaLedger
