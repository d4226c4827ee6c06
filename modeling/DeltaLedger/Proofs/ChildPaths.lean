import Mathlib.Data.List.Induction
import DeltaLedger.Proofs.AloneRules

/-!
# Paths of children

A path and a legal name lead to the path of a child, whose text is the joined text of the two.  When a
name without a slash is joined to a path, the text can be read only if the name is legal; the empty
name is an exception, for joined to the root it is the root again.
-/

namespace DeltaLedger
namespace Path

variable {p q : Path} {name : String}

/-- The path of the node of a name right below. -/
def child (p : Path) (name : String) (hlegal : LegalName name) : Path :=
  ⟨p.names ++ [name], by
    intro s hs
    rcases List.mem_append.mp hs with hbefore | hlast
    · exact p.legal s hbefore
    · rwa [List.mem_singleton.mp hlast]⟩

theorem text_child (p : Path) (hlegal : LegalName name) :
    (p.child name hlegal).text = join p.text name :=
  text_append_name p.legal (p.child name hlegal).legal

theorem child_ne_root (p : Path) (hlegal : LegalName name) : p.child name hlegal ≠ root := by
  intro hroot
  have hnames := congrArg Path.names hroot
  simp [child, root] at hnames

theorem ext_names (hnames : p.names = q.names) : p = q := by
  cases p
  cases q
  cases hnames
  rfl

theorem names_ne_nil (hne : p ≠ root) : p.names ≠ [] :=
  fun hnil => hne (ext_names hnil)

theorem toList_text (hne : p ≠ root) :
    p.text.toList = p.names.flatMap fun s => '/' :: s.toList := by
  rw [text, if_neg (names_ne_nil hne), String.toList_ofList]

/-- A path leads through another one and further if it goes on with a name. -/
theorem isAbove_iff : p.isAbove q = true ↔ ∃ name rest, q.names = p.names ++ name :: rest := by
  rw [isAbove, Bool.and_eq_true, List.isPrefixOf_iff_prefix, decide_eq_true_eq]
  constructor
  · rintro ⟨⟨rest, hrest⟩, hlonger⟩
    cases rest with
    | nil =>
        rw [← hrest, List.append_nil] at hlonger
        exact absurd hlonger (Nat.lt_irrefl _)
    | cons name rest => exact ⟨name, rest, hrest.symm⟩
  · rintro ⟨name, rest, hnames⟩
    rw [hnames, List.length_append, List.length_cons]
    exact ⟨List.prefix_append _ _, by omega⟩

theorem parent?_child (p : Path) (hlegal : LegalName name) :
    (p.child name hlegal).parent? = some p := by
  simp [parent?, child]

/-- A path is the root, or the path of a child. -/
theorem child_induction {motive : Path → Prop} (root : motive root)
    (child : ∀ p name hlegal, motive p → motive (p.child name hlegal)) (q : Path) : motive q := by
  obtain ⟨names, legal⟩ := q
  induction names using List.reverseRecOn with
  | nil => exact root
  | append_singleton names name ih =>
      exact child _ name (legal name (by simp)) (ih fun s hs => legal s (by simp [hs]))

theorem childName?_child (p : Path) (hlegal : LegalName name) :
    p.childName? (p.child name hlegal) = some name := by
  simp [childName?, child]

theorem eq_child_of_childName? (hname : p.childName? q = some name) :
    ∃ hlegal, q = p.child name hlegal := by
  have hnames : q.names = p.names ++ [name] := Site.names_of_childName? hname
  exact ⟨q.legal name (by simp [hnames]), ext_names hnames⟩

theorem pieces_append_slash (cs ds : List Char) :
    pieces (cs ++ '/' :: ds) = pieces cs ++ pieces ds := by
  induction cs with
  | nil => simp [pieces]
  | cons c cs ih =>
      rw [List.cons_append, pieces, pieces, ih]
      split
      next => rfl
      next =>
        cases hpieces : pieces cs with
        | nil => exact absurd hpieces (pieces_ne_nil cs)
        | cons piece rest => rfl

theorem eq_root_of_text (hslash : p.text = "/") : p = root := by
  have hparse := parse_text p
  rw [hslash] at hparse
  exact (Except.ok.inj hparse).symm

theorem text_eq_slash_iff : p.text = "/" ↔ p = root :=
  ⟨eq_root_of_text, fun hroot => hroot ▸ rfl⟩

theorem text_ne_empty (p : Path) : p.text ≠ "" := by
  intro hempty
  have hparse := parse_text p
  rw [hempty] at hparse
  cases hparse

theorem join_ne_slash {parent : String} (hparent : parent ≠ "") (hne : name ≠ "") :
    join parent name ≠ "/" := by
  intro hslash
  have hlength : (join parent name).length = 1 := congrArg String.length hslash
  have hparent' : parent.length ≠ 0 := mt String.length_eq_zero_iff.mp hparent
  have hname : name.length ≠ 0 := mt String.length_eq_zero_iff.mp hne
  have hone : "/".length = 1 := rfl
  unfold join at hlength
  split at hlength <;> simp only [String.length_append] at hlength <;> omega

/-- Behind its first slash the text of a path falls into the names. -/
theorem exists_pieces_text (hne : p ≠ root) :
    ∃ cs, p.text.toList = '/' :: cs ∧ pieces cs = p.names.map String.toList := by
  obtain ⟨first, names, hfirst⟩ := List.exists_cons_of_ne_nil (names_ne_nil hne)
  rw [toList_text hne, hfirst]
  exact ⟨_, List.flatMap_cons, pieces_flatMap first names fun s hs => (p.legal s (hfirst ▸ hs)).2.1⟩

/-- The joined name is the last piece of the text. -/
theorem exists_pieces_of_join (p : Path) (hslash : '/' ∉ name.toList) :
    ∃ cs, (join p.text name).toList = '/' :: cs ∧ name.toList ∈ pieces cs := by
  have hlast : pieces name.toList = [name.toList] := pieces_of_not_mem hslash
  by_cases hroot : p = root
  · subst hroot
    refine ⟨name.toList, ?_, by simp [hlast]⟩
    simp [join, text, root]
  · obtain ⟨cs, hchars, _⟩ := exists_pieces_text hroot
    refine ⟨cs ++ '/' :: name.toList, ?_, ?_⟩
    · rw [join, if_neg fun heq => hroot (eq_root_of_text heq)]
      simp [hchars]
    · rw [pieces_append_slash, hlast]
      exact List.mem_append_right _ (List.mem_singleton.mpr rfl)

theorem legalName_of_parse_join (hnotRoot : join p.text name ≠ "/") (hslash : '/' ∉ name.toList)
    (hparse : parse (join p.text name) = .ok q) : LegalName name := by
  obtain ⟨cs, hchars, hpiece⟩ := exists_pieces_of_join p hslash
  unfold parse at hparse
  simp only [hnotRoot, hchars, if_false] at hparse
  split at hparse
  next hlegal =>
    rw [← String.ofList_toList (s := name)]
    exact hlegal _ (List.mem_map_of_mem hpiece)
  next => cases hparse

/-- A joined text is the path of a child, or it cannot be read. -/
theorem parse_join_eq_ok_iff (hnotRoot : join p.text name ≠ "/") (hslash : '/' ∉ name.toList) :
    parse (join p.text name) = .ok q ↔ ∃ hlegal, q = p.child name hlegal := by
  constructor
  · intro hparse
    have hlegal := legalName_of_parse_join hnotRoot hslash hparse
    refine ⟨hlegal, ?_⟩
    rw [← text_child p hlegal, parse_text] at hparse
    exact (Except.ok.inj hparse).symm
  · rintro ⟨hlegal, rfl⟩
    rw [← text_child, parse_text]

end Path
end DeltaLedger
