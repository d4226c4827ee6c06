import Std.Data.ExtTreeMap

/-!
# Paths

The place of a node in a tree: the names that lead to it from the root. As text a path is absolute, with one slash in
front of every name, and the root is a lone slash. Paths are ordered name by name, which is the order of a walk
through the tree that takes a node before its children and siblings by name. Every path is read back from its text,
and a text that can be read is the text of what was read.
-/

namespace DeltaLedger

/-- A name that a node can have: not empty, without a slash, and no name of the node itself or of its parent. -/
def LegalName (s : String) : Prop :=
  s ≠ "" ∧ '/' ∉ s.toList ∧ s ≠ "." ∧ s ≠ ".."

instance (s : String) : Decidable (LegalName s) :=
  inferInstanceAs (Decidable (_ ∧ _))

structure Path where
  names : List String
  legal : ∀ name ∈ names, LegalName name
  deriving DecidableEq

namespace Path

instance : Ord Path := ⟨fun p q => compare p.names q.names⟩

instance : Std.TransOrd Path where
  eq_swap {p q} := Std.OrientedOrd.eq_swap (a := p.names) (b := q.names)
  isLE_trans {p q r} := Std.TransOrd.isLE_trans (a := p.names) (b := q.names) (c := r.names)

instance : Std.LawfulEqOrd Path where
  compare_self {p} := Std.ReflOrd.compare_self (a := p.names)
  eq_of_compare {p q} h := by
    have e : p.names = q.names := Std.LawfulEqOrd.eq_of_compare h
    cases p
    cases q
    cases e
    rfl

def root : Path :=
  ⟨[], by simp⟩

def parent? (p : Path) : Option Path :=
  if p.names = [] then none
  else some ⟨p.names.dropLast, fun name h => p.legal name ((List.dropLast_sublist _).subset h)⟩

/-- The name that a path adds to another one, if it adds just one. -/
def childName? (p q : Path) : Option String :=
  if q.names.dropLast = p.names then q.names.getLast? else none

/-- A path that leads through another one and further. -/
def isAbove (p q : Path) : Bool :=
  p.names.isPrefixOf q.names && p.names.length < q.names.length

def text (p : Path) : String :=
  if p.names = [] then "/" else String.ofList (p.names.flatMap fun name => '/' :: name.toList)

def pieces : List Char → List (List Char)
  | [] => [[]]
  | c :: cs =>
    if c = '/' then [] :: pieces cs
    else
      match pieces cs with
      | [] => [[c]]
      | piece :: rest => (c :: piece) :: rest

inductive Fault where
  | relative (text : String)
  | malformed (text : String)
  deriving DecidableEq, Repr

def Fault.message : Fault → String
  | .relative text => "path must be absolute: " ++ text
  | .malformed text => "malformed path: " ++ text

def parse (s : String) : Except Fault Path :=
  if s = "/" then .ok root
  else
    match s.toList with
    | '/' :: cs =>
      let names := (pieces cs).map String.ofList
      if h : ∀ name ∈ names, LegalName name then .ok ⟨names, h⟩ else .error (.malformed s)
    | _ => .error (.relative s)

def join (parent child : String) : String :=
  if parent = "/" then "/" ++ child else parent ++ "/" ++ child

/-- What stands in front of the last slash, if there is one. -/
def beforeLastSlash? : List Char → Option (List Char)
  | [] => none
  | c :: cs =>
    match beforeLastSlash? cs with
    | some before => some (c :: before)
    | none => if c = '/' then some [] else none

/-- The parent's text, found in the text alone: the part in front of the last slash, or a lone slash if that part is
empty. The root has no parent. -/
def parentText? (s : String) : Option String :=
  if s = "/" then none
  else (beforeLastSlash? s.toList).map fun before =>
    if before = [] then "/" else String.ofList before

/-! ## The written form -/

theorem pieces_ne_nil (cs : List Char) : pieces cs ≠ [] := by
  induction cs with
  | nil => simp [pieces]
  | cons c cs ih =>
    unfold pieces
    repeat' split
    all_goals simp

theorem pieces_append {name : List Char} (h : '/' ∉ name) (cs : List Char) :
    pieces (name ++ '/' :: cs) = name :: pieces cs := by
  induction name with
  | nil => simp [pieces]
  | cons c name ih =>
    have hc : c ≠ '/' := fun e => h (by simp [e])
    have ht : '/' ∉ name := fun e => h (by simp [e])
    simp [pieces, hc, ih ht]

theorem pieces_of_not_mem {name : List Char} (h : '/' ∉ name) : pieces name = [name] := by
  induction name with
  | nil => rfl
  | cons c name ih =>
    have hc : c ≠ '/' := fun e => h (by simp [e])
    have ht : '/' ∉ name := fun e => h (by simp [e])
    simp [pieces, hc, ih ht]

theorem pieces_flatMap (name : String) (names : List String) (h : ∀ s ∈ name :: names, '/' ∉ s.toList) :
    pieces (name.toList ++ names.flatMap fun s => '/' :: s.toList) = (name :: names).map String.toList := by
  induction names generalizing name with
  | nil => simpa using pieces_of_not_mem (h name (by simp))
  | cons next names ih =>
    have hn := ih next fun s hs => h s (by simp [List.mem_cons.1 hs])
    simp only [List.flatMap_cons, List.cons_append, List.map_cons] at hn ⊢
    rw [pieces_append (h name (by simp)), hn]

@[simp] theorem parse_text (p : Path) : parse p.text = .ok p := by
  obtain ⟨names, legal⟩ := p
  cases names with
  | nil => rfl
  | cons name names =>
    have hne : name.toList ≠ [] := by
      intro e
      exact (legal name (by simp)).1 (String.toList_injective (by simpa using e))
    have htext : text ⟨name :: names, legal⟩ =
        String.ofList ('/' :: (name.toList ++ names.flatMap fun s => '/' :: s.toList)) := by
      simp [text]
    have hslash : text ⟨name :: names, legal⟩ ≠ "/" := by
      rw [htext]
      intro e
      have := congrArg String.toList e
      simp [hne] at this
    have hp := pieces_flatMap name names fun s hs => (legal s hs).2.1
    unfold parse
    rw [if_neg hslash, htext]
    simp only [String.toList_ofList, hp, List.map_map]
    have hid : (List.map (String.ofList ∘ String.toList) (name :: names)) = name :: names := by
      simp [Function.comp_def]
    simp only [hid]
    rw [dif_pos legal]

theorem flatMap_pieces (cs : List Char) : (pieces cs).flatMap (fun piece => '/' :: piece) = '/' :: cs := by
  induction cs with
  | nil => rfl
  | cons c cs ih =>
    unfold pieces
    by_cases hc : c = '/'
    · simp [hc, ih]
    · rw [if_neg hc]
      cases hp : pieces cs with
      | nil => exact absurd hp (pieces_ne_nil cs)
      | cons piece rest =>
        rw [hp] at ih
        simp only [List.flatMap_cons, List.cons_append, List.cons.injEq, true_and] at ih ⊢
        exact ih

theorem text_of_parse {s : String} {p : Path} (h : parse s = .ok p) : p.text = s := by
  unfold parse at h
  split at h
  · next hs =>
    cases h
    exact hs.symm
  · split at h
    · next cs hs =>
      dsimp only at h
      split at h
      · cases h
        have hne : (pieces cs).map String.ofList ≠ [] := by simp [pieces_ne_nil]
        simp only [text, if_neg hne]
        apply String.toList_injective
        simp [List.flatMap_map, flatMap_pieces, hs]
      · simp at h
    · simp at h

end Path
end DeltaLedger
