import DeltaLedger.Datamart.Root
import DeltaLedger.Epoch.Layout
import DeltaLedger.Proofs.WrittenDate

/-!
# Places of a datamart

A site is a datamart of an environment.  Everything it keeps lies at one of six
kinds of places below its root, and the layout writes the path of each of them.
Different sites and different places have different paths, so a change at one
place is a change at no other.
-/

namespace DeltaLedger

namespace Decimal

theorem length_signedPadded {n : Int} (hfits : Fits n) : (signedPadded 20 n).length = 20 := by
  obtain ⟨hlow, hhigh⟩ := hfits
  unfold signedPadded
  split
  next hneg =>
    rw [List.length_cons, length_padded (by decide) (by omega)]
  next hneg =>
    exact length_padded (by decide) (by omega)

theorem signedPadded_ascii {width : Nat} {n : Int} {c : Char} (hc : c ∈ signedPadded width n) :
    c = '-' ∨ c.isDigit = true := by
  unfold signedPadded at hc
  split at hc
  next =>
    rcases List.mem_cons.mp hc with hminus | hdigit
    · exact .inl hminus
    · exact .inr (isDigit_of_mem_padded hdigit)
  next =>
    exact .inr (isDigit_of_mem_padded hc)

end Decimal

namespace Layout

theorem utf8Size_of_ascii {c : Char} (hc : c = '-' ∨ c.isDigit = true) : c.utf8Size = 1 := by
  rcases hc with rfl | hdigit
  · rfl
  · rw [Char.utf8Size_eq_one_iff]
    simp only [Char.isDigit, Bool.and_eq_true, decide_eq_true_eq] at hdigit
    exact UInt32.le_trans hdigit.2 (by decide)

theorem utf8ByteSize_ofList {cs : List Char} (hcs : ∀ c ∈ cs, c.utf8Size = 1) :
    (String.ofList cs).utf8ByteSize = cs.length := by
  induction cs with
  | nil => rfl
  | cons c cs ih =>
      have hhead : (String.ofList [c]).utf8ByteSize = 1 := by
        have hsingle : String.ofList [c] = String.singleton c := rfl
        rw [hsingle, String.utf8ByteSize_singleton]
        exact hcs c (by simp)
      have htail := ih fun d hd => hcs d (by simp [hd])
      have hsplit : String.ofList (c :: cs) = String.ofList [c] ++ String.ofList cs := by
        rw [← String.ofList_append, List.singleton_append]
      rw [hsplit, String.utf8ByteSize_append, hhead, htail, List.length_cons]
      omega

@[simp] theorem toList_key (n : Int) : (key n).toList = Decimal.signedPadded 20 n :=
  String.toList_ofList ..

theorem utf8ByteSize_key {n : Int} (hfits : Decimal.Fits n) : (key n).utf8ByteSize = 20 := by
  unfold key
  rw [utf8ByteSize_ofList, Decimal.length_signedPadded hfits]
  exact fun c hc => utf8Size_of_ascii (Decimal.signedPadded_ascii hc)

theorem number?_key {n : Int} (hfits : Decimal.Fits n) : number? (key n) = some n := by
  unfold number?
  rw [if_pos (utf8ByteSize_key hfits), toList_key, Decimal.signedValue?_signedPadded]
  simp [Decimal.fitting?, hfits]

theorem key_injective {m n : Int} (hsame : key m = key n) : m = n := by
  have hspelled := congrArg (fun s : String => Decimal.signedValue? s.toList) hsame
  simpa using hspelled

theorem legalName_key (n : Int) : LegalName (key n) := by
  have hascii : ∀ c ∈ (key n).toList, c = '-' ∨ c.isDigit = true := by
    intro c hc
    rw [toList_key] at hc
    exact Decimal.signedPadded_ascii hc
  refine ⟨?_, ?_, ?_, ?_⟩
  · intro hempty
    have hvalue := Decimal.signedValue?_signedPadded 20 n
    rw [← toList_key, hempty] at hvalue
    exact absurd hvalue (by simp [Decimal.signedValue?, Decimal.value?])
  · intro hslash
    exact absurd (hascii '/' hslash) (by decide)
  · intro hdot
    exact absurd (hascii '.' (by simp [hdot])) (by decide)
  · intro hdots
    exact absurd (hascii '.' (by simp [hdots])) (by decide)

end Layout

theorem Name.text_injective {m n : Name} (hsame : m.text = n.text) : m = n := by
  cases m
  cases n
  cases hsame
  rfl

theorem Name.text_of_parse {s : String} {name : Name} (hparse : Name.parse s = .ok name) :
    name.text = s := by
  unfold Name.parse at hparse
  split at hparse
  next => cases hparse
  next =>
    split at hparse
    next => cases hparse
    next =>
      cases hparse
      rfl

@[simp] theorem Name.parse_text (name : Name) : Name.parse name.text = .ok name := by
  unfold Name.parse
  rw [dif_neg name.nonempty]
  split
  next c hfind =>
    have hbad := List.find?_some hfind
    rw [name.allowed c (List.mem_of_find?_eq_some hfind)] at hbad
    cases hbad
  next => rfl

/-- A datamart of an environment. -/
structure Site where
  env : Name
  datamart : Name
  deriving DecidableEq

/-- Where a datamart keeps something. -/
inductive Place where
  | counters
  | hot
  | okDeltas
  | ok (deltaNum : Int)
  | writes
  | write (sysCn : Int)
  deriving DecidableEq

/-- The names that lead to a place from the root of its datamart. -/
def Place.names : Place → List String
  | counters => ["delta"]
  | hot => ["delta", "hot"]
  | okDeltas => ["delta", "num"]
  | ok deltaNum => ["delta", "num", Layout.key deltaNum]
  | writes => ["delta", "write_op"]
  | write sysCn => ["delta", "write_op", Layout.key sysCn]

theorem Place.legalName_of_mem_names {place : Place} {name : String} (hname : name ∈ place.names) :
    LegalName name := by
  have hdelta : LegalName "delta" := by decide
  have hhot : LegalName "hot" := by decide
  have hnum : LegalName "num" := by decide
  have hwrites : LegalName "write_op" := by decide
  cases place <;>
    simp only [names, List.mem_cons, List.not_mem_nil, or_false] at hname <;>
    rcases hname with rfl | rfl | rfl <;>
    first | assumption | exact Layout.legalName_key _

theorem Place.names_injective {place place' : Place} (hsame : place.names = place'.names) :
    place = place' := by
  cases place <;> cases place' <;> simp [names] at hsame ⊢
  · exact Layout.key_injective hsame
  · exact Layout.key_injective hsame

theorem Path.text_append_name
    {names : List String} {name : String}
    (hlegal : ∀ s ∈ names, LegalName s) (hlegal' : ∀ s ∈ names ++ [name], LegalName s) :
    Path.text ⟨names ++ [name], hlegal'⟩ = Path.join (Path.text ⟨names, hlegal⟩) name := by
  cases names with
  | nil =>
      apply String.toList_injective
      simp [text, join]
  | cons first names =>
      have hnotRoot : Path.text ⟨first :: names, hlegal⟩ ≠ "/" := by
        intro hroot
        have hparse := parse_text ⟨first :: names, hlegal⟩
        rw [hroot] at hparse
        have hnames := congrArg Path.names (Except.ok.inj hparse)
        simp [root] at hnames
      unfold join
      rw [if_neg hnotRoot]
      apply String.toList_injective
      simp [text]

/-! ## Places below a path -/

/-- The path of a place below another path. -/
def Path.below (p : Path) (place : Place) : Path :=
  ⟨p.names ++ place.names, by
    intro name hname
    rcases List.mem_append.mp hname with hpath | hplace
    · exact p.legal name hpath
    · exact Place.legalName_of_mem_names hplace⟩

theorem Path.below_injective {p : Path} {place place' : Place}
    (hsame : p.below place = p.below place') : place = place' :=
  Place.names_injective (List.append_cancel_left (congrArg Path.names hsame))

theorem Path.join_text_below
    (p : Path) {place place' : Place} {name : String}
    (hnames : place'.names = place.names ++ [name]) :
    join (p.below place).text name = (p.below place').text := by
  have hsame : (p.below place').names = (p.below place).names ++ [name] := by
    simp [below, hnames]
  rw [← text_append_name (p.below place).legal (hsame ▸ (p.below place').legal)]
  simp only [← hsame]

namespace Layout

/-- The text that the layout writes for the path of a place. -/
def pathOf (l : Layout) : Place → String
  | .counters => l.counters
  | .hot => l.hot
  | .okDeltas => l.okDeltas
  | .ok deltaNum => l.okDelta deltaNum
  | .writes => l.writes
  | .write sysCn => l.write sysCn

/-- The layout below a path writes the path of every place below it. -/
theorem pathOf_below (p : Path) (place : Place) :
    (below p.text).pathOf place = (p.below place).text := by
  have hcounters : (below p.text).counters = (p.below .counters).text :=
    (Path.text_append_name p.legal (p.below .counters).legal).symm
  have hokDeltas : (below p.text).okDeltas = (p.below .okDeltas).text := by
    rw [okDeltas, hcounters]
    exact p.join_text_below rfl
  have hwrites : (below p.text).writes = (p.below .writes).text := by
    rw [writes, hcounters]
    exact p.join_text_below rfl
  cases place with
  | counters => exact hcounters
  | hot =>
      rw [pathOf, hot, hcounters]
      exact p.join_text_below rfl
  | okDeltas => exact hokDeltas
  | ok n =>
      rw [pathOf, okDelta, hokDeltas]
      exact p.join_text_below rfl
  | writes => exact hwrites
  | write n =>
      rw [pathOf, write, hwrites]
      exact p.join_text_below rfl

end Layout

namespace Site

def root (s : Site) : Path :=
  ⟨[s.env.text, s.datamart.text], by
    intro name hname
    simp only [List.mem_cons, List.not_mem_nil, or_false] at hname
    rcases hname with rfl | rfl
    · exact s.env.legal
    · exact s.datamart.legal⟩

/-- The path of a place. -/
def path (s : Site) (place : Place) : Path :=
  ⟨s.root.names ++ place.names, by
    intro name hname
    rcases List.mem_append.mp hname with hroot | hplace
    · exact s.root.legal name hroot
    · exact Place.legalName_of_mem_names hplace⟩

def layout (s : Site) : Layout :=
  .below (Datamart.rootPath s.env s.datamart)

/-- A path leads through the root of a datamart and further. -/
def Owns (s : Site) (p : Path) : Prop :=
  ∃ rest, rest ≠ [] ∧ p.names = s.root.names ++ rest

theorem owns_path (s : Site) (place : Place) : s.Owns (s.path place) :=
  ⟨place.names, by cases place <;> simp [Place.names], rfl⟩

theorem Owns.unique {s s' : Site} {p : Path} (howns : s.Owns p) (howns' : s'.Owns p) : s = s' := by
  obtain ⟨rest, _, hnames⟩ := howns
  obtain ⟨rest', _, hnames'⟩ := howns'
  rw [hnames] at hnames'
  simp only [root, List.cons_append, List.nil_append, List.cons.injEq] at hnames'
  obtain ⟨henv, hdatamart, _⟩ := hnames'
  cases s
  cases s'
  cases Name.text_injective henv
  cases Name.text_injective hdatamart
  rfl

theorem path_injective {s : Site} {place place' : Place} (hsame : s.path place = s.path place') :
    place = place' := by
  have hnames := congrArg Path.names hsame
  exact Place.names_injective (List.append_cancel_left hnames)

@[simp] theorem path_inj {s : Site} {place place' : Place} :
    s.path place = s.path place' ↔ place = place' :=
  ⟨path_injective, fun hsame => hsame ▸ rfl⟩

theorem path_ne_root (s : Site) (place : Place) : s.path place ≠ Path.root := by
  intro hroot
  have hnames := congrArg Path.names hroot
  simp [path, root, Path.root] at hnames

/-! ## The layout writes the paths of the places -/

theorem legal_env (env : Name) : ∀ name ∈ [env.text], LegalName name := by
  intro name hname
  rw [List.mem_singleton.mp hname]
  exact env.legal

theorem envPath_eq (env : Name) :
    Datamart.envPath env = Path.text ⟨[env.text], legal_env env⟩ :=
  (Path.text_append_name Path.root.legal (legal_env env)).symm

theorem rootPath_eq (s : Site) : Datamart.rootPath s.env s.datamart = s.root.text := by
  unfold Datamart.rootPath
  rw [envPath_eq]
  exact (Path.text_append_name (legal_env s.env) s.root.legal).symm

theorem layout_eq_below (s : Site) : s.layout = .below s.root.text := by
  rw [layout, rootPath_eq]

@[simp] theorem layout_counters (s : Site) : s.layout.counters = (s.path .counters).text := by
  rw [layout_eq_below]
  exact Layout.pathOf_below s.root .counters

@[simp] theorem layout_hot (s : Site) : s.layout.hot = (s.path .hot).text := by
  rw [layout_eq_below]
  exact Layout.pathOf_below s.root .hot

@[simp] theorem layout_okDeltas (s : Site) : s.layout.okDeltas = (s.path .okDeltas).text := by
  rw [layout_eq_below]
  exact Layout.pathOf_below s.root .okDeltas

@[simp] theorem layout_okDelta (s : Site) (n : Int) :
    s.layout.okDelta n = (s.path (.ok n)).text := by
  rw [layout_eq_below]
  exact Layout.pathOf_below s.root (.ok n)

@[simp] theorem layout_writes (s : Site) : s.layout.writes = (s.path .writes).text := by
  rw [layout_eq_below]
  exact Layout.pathOf_below s.root .writes

@[simp] theorem layout_write (s : Site) (n : Int) :
    s.layout.write n = (s.path (.write n)).text := by
  rw [layout_eq_below]
  exact Layout.pathOf_below s.root (.write n)

end Site
end DeltaLedger
