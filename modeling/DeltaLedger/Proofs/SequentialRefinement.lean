import Mathlib.Data.List.TakeWhile
import DeltaLedger.Proofs.Cluster
import DeltaLedger.Proofs.MachineReads

/-!
# Sequential refinement

Requests that are served one after another do what the machines of their datamarts do.
Every request gives the response or the failure of the machine, and after it the tree
has for every datamart what its machine says.
-/

namespace DeltaLedger

open Program

/-- A tree has a root for every datamart with a machine and for no other, and below each
root what the machine says. -/
def Tree.Shows (t : Tree) (w : World) : Prop :=
  ∀ s, (w s = none → t.has s.root = false) ∧
    ∀ m, w s = some m → t.has s.root = true ∧ s.Represents t m

section Refusals

theorem Text.trim_eq_empty_iff {s : String} : trim s = "" ↔ s.toList.all isBlank = true := by
  have hempty : trim s = "" ↔ skipBlanks (skipBlanks s.toList).reverse = [] := by
    simp [trim]
  rw [hempty, skipBlanks, List.dropWhile_eq_nil_iff, List.all_eq_true]
  constructor
  · intro hrest c hc
    rw [← List.takeWhile_append_dropWhile (p := isBlank) (l := s.toList)] at hc
    rcases List.mem_append.mp hc with hfront | hback
    · exact List.mem_takeWhile_imp hfront
    · exact hrest c (List.mem_reverse.mpr hback)
  · intro hblank c hc
    exact hblank c ((List.dropWhile_sublist _).subset (List.mem_reverse.mp hc))

/-- A coordinator and a machine refuse the same commands for what they say. -/
theorem Machine.refusal?_eq_fault? (command : Command) :
    Machine.refusal? command = command.fault? := by
  cases command with
  | registerWrite r => simp only [refusal?, Command.fault?, Text.trim_eq_empty_iff]
  | _ => rfl

end Refusals

section Requests

variable {s : Site} {scope : Scope} {time : DateTime} {t : Tree} {m : Machine}

theorem follows_perform {command : Command} (hlayout : scope.layout = s.layout)
    (h : s.Represents t m) (hroot : t.has s.root = true) (hfits : m.Fits)
    (hcommand : command.Fits) :
    s.Follows t
      (m.perform scope.datamart (time.atOffset scope.coordinator.zone).wholeSecond command)
      ((scope.perform command).runAlone time t) := by
  cases command with
  | openDelta => exact follows_open hlayout h hroot hfits
  | commitDelta date =>
      cases date with
      | some date => exact follows_promote hlayout h hfits
      | none => exact follows_promote hlayout h hfits
  | failDelta n => exact follows_mark hlayout h hfits (hcommand n rfl)
  | discardDelta => exact follows_discard hlayout h
  | registerWrite r => exact follows_register hlayout h hfits
  | succeedWrite n => exact follows_finish hlayout h (by decide) (decides_succeed scope n)
  | failWrite n => exact follows_finish hlayout h (by decide) (decides_failWrite scope n)
  | withdrawWrite n => exact follows_withdraw hlayout h
  | readHot => exact follows_readHot hlayout h
  | readLatest => exact follows_readLatest hlayout h
  | readByNumber n => exact follows_readByNumber hlayout h n
  | readAsOf asOf => exact follows_readAsOf hlayout h asOf
  | readLedger => exact follows_readLedger hlayout h

end Requests

section Worlds

variable {s s' : Site} {t t' : Tree} {m : Machine} {w : World} {v : Errand}

theorem Site.Represents.congr (h : s.Represents t m)
    (hsame : ∀ p, s.Owns p → t.nodes[p]? = t'.nodes[p]?) : s.Represents t' m where
  kept := h.kept.congr hsame
  valid := by
    rw [← Site.book_congr hsame]
    exact h.valid
  reflects := by
    rw [← Site.book_congr hsame]
    exact h.reflects

/-- What follows the machine of one datamart leaves the others alone. -/
theorem Tree.Shows.update (hshows : t.Shows w) (hroot : t.has s.root = true)
    (h : s.Represents t' m) (hframe : ∀ p, ¬s.Owns p → t'.nodes[p]? = t.nodes[p]?) :
    t'.Shows (Function.update w s (some m)) := by
  have hroots : ∀ s' : Site, t'.has s'.root = t.has s'.root := by
    intro s'
    exact Tree.has_congr (hframe _ Site.not_owns_root)
  intro s'
  by_cases hs : s' = s
  · subst hs
    rw [Function.update_self, hroots]
    refine ⟨nofun, ?_⟩
    intro m' hm'
    cases hm'
    exact ⟨hroot, h⟩
  · rw [Function.update_of_ne hs, hroots]
    refine ⟨(hshows s').1, ?_⟩
    intro m' hm'
    obtain ⟨hroot', h'⟩ := (hshows s').2 m' hm'
    refine ⟨hroot', h'.congr ?_⟩
    intro p howns
    refine (hframe p ?_).symm
    exact fun howns' => hs (howns.unique howns')

theorem Tree.Shows.after {outcome : Machine.Outcome} {run : Except Failure Response × Tree}
    (hshows : t.Shows w) (hroot : t.has s.root = true) (hfollows : s.Follows t outcome run) :
    run.1 = (w.after s outcome).1 ∧ run.2.Shows (w.after s outcome).2 := by
  cases outcome with
  | error failure =>
      obtain rfl : run = (.error failure, t) := hfollows
      exact ⟨rfl, hshows⟩
  | ok outcome =>
      obtain ⟨hresponse, h, hframe⟩ := hfollows
      exact ⟨hresponse, hshows.update hroot h hframe⟩

theorem shows_serve (hshows : t.Shows w) (hcommand : v.request.command.Fits)
    (hfits : ∀ m ∈ w.machine? v, m.Fits) :
    ((v.coordinator.serve v.request).runAlone v.time t).1 = (w.serve v).1 ∧
      ((v.coordinator.serve v.request).runAlone v.time t).2.Shows (w.serve v).2 := by
  rw [runAlone_serve]
  unfold Coordinator.execute World.serve
  rw [Machine.refusal?_eq_fault?]
  unfold World.machine? at hfits
  cases hfault : v.request.command.fault? with
  | some failure => exact ⟨rfl, hshows⟩
  | none =>
      cases hname : Datamart.parseName v.request.datamart with
      | error e =>
          rw [runAlone_enter_of_bad (parseRoot_of_error _ hname)]
          exact ⟨rfl, hshows⟩
      | ok name =>
          have hserves := serves_of_parseName v.coordinator hname
          rw [hname] at hfits
          dsimp only at hfits ⊢
          cases hmachine : w ⟨v.coordinator.env, name⟩ with
          | none =>
              rw [runAlone_enter_of_missing hserves ((hshows _).1 hmachine)]
              exact ⟨rfl, hshows⟩
          | some m =>
              obtain ⟨hroot, h⟩ := (hshows _).2 m hmachine
              have hlayout : (scopeAt v.coordinator v.request ⟨v.coordinator.env, name⟩).layout =
                  Site.layout ⟨v.coordinator.env, name⟩ := rfl
              rw [runAlone_enter hserves hroot]
              exact hshows.after hroot
                (follows_perform hlayout h hroot (hfits m hmachine) hcommand)

/-- As long as the counters stay below their limits, requests that are served one after
another do what the machines do. -/
theorem shows_serveAll {vs : List Errand} (hshows : t.Shows w) (hwithin : w.Within vs) :
    (t.serveAll vs).1 = (w.serveAll vs).1 ∧ (t.serveAll vs).2.Shows (w.serveAll vs).2 := by
  induction vs generalizing t w with
  | nil => exact ⟨rfl, hshows⟩
  | cons v vs ih =>
      obtain ⟨hcommand, hfits, hrest⟩ := hwithin
      obtain ⟨hresult, hnext⟩ := shows_serve hshows hcommand hfits
      obtain ⟨hresults, hlast⟩ := ih hnext hrest
      exact ⟨congrArg₂ List.cons hresult hresults, hlast⟩

end Worlds

/-! ## From the roots -/

theorem Tree.Founded.shows {t : Tree} (hfounded : t.Founded) : t.Shows (.start t) := by
  intro s
  unfold World.start
  cases hroot : t.has s.root with
  | false => exact ⟨fun _ => rfl, fun m hm => absurd hm (by simp)⟩
  | true =>
      refine ⟨fun hnone => absurd hnone (by simp), ?_⟩
      intro m hm
      cases hm
      refine ⟨rfl, Site.kept_of_founded hfounded, ?_, ?_⟩
      · rw [Site.book_of_founded hfounded]
        exact Book.valid_blank
      · rw [Site.book_of_founded hfounded]
        exact Book.reflects_blank

/-- Requests of all kinds, served one after another on a store that has nothing but roots
of datamarts, give what the machines give and leave what the machines say. -/
theorem serveAll_refines {time : DateTime} {roots : List (Name × String)} {errands : List Errand}
    (hwithin : (World.start (Tree.rooted time roots)).Within errands) :
    ((Tree.rooted time roots).serveAll errands).1 =
        ((World.start (Tree.rooted time roots)).serveAll errands).1 ∧
      ((Tree.rooted time roots).serveAll errands).2.Shows
        ((World.start (Tree.rooted time roots)).serveAll errands).2 :=
  shows_serveAll (founded_rooted time roots).shows hwithin

/-- An epoch with a table that is asked for twice, by two coordinators in turn. -/
def sharedEpoch : List Errand :=
  [⟨Sample.coordinator, ⟨"dtm", .openDelta⟩, Sample.time⟩,
    ⟨Sample.coordinator, ⟨"dtm", .registerWrite ⟨"a", "a_ext", "q"⟩⟩, Sample.time⟩,
    ⟨{ Sample.coordinator with attempts := 1, attempts_pos := Nat.one_pos },
      ⟨"dtm", .registerWrite ⟨"a", "a_ext", "q"⟩⟩, Sample.time⟩,
    ⟨Sample.coordinator, ⟨"dtm", .succeedWrite 0⟩, Sample.time⟩,
    ⟨Sample.coordinator, ⟨"dtm", .commitDelta none⟩, Sample.time⟩,
    ⟨Sample.coordinator, ⟨"dtm", .readByNumber 0⟩, Sample.time⟩]

theorem serveAll_refines_sharedEpoch :
    (World.start (Tree.rooted Sample.time Sample.roots)).Within sharedEpoch ∧
      ((Tree.rooted Sample.time Sample.roots).serveAll sharedEpoch).1 =
          [.ok (.hotDelta ⟨0, Sample.time, 0, false, none⟩), .ok (.sysCn 0),
            .error (.tableBlocked "dtm" "a" 0), .ok .done, .ok .done,
            .ok (.okDelta ⟨0, Sample.time, 0, 0⟩)] ∧
        ((Tree.rooted Sample.time Sample.roots).serveAll sharedEpoch).2.Shows
          ((World.start (Tree.rooted Sample.time Sample.roots)).serveAll sharedEpoch).2 := by
  have hwithin : (World.start (Tree.rooted Sample.time Sample.roots)).Within sharedEpoch := by
    decide +kernel
  obtain ⟨hresults, hshows⟩ := serveAll_refines hwithin
  refine ⟨hwithin, ?_, hshows⟩
  rw [hresults]
  decide +kernel

end DeltaLedger
