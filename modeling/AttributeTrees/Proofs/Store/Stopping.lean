import AttributeTrees.Proofs.Json.Depiction
import AttributeTrees.Proofs.Store.Session
import AttributeTrees.Proofs.Store.Visit
import AttributeTrees.Proofs.Yaml.Depiction
/-!
# Visits that are stopped

Whatever a visitor of a JSON or YAML document answers and whenever, it receives a start, a whole
tree and a finish. If it stays with its answer, it receives what the document shows up to the first
child that it does not want, and then what closes what is open. Main statement: what a visitor is
handed, and where that stops.
-/
namespace AttributeTrees.Store

open Document (Form)
open Visit (ChildBegins Event Visitor closers)

variable {δ σ : Type} {s : Store} {held : List Handle} {tree : Nat}

def received (s : Store) (tree : Nat) (v : Visitor σ) (st : σ) : List Event :=
  ((Live.atRoot tree fun h => Live.access.visit (v.history st) h []).run s).1.2

def IsDocument (s : Store) (tree : Nat) : Prop :=
  (∃ doc, s.body? tree = some (.own (.json doc))) ∨ ∃ doc, s.body? tree = some (.own (.yaml doc))

theorem IsDocument.depicted (h : IsDocument s tree) : ∃ (δ : Type) (f : Form δ) (doc : δ)
    (_ : Document.Depiction f), Holds s tree f doc := by
  rcases h with ⟨doc, h⟩ | ⟨doc, h⟩
  · exact ⟨_, _, doc, Json.Value.depiction, .json doc, h, rfl, rfl, rfl⟩
  · exact ⟨_, _, doc, Yaml.Node.depiction, .yaml doc, h, rfl, rfl, rfl⟩

section
variable {f : Form δ} {doc : δ}

theorem Holds.received_eq (d : Document.Depiction f) (v : Visitor σ) (st : σ)
    (hh : Holds s tree f doc) (hs : s.Balanced held)
    (ha : s.Anchored held tree) :
    received s tree v st = (d.shown doc).hand (v.history st) [.start] ++ [.finish] := by
  rw [received, hh.visit d (v.history st) [] hs ha]
  rfl

theorem Holds.visit_eq (d : Document.Depiction f) (v : Visitor σ) (st : σ)
    (hh : Holds s tree f doc) (hs : s.Balanced held) (ha : s.Anchored held tree) :
    let q := v.receiveAll st (received s tree v st)
    ((Live.atRoot tree fun h => Live.access.visit v h st).run s).1 = (v.verdict q, q) := by
  have hq : v.receiveAll st (received s tree v st) =
      v.receive ((d.shown doc).hand v (v.receive st .start)) .finish := by
    rw [hh.received_eq d v st hs ha, v.receiveAll_snoc, ← Visit.Tree.hand_history]
    rfl
  rw [hh.visit d v st hs ha, ← hq]

end

/-- At whatever child a visitor of a document stops, what it receives ends well. -/
theorem visit_stops {d : Disk} {σ : Session} (hσ : Session.Reachable d σ)
    (ht : tree ∈ σ.compounds) (hdoc : IsDocument σ.store tree) :
    ∃ t : Visit.Tree, ∀ {τ : Type} (v : Visitor τ) (st : τ),
      let log := received σ.store tree v st
      let q := v.receiveAll st log
      ((Live.atRoot tree fun h => Live.access.visit v h st).run σ.store).1 = (v.verdict q, q) ∧
      (∃ u : Visit.Tree, log = .start :: (u.events ++ [.finish])) ∧
      (v.NeverStops st → log = .start :: (t.events ++ [.finish])) ∧
      (v.Settled st → ∃ before rest, t.events = before ++ rest ∧
        log = .start :: (before ++ closers before ++ [.finish]) ∧
        (∀ p q, before = p ++ q → ChildBegins (closers p) q →
          v.wantsMore (v.receiveAll st (.start :: p)) = true) ∧
        (rest = [] ∨ ChildBegins (closers before) rest ∧
          v.wantsMore (v.receiveAll st (.start :: before)) = false)) := by
  obtain ⟨δ, f, doc, D, hh⟩ := hdoc.depicted
  have hs := hσ.sound.balanced
  have ha := hσ.anchored ht
  refine ⟨D.shown doc, fun v st => ⟨hh.visit_eq D v st hs ha, ?_, fun hv => ?_, fun hv => ?_⟩⟩
  all_goals rw [hh.received_eq D v st hs ha]
  · obtain ⟨u, hu⟩ := (D.shown doc).hand_whole v st [.start]
    exact ⟨u, by rw [hu]; rfl⟩
  · rw [Visit.hand_of_neverStops hv]
    rfl
  · have hroot : ¬ ChildBegins [] (D.shown doc).events := Visit.not_childBegins_events _ nofun
    have hhanded := Visit.hands hv (D.shown doc) [] [.start] fun h => (hroot h).elim
    obtain ⟨before, rest, he, hr, hwanted, hstop⟩ :=
      hhanded.exists_before (Visit.closersFrom_events _ [])
    refine ⟨before, rest, he, by rw [hr]; rfl, fun p q hpq hc => hwanted p q hpq hc, hstop⟩

theorem visit_stops_second_item :
    let σ := (Session.start .empty).openTree (.own (.json (.array [.null, .bool true])))
    let v : Visitor Nat := ⟨fun n => n < 3, fun n _ => n + 1, fun _ => true⟩
    Session.Reachable .empty σ ∧ 0 ∈ σ.compounds ∧ IsDocument σ.store 0 ∧ v.Settled 0 ∧
      received σ.store 0 v 0 =
        [.start, .enterList, .values (.nil 1), .leaveList, .finish] ∧
      ∃ t : Visit.Tree, ∃ before rest, t.events = before ++ rest ∧
        received σ.store 0 v 0 = .start :: (before ++ closers before ++ [.finish]) := by
  intro σ v
  have hσ : Session.Reachable .empty σ := .step .start (.openContent _)
  have hdoc : IsDocument σ.store 0 := .inl ⟨.array [.null, .bool true], rfl⟩
  have hcount (n : Nat) (log : List Event) : v.receiveAll n log = n + log.length := by
    induction log generalizing n with
    | nil => rfl
    | cons e log ih =>
      rw [Visitor.receiveAll_cons, ih]
      exact Nat.succ_add_eq_add_succ n log.length
  have hv : v.Settled 0 := by
    intro log more h
    rw [hcount] at h ⊢
    simp only [v, List.length_append, decide_eq_false_iff_not] at h ⊢
    omega
  obtain ⟨t, ht⟩ := visit_stops hσ (.head _) hdoc
  obtain ⟨before, rest, he, hr, -⟩ := (ht v 0).2.2.2 hv
  exact ⟨hσ, .head _, hdoc, hv, rfl, t, before, rest, he, hr⟩

end AttributeTrees.Store
