import AttributeTrees.Proofs.Json.Names
import AttributeTrees.Proofs.Store.Stopping
/-!
# Visits that rebuild a document

A builder that never has enough receives all that a document shows. Main statement: from a visit of
a JSON document whose numbers are whole the document is assembled again, if and only if it has no
members of the empty name.
-/
namespace AttributeTrees.Store

open Build (Placing)
open Document (Form)
open Json (Assembly Value)
open Visit (Visitor)

variable {δ σ : Type} {s : Store} {held : List Handle} {tree : Nat} {f : Form δ} {doc : δ}

theorem Holds.received_of_neverStops (d : Document.Depiction f) {v : Visitor σ} {st : σ}
    (hv : v.NeverStops st) (hh : Holds s tree f doc) (hs : s.Balanced held)
    (ha : s.Anchored held tree) :
    received s tree v st = .start :: ((d.shown doc).events ++ [.finish]) := by
  rw [hh.received_eq d v st hs ha, Visit.hand_of_neverStops hv]
  rfl

def rebuilt (s : Store) (tree : Nat) (p : Placing (Assembly Value)) :
    Bool × Placing (Assembly Value) :=
  ((Live.atRoot tree fun h =>
    Live.access.visit (Placing.visitor (Assembly.builder some)) h p).run s).1

/-- A visit assembles the document that it visits unless a member's name is empty. -/
theorem visit_rebuilds_iff {d : Disk} {σ : Session} (hσ : Session.Reachable d σ)
    (ht : tree ∈ σ.compounds) {doc : Value}
    (hdoc : σ.store.body? tree = some (.own (.json doc))) (hv : doc.Proper) (hi : doc.Integral)
    (p : Placing (Assembly Value)) :
    let r := rebuilt σ.store tree p
    r.1 = true ∧ r.2.builder.result = some r.2.builder.document ∧
      (r.2.builder.document = doc ↔ doc.Named) := by
  intro r
  have hh : Holds σ.store tree Value.form doc := ⟨.json doc, hdoc, rfl, rfl, rfl⟩
  have hs := hσ.sound.balanced
  have ha := hσ.anchored ht
  have hr : r = _ := hh.visit_eq Value.depiction (Placing.visitor (Assembly.builder some)) p hs ha
  rw [hh.received_of_neverStops Value.depiction (fun _ => rfl) hs ha] at hr
  rw [hr]
  exact Assembly.shown_assembled_iff hv hi p

theorem visit_rebuilds_iff_named :
    let build := fun (doc : Value) =>
      (rebuilt ((Session.start .empty).openTree (.own (.json doc))).store 0
        (Placing.onto .empty)).2.builder.document
    let named : Value := .object [("a", .array [.null, .whole ⟨18446744073709551615, by decide⟩])]
    let unnamed : Value := .object [("", .null)]
    named.Proper ∧ named.Integral ∧ build named = named ∧
      unnamed.Proper ∧ unnamed.Integral ∧ build unnamed ≠ unnamed := by
  intro build named unnamed
  have hbuild {doc : Value} (hv : doc.Proper) (hi : doc.Integral) :
      build doc = doc ↔ doc.Named := by
    have hσ : Session.Reachable .empty ((Session.start .empty).openTree (.own (.json doc))) :=
      .step .start (.openContent _)
    exact (visit_rebuilds_iff hσ (.head _) rfl hv hi (Placing.onto .empty)).2.2
  have hp : named.Proper := by
    refine .object (by decide) (List.forall_mem_singleton.2 (.array (by decide) ?_))
    simp only [List.forall_mem_cons]
    exact ⟨.null, .whole _, nofun⟩
  have hi : named.Integral := by
    refine .object (List.forall_mem_singleton.2 (.array ?_))
    simp only [List.forall_mem_cons]
    exact ⟨.null, .whole _, nofun⟩
  have hn : named.Named := by
    refine .object (by decide) (List.forall_mem_singleton.2 (.array ?_))
    simp only [List.forall_mem_cons]
    exact ⟨.null, .whole _, nofun⟩
  have hp' : unnamed.Proper := .object (by decide) (List.forall_mem_singleton.2 .null)
  have hi' : unnamed.Integral := .object (List.forall_mem_singleton.2 .null)
  have hn' : ¬ unnamed.Named := by
    intro h
    change (Value.object [("", .null)]).Named at h
    cases h with
    | object hne => exact hne _ List.mem_cons_self rfl
  exact ⟨hp, hi, (hbuild hp hi).2 hn, hp', hi', mt (hbuild hp' hi').1 hn'⟩

end AttributeTrees.Store
