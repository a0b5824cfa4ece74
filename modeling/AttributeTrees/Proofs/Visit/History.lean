import AttributeTrees.Proofs.Visit.Tree
import AttributeTrees.Visit.Recorder
/-!
# What a visitor received

A visitor is determined by its answers after every sequence of events. Its history is the visitor
that keeps that sequence as its state and answers alike, so a run over the history is the run over
the visitor with everything that was told in view.
-/
namespace AttributeTrees.Visit

namespace Event

def isAside : Event → Bool
  | flush | unparsed _ => true
  | _ => false

def isContent : Event → Bool
  | values _ | enterStruct | enterAttribute _ | leaveAttribute _ | leaveStruct | enterList
  | leaveList => true
  | _ => false

end Event

/-- What is told of the document. -/
def essential (log : List Event) : List Event := log.filter (!·.isAside)

@[simp] theorem essential_append (es fs : List Event) :
    essential (es ++ fs) = essential es ++ essential fs := by
  simp [essential]

theorem essential_cons {e : Event} (he : e.isAside = false) (es : List Event) :
    essential (e :: es) = e :: essential es := by
  simp [essential, he]

@[simp] theorem essential_events (t : Tree) : essential t.events = t.events := by
  induction t with
  | leaf run => rfl
  | struct members ih =>
    have h : essential (Tree.memberEvents members) = Tree.memberEvents members := by
      induction members with
      | nil => rfl
      | cons m members ihm =>
        have ht := ih m List.mem_cons_self
        have hr := ihm fun n hn => ih n (List.mem_cons_of_mem m hn)
        rw [Tree.memberEvents, essential_cons rfl, essential_append, essential_cons rfl, ht, hr]
    rw [Tree.events, essential_cons rfl, essential_append, h]
    rfl
  | list items ih =>
    have h : essential (Tree.itemEvents items) = Tree.itemEvents items := by
      induction items with
      | nil => rfl
      | cons t items ihi =>
        have ht := ih t List.mem_cons_self
        have hr := ihi fun u hu => ih u (List.mem_cons_of_mem t hu)
        rw [Tree.itemEvents, essential_append, ht, hr]
    rw [Tree.events, essential_cons rfl, essential_append, h]
    rfl

namespace Visitor

variable {σ : Type}

/-- The visitor that remembers what it received and answers as `v` does from `s` on. -/
def history (v : Visitor σ) (s : σ) : Visitor (List Event) where
  wantsMore log := v.wantsMore (v.receiveAll s log)
  receive log e := log ++ [e]
  verdict log := v.verdict (v.receiveAll s log)

@[simp] theorem wantsMore_history (v : Visitor σ) (s : σ) (log : List Event) :
    (v.history s).wantsMore log = v.wantsMore (v.receiveAll s log) := rfl

@[simp] theorem receive_history (v : Visitor σ) (s : σ) (log : List Event) (e : Event) :
    (v.history s).receive log e = log ++ [e] := rfl

def NeverStops (v : Visitor σ) (s : σ) : Prop := ∀ log, v.wantsMore (v.receiveAll s log) = true

theorem NeverStops.receive {v : Visitor σ} {s : σ} (h : v.NeverStops s) (e : Event) :
    v.NeverStops (v.receive s e) := fun log => h (e :: log)

theorem NeverStops.receiveAll {v : Visitor σ} {s : σ} (h : v.NeverStops s) (told : List Event) :
    v.NeverStops (v.receiveAll s told) := fun log => by
  rw [← Visitor.receiveAll_append]
  exact h (told ++ log)

def essentials : Visitor (List Event) where
  wantsMore _ := true
  receive log e := log ++ essential [e]
  verdict _ := true

@[simp] theorem receiveAll_essentials (log es : List Event) :
    essentials.receiveAll log es = log ++ essential es := by
  induction es generalizing log with
  | nil => exact (List.append_nil log).symm
  | cons e es ih =>
    rw [receiveAll_cons, ih]
    change log ++ essential [e] ++ essential es = log ++ essential ([e] ++ es)
    rw [essential_append, List.append_assoc]

theorem receiveAll_snoc (v : Visitor σ) (s : σ) (log : List Event) (e : Event) :
    v.receiveAll s (log ++ [e]) = v.receive (v.receiveAll s log) e := by
  simp [receiveAll_append]

end Visitor

theorem Recorder.neverStops (satisfied : Bool) :
    Visitor.NeverStops visitor (fresh none satisfied) := by
  have enough (r : Recorder Event) (log : List Event) :
      (visitor.receiveAll r log).enough = r.enough := by
    induction log generalizing r with
    | nil => rfl
    | cons e log ih => exact ih _
  intro log
  have h := enough (fresh none satisfied) log
  simp only [visitor, wantsMore] at h ⊢
  rw [h]
  rfl

end AttributeTrees.Visit
