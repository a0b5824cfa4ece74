import AttributeTrees.Build.Placing
import AttributeTrees.Proofs.Visit.Tree
/-!
# Places that events leave as they were

Whatever the builder does, the events of a tree end at the path at which they began and close what
they opened. In an open list they count as one item. Main statement: the path and the frames behind
a tree's events.
-/
namespace AttributeTrees.Build.Placing

open Visit (Event Tree)
open Visit.Tree (memberEvents itemEvents)

variable {β : Type} {b : Builder β}

theorem enterItem_spec (p : Placing β) :
    p.enterItem.2.frames = countItems 1 p.frames ∧ p.enterItem.2.builder = p.builder ∧
      (leaveItem p.enterItem.2 p.enterItem.1).path = p.path := by
  obtain ⟨builder, path, frames⟩ := p
  rcases frames with _ | ⟨indexed | ⟨indexed, next⟩, rest⟩
  · exact ⟨rfl, rfl, rfl⟩
  · exact ⟨rfl, rfl, rfl⟩
  · exact ⟨rfl, rfl, Path.pop_push path _⟩

theorem leaveStruct_spec {p q : Placing β} {indexed : Bool} {fs : List Frame}
    (hf : q.frames = .struct indexed :: fs) (hp : q.path = p.path) :
    (leaveStruct b q).path = (leaveItem p indexed).path ∧ (leaveStruct b q).frames = fs := by
  obtain ⟨builder, path, frames⟩ := q
  cases hf
  cases indexed with
  | false => exact ⟨hp, rfl⟩
  | true => exact ⟨congrArg Path.pop hp, rfl⟩

theorem leaveList_spec {p q : Placing β} {indexed : Bool} {next : Nat} {fs : List Frame}
    (hf : q.frames = .list indexed next :: fs) (hp : q.path = p.path) :
    (leaveList b q).path = (leaveItem p indexed).path ∧ (leaveList b q).frames = fs := by
  obtain ⟨builder, path, frames⟩ := q
  cases hf
  cases indexed with
  | false => exact ⟨hp, rfl⟩
  | true => exact ⟨congrArg Path.pop hp, rfl⟩

/-- The events keep the path and count as so many items. -/
def Keeps (b : Builder β) (es : List Event) (count : Nat) : Prop :=
  ∀ p : Placing β, ((visitor b).receiveAll p es).path = p.path ∧
    ((visitor b).receiveAll p es).frames = countItems count p.frames

theorem countItems_countItems (m n : Nat) (fs : List Frame) :
    countItems n (countItems m fs) = countItems (m + n) fs := by
  rcases fs with _ | ⟨indexed | ⟨indexed, next⟩, fs⟩
  · rfl
  · rfl
  · simp [countItems, Nat.add_assoc]

theorem countItems_zero (fs : List Frame) : countItems 0 fs = fs := by
  rcases fs with _ | ⟨indexed | ⟨indexed, next⟩, fs⟩ <;> rfl

theorem keeps_items {items : List Tree} (h : ∀ t ∈ items, Keeps b t.events 1) :
    Keeps b (itemEvents items) items.length := by
  intro p
  induction items generalizing p with
  | nil => exact ⟨rfl, (countItems_zero p.frames).symm⟩
  | cons t items ih =>
    obtain ⟨ht, his⟩ := List.forall_mem_cons.1 h
    obtain ⟨hp, hf⟩ := ih his ((visitor b).receiveAll p t.events)
    rw [Visit.Tree.itemEvents, Visit.Visitor.receiveAll_append, hp, hf, (ht p).1, (ht p).2,
      countItems_countItems, Nat.add_comm 1]
    exact ⟨rfl, rfl⟩

theorem keeps_members {members : List (String × Tree)} (h : ∀ m ∈ members, Keeps b m.2.events 1)
    {p : Placing β} {indexed : Bool} {fs : List Frame} (hf : p.frames = .struct indexed :: fs) :
    ((visitor b).receiveAll p (memberEvents members)).path = p.path ∧
      ((visitor b).receiveAll p (memberEvents members)).frames = .struct indexed :: fs := by
  induction members generalizing p with
  | nil => exact ⟨rfl, hf⟩
  | cons m members ih =>
    obtain ⟨name, t⟩ := m
    obtain ⟨ht, hms⟩ := List.forall_mem_cons.1 h
    obtain ⟨hp, hfs⟩ := ht ((visitor b).receive p (.enterAttribute name))
    rw [memberEvents, Visit.Visitor.receiveAll_cons, Visit.Visitor.receiveAll_append,
      Visit.Visitor.receiveAll_cons]
    generalize (visitor b).receiveAll ((visitor b).receive p (.enterAttribute name)) t.events = q
      at hp hfs
    have hq : ((visitor b).receive q (.leaveAttribute name)).frames = .struct indexed :: fs := by
      change p.frames = _ at hf
      change q.frames = _
      rw [hfs]
      change countItems 1 p.frames = _
      rw [hf]
      rfl
    obtain ⟨hpath, hframes⟩ := ih hms hq
    refine ⟨hpath.trans ?_, hframes⟩
    change q.path.pop = p.path
    rw [hp]
    exact Path.pop_push p.path name

/-- Behind a tree's events the path is the same, and one item more is counted. -/
theorem keeps_tree {t : Tree} (ht : t.Single) : Keeps b t.events 1 := by
  induction t with
  | leaf run =>
    cases ht with
    | leaf hl =>
      intro p
      exact ⟨rfl, by rw [← hl]; rfl⟩
  | struct members ih =>
    cases ht with
    | struct hms =>
      intro p
      obtain ⟨hf, -, hp⟩ := p.enterItem_spec
      obtain ⟨hpath, hframes⟩ := keeps_members (b := b) (fun m hm => ih m hm (hms m hm))
        (p := enterStruct b p) rfl
      obtain ⟨hq, hfs⟩ := leaveStruct_spec (b := b) (p := p.enterItem.2) hframes hpath
      rw [Visit.Tree.events, Visit.Visitor.receiveAll_cons, Visit.Visitor.receiveAll_append]
      exact ⟨hq.trans hp, hfs.trans hf⟩
  | list items ih =>
    cases ht with
    | list his =>
      intro p
      obtain ⟨hf, -, hp⟩ := p.enterItem_spec
      obtain ⟨hpath, hframes⟩ := keeps_items (b := b) (fun t ht => ih t ht (his t ht))
        (enterList b p)
      obtain ⟨hq, hfs⟩ := leaveList_spec (b := b) (p := p.enterItem.2) hframes hpath
      rw [Visit.Tree.events, Visit.Visitor.receiveAll_cons, Visit.Visitor.receiveAll_append]
      exact ⟨hq.trans hp, hfs.trans hf⟩

end AttributeTrees.Build.Placing
