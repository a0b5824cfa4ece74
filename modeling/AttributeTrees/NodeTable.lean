/-!
# Node tables

A table of the nodes that are in use. Equal nodes share one entry; an entry has an id, which is
never given out twice, and counts its uses. An entry goes when its last use ends.
-/
namespace AttributeTrees

abbrev NodeId := Nat

structure NodeTable.Entry (ν : Type) where
  id : NodeId
  uses : Nat
  node : ν

structure NodeTable (ν : Type) where
  entries : List (NodeTable.Entry ν)
  next : NodeId

namespace NodeTable

variable {ν : Type}

def empty : NodeTable ν := ⟨[], 0⟩

def size (t : NodeTable ν) : Nat := t.entries.length

def isEmpty (t : NodeTable ν) : Bool := t.entries.isEmpty

def find? (t : NodeTable ν) (id : NodeId) : Option (Entry ν) := t.entries.find? (·.id == id)

def get? (t : NodeTable ν) (id : NodeId) : Option ν := (t.find? id).map (·.node)

def uses (t : NodeTable ν) (id : NodeId) : Nat := ((t.find? id).map (·.uses)).getD 0

def bump (id : NodeId) : List (Entry ν) → List (Entry ν)
  | [] => []
  | e :: rest => if e.id == id then { e with uses := e.uses + 1 } :: rest else e :: bump id rest

def drop (id : NodeId) : List (Entry ν) → List (Entry ν)
  | [] => []
  | e :: rest =>
    if e.id == id then
      if e.uses ≤ 1 then rest else { e with uses := e.uses - 1 } :: rest
    else e :: drop id rest

/-- Takes a use of a node: of the entry of an equal node, or of a new one. -/
def make [BEq ν] (t : NodeTable ν) (node : ν) : NodeId × NodeTable ν :=
  match t.entries.find? (·.node == node) with
  | some e => (e.id, { t with entries := bump e.id t.entries })
  | none => (t.next, ⟨t.entries ++ [⟨t.next, 1, node⟩], t.next + 1⟩)

def addUse (t : NodeTable ν) (id : NodeId) : Bool × NodeTable ν :=
  if (t.find? id).isSome then (true, { t with entries := bump id t.entries }) else (false, t)

def release (t : NodeTable ν) (id : NodeId) : Bool × NodeTable ν :=
  if (t.find? id).isSome then (true, { t with entries := drop id t.entries }) else (false, t)

@[simp] theorem get?_empty (id : NodeId) : (empty : NodeTable ν).get? id = none := rfl

@[simp] theorem uses_empty (id : NodeId) : (empty : NodeTable ν).uses id = 0 := rfl

@[simp] theorem map_id_bump (id : NodeId) (entries : List (Entry ν)) :
    (bump id entries).map (·.id) = entries.map (·.id) := by
  induction entries with
  | nil => rfl
  | cons e rest ih => by_cases h : e.id = id <;> simp [bump, h, ih]

theorem map_id_drop_sublist (id : NodeId) (entries : List (Entry ν)) :
    ((drop id entries).map (·.id)).Sublist (entries.map (·.id)) := by
  induction entries with
  | nil => exact .slnil
  | cons e rest ih =>
    unfold drop
    split
    · split
      · exact List.sublist_cons_self ..
      · exact .refl _
    · exact ih.cons_cons _

end NodeTable

end AttributeTrees
