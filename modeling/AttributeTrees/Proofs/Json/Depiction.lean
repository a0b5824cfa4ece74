import AttributeTrees.Json.Tree
import AttributeTrees.Proofs.Document.Depiction
/-!
# What JSON documents show

Arrays show their items, objects their members, each under its key or under its index if the key is
empty, and any other value its run.
-/
namespace AttributeTrees.Json.Value

open Document (label labelled)
open Visit (Tree)

def children : Value → List (Option String × Value)
  | array items => items.map fun v => (none, v)
  | object members => members.map fun m => (some m.1, m.2)
  | _ => []

mutual

def shown : Value → Tree
  | array items => .list (shownItems items)
  | object members => .struct (shownMembers 0 members)
  | v => .leaf ((Document.access form v).run [])

def shownItems : List Value → List Tree
  | [] => []
  | v :: rest => shown v :: shownItems rest

def shownMembers : Nat → List (String × Value) → List (String × Tree)
  | _, [] => []
  | i, (key, v) :: rest => (label (some key) i, shown v) :: shownMembers (i + 1) rest

end

theorem shownItems_eq (items : List Value) :
    shownItems items = (children (array items)).map fun c => shown c.2 := by
  induction items with
  | nil => rfl
  | cons v items ih =>
    rw [shownItems, ih]
    rfl

theorem shownMembers_eq (i : Nat) (members : List (String × Value)) :
    shownMembers i members = labelled shown i (children (object members)) := by
  induction members generalizing i with
  | nil => rfl
  | cons m members ih =>
    rw [shownMembers, ih]
    rfl

theorem size_child_lt {v : Value} {c : Option String × Value} (h : c ∈ v.children) :
    c.2.size < v.size := by
  cases v with
  | array items =>
    obtain ⟨w, hw, rfl⟩ := List.mem_map.1 h
    exact Nat.lt_succ_of_le (Document.le_total size sizeItems (fun _ _ => rfl) hw)
  | object members =>
    obtain ⟨m, hm, rfl⟩ := List.mem_map.1 h
    exact Nat.lt_succ_of_le (Document.le_total (·.2.size) sizeMembers (fun _ _ => rfl) hm)
  | _ => cases h

def depiction : Document.Depiction form where
  children := children
  shown := shown
  isLink _ := rfl
  childCount v := by
    cases v with
    | array items => exact (List.length_map _).symm
    | object members => exact (List.length_map _).symm
    | _ => rfl
  child? v i := by
    cases v with
    | array items => exact (List.getElem?_map ..).symm
    | object members => exact (List.getElem?_map ..).symm
    | _ => rfl
  smaller _ _ h := size_child_lt h
  list v h := by
    cases v with
    | array items => exact congrArg Tree.list (shownItems_eq items)
    | _ => cases h
  struct v h hs := by
    cases v with
    | object members => exact congrArg Tree.struct (shownMembers_eq 0 members)
    | array items => cases h
    | whole n =>
      simp only [form, childCount, kind, scalarKind, Whole.kind] at hs
      split at hs <;> simp at hs
    | _ => simp [form, childCount, kind, scalarKind] at hs
  leaf v h hc hk := by
    cases v with
    | array items => cases h
    | object members => exact absurd rfl hk
    | _ => rfl

end AttributeTrees.Json.Value
