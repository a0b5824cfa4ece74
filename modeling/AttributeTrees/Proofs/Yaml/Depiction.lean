import AttributeTrees.Proofs.Document.Depiction
import AttributeTrees.Yaml.Tree
/-!
# What YAML documents show

Sequences show their items, mappings their entries, each under the text of its key or under its
index if the key has none or an empty one, and any other node its run.
-/
namespace AttributeTrees.Yaml.Node

open Document (label labelled)
open Visit (Tree)

def children : Node → List (Option String × Node)
  | sequence items => items.map fun n => (none, n)
  | mapping entries => entries.map fun e => (e.1.text?, e.2)
  | _ => []

mutual

def shown : Node → Tree
  | sequence items => .list (shownItems items)
  | mapping entries => .struct (shownEntries 0 entries)
  | n => .leaf ((Document.access form n).run [])

def shownItems : List Node → List Tree
  | [] => []
  | n :: rest => shown n :: shownItems rest

def shownEntries : Nat → List (Node × Node) → List (String × Tree)
  | _, [] => []
  | i, (key, n) :: rest => (label key.text? i, shown n) :: shownEntries (i + 1) rest

end

theorem shownItems_eq (items : List Node) :
    shownItems items = (children (sequence items)).map fun c => shown c.2 := by
  induction items with
  | nil => rfl
  | cons n items ih =>
    rw [shownItems, ih]
    rfl

theorem shownEntries_eq (i : Nat) (entries : List (Node × Node)) :
    shownEntries i entries = labelled shown i (children (mapping entries)) := by
  induction entries generalizing i with
  | nil => rfl
  | cons e entries ih =>
    rw [shownEntries, ih]
    rfl

theorem size_child_lt {n : Node} {c : Option String × Node} (h : c ∈ n.children) :
    c.2.size < n.size := by
  cases n with
  | sequence items =>
    obtain ⟨m, hm, rfl⟩ := List.mem_map.1 h
    exact Nat.lt_succ_of_le (Document.le_total size sizeItems (fun _ _ => rfl) hm)
  | mapping entries =>
    obtain ⟨e, he, rfl⟩ := List.mem_map.1 h
    exact Nat.lt_succ_of_le (Document.le_total (·.2.size) sizeEntries (fun _ _ => rfl) he)
  | _ => cases h

def depiction : Document.Depiction form where
  children := children
  shown := shown
  isLink _ := rfl
  childCount n := by
    cases n with
    | sequence items => exact (List.length_map _).symm
    | mapping entries => exact (List.length_map _).symm
    | _ => rfl
  child? n i := by
    cases n with
    | sequence items => exact (List.getElem?_map ..).symm
    | mapping entries => exact (List.getElem?_map ..).symm
    | _ => rfl
  smaller _ _ h := size_child_lt h
  list n h := by
    cases n with
    | sequence items => exact congrArg Tree.list (shownItems_eq items)
    | _ => cases h
  struct n h hs := by
    cases n with
    | mapping entries => exact congrArg Tree.struct (shownEntries_eq 0 entries)
    | sequence items => cases h
    | _ => simp [form, childCount, kind] at hs
  leaf n h hc hk := by
    cases n with
    | sequence items => cases h
    | mapping entries => exact absurd rfl hk
    | _ => rfl

end AttributeTrees.Yaml.Node
