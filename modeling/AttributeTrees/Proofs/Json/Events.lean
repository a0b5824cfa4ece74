import AttributeTrees.Json.Value
import AttributeTrees.Numeral
import AttributeTrees.Proofs.Visit.Tree
/-!
# Values and the trees that show them

A tree whose leaves are single values shows a JSON value. A whole number can be shown with a sign or
without, so more than one tree may show a value, and every value is shown by one.
-/
namespace AttributeTrees.Json

open Visit (Tree)

namespace Value

/-- A value as it can be in memory: doubles are finite, the members of an object have different
names and the length of an array fits a machine word. -/
inductive Proper : Value → Prop where
  | null : Proper null
  | bool (b : Bool) : Proper (bool b)
  | whole (n : Whole) : Proper (whole n)
  | float {x : Float} : x.isFinite = true → Proper (float x)
  | string (s : String) : Proper (string s)
  | array {items : List Value} : items.length ≤ Numeral.maxIndex → (∀ v ∈ items, Proper v) →
    Proper (array items)
  | object {members : List (String × Value)} : (members.map (·.1)).Nodup →
    (∀ m ∈ members, Proper m.2) → Proper (object members)

mutual

def ofTree : Tree → Value
  | .leaf run => (ofRun run).headD null
  | .struct members => object (ofMembers members)
  | .list items => array (ofItems items)

def ofMembers : List (String × Tree) → List (String × Value)
  | [] => []
  | (name, t) :: rest => (name, ofTree t) :: ofMembers rest

def ofItems : List Tree → List Value
  | [] => []
  | t :: rest => ofTree t :: ofItems rest

end

theorem ofMembers_eq_map (members : List (String × Tree)) :
    ofMembers members = members.map fun m => (m.1, ofTree m.2) := by
  induction members with
  | nil => rfl
  | cons m members ih => rw [ofMembers, ih, List.map_cons]

theorem ofItems_eq_map (items : List Tree) : ofItems items = items.map ofTree := by
  induction items with
  | nil => rfl
  | cons t items ih => rw [ofItems, ih, List.map_cons]

def wholeRun (n : Whole) : Run :=
  if h : 0 ≤ n.val then .uint [⟨n.val, h, n.property.2⟩]
  else .int [⟨n.val, n.property.1, by simp only [IntType.high]; omega⟩]

mutual

def toTree : Value → Tree
  | null => .leaf (.nil 1)
  | bool b => .leaf (.bool [b])
  | whole n => .leaf (wholeRun n)
  | float x => .leaf (.double [x])
  | string s => .leaf (.string [s])
  | array items => .list (toItems items)
  | object members => .struct (toMembers members)

def toMembers : List (String × Value) → List (String × Tree)
  | [] => []
  | (name, v) :: rest => (name, toTree v) :: toMembers rest

def toItems : List Value → List Tree
  | [] => []
  | v :: rest => toTree v :: toItems rest

end

theorem ofItems_toItems {items : List Value}
    (h : ∀ v ∈ items, v.toTree.Single ∧ ofTree v.toTree = v) :
    (∀ t ∈ toItems items, t.Single) ∧ ofItems (toItems items) = items := by
  induction items with
  | nil => exact ⟨nofun, rfl⟩
  | cons v items ih =>
    obtain ⟨⟨hs, hv⟩, hr⟩ := List.forall_mem_cons.1 h
    obtain ⟨hss, hvs⟩ := ih hr
    exact ⟨List.forall_mem_cons.2 ⟨hs, hss⟩, by rw [toItems, ofItems, hv, hvs]⟩

theorem ofMembers_toMembers {members : List (String × Value)}
    (h : ∀ m ∈ members, m.2.toTree.Single ∧ ofTree m.2.toTree = m.2) :
    (∀ m ∈ toMembers members, m.2.Single) ∧ ofMembers (toMembers members) = members := by
  induction members with
  | nil => exact ⟨nofun, rfl⟩
  | cons m members ih =>
    obtain ⟨⟨hs, hv⟩, hr⟩ := List.forall_mem_cons.1 h
    obtain ⟨hss, hvs⟩ := ih hr
    exact ⟨List.forall_mem_cons.2 ⟨hs, hss⟩, by rw [toMembers, ofMembers, hv, hvs]⟩

theorem ofTree_toTree {v : Value} (hv : v.Proper) : v.toTree.Single ∧ ofTree v.toTree = v := by
  induction hv with
  | null => exact ⟨.leaf rfl, rfl⟩
  | bool b => exact ⟨.leaf rfl, rfl⟩
  | whole n =>
    rw [toTree, wholeRun]
    split <;> exact ⟨.leaf rfl, rfl⟩
  | @float x hx => exact ⟨.leaf rfl, if_pos hx⟩
  | string s => exact ⟨.leaf rfl, rfl⟩
  | array hl hv ih =>
    obtain ⟨hs, hi⟩ := ofItems_toItems ih
    exact ⟨.list hs, congrArg Value.array hi⟩
  | object hn hv ih =>
    obtain ⟨hs, hm⟩ := ofMembers_toMembers ih
    exact ⟨.struct hs, congrArg Value.object hm⟩

end Value

end AttributeTrees.Json
