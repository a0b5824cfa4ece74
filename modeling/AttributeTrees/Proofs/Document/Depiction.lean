import AttributeTrees.Document
import AttributeTrees.Proofs.Visit.Handing
import AttributeTrees.Traversal
/-!
# Depictions of documents

A form of documents is depicted if every value has its children in a list and is shown as a tree of
events: lists by what their items show, structures by their members under the segments that lead to
them, and any other value by its run.
-/
namespace AttributeTrees.Document

open Visit (Tree Visitor)

variable {δ : Type}

def label (name? : Option String) (index : Nat) : String :=
  match name? with
  | some name => if name.isEmpty then toString index else name
  | none => toString index

def labelled (shown : δ → Tree) : Nat → List (Option String × δ) → List (String × Tree)
  | _, [] => []
  | i, (name?, v) :: rest => (label name? i, shown v) :: labelled shown (i + 1) rest

structure Depiction (f : Form δ) where
  children : δ → List (Option String × δ)
  shown : δ → Tree
  isLink : ∀ v, f.isLink v = false
  childCount : ∀ v, f.childCount v = (children v).length
  child? : ∀ v i, f.child? v i = (children v)[i]?
  smaller : ∀ v, ∀ c ∈ children v, f.size c.2 < f.size v
  list : ∀ v, f.isList v = true → shown v = .list ((children v).map fun c => shown c.2)
  struct : ∀ v, f.isList v = false → (f.childCount v ≠ 0 ∨ f.kind v = .composite) →
    shown v = .struct (labelled shown 0 (children v))
  leaf : ∀ v, f.isList v = false → f.childCount v = 0 → f.kind v ≠ .composite →
    shown v = .leaf ((access f v).run [])

theorem le_total {α : Type} (size : α → Nat) (total : List α → Nat)
    (h : ∀ a l, total (a :: l) = size a + total l) {a : α} {l : List α} (ha : a ∈ l) :
    size a ≤ total l := by
  induction l with
  | nil => cases ha
  | cons b l ih =>
    rw [h]
    rcases List.mem_cons.1 ha with rfl | ha
    · exact Nat.le_add_right _ _
    · exact Nat.le_trans (ih ha) (Nat.le_add_left _ _)

/-- Goes on from child to child as long as the visitor wants more. -/
def each {α σ : Type} (v : Visitor σ) (f : Nat → α → σ → σ) : Nat → List α → σ → σ
  | _, [], s => s
  | i, c :: rest, s => if v.wantsMore s then each v f (i + 1) rest (f i c s) else s

theorem each_items {α σ : Type} (v : Visitor σ) (shown : α → Tree) (i : Nat) (cs : List α) (s : σ) :
    each v (fun _ c s => (shown c).hand v s) i cs s = Tree.handItems v (cs.map shown) s := by
  induction cs generalizing i s with
  | nil => rfl
  | cons c cs ih => rw [each, ih, List.map_cons, Tree.handItems]

theorem each_members {σ : Type} (v : Visitor σ) (shown : δ → Tree) (i : Nat)
    (cs : List (Option String × δ)) (s : σ) :
    each v (fun i c s =>
      let name := label c.1 i
      v.receive ((shown c.2).hand v (v.receive s (.enterAttribute name))) (.leaveAttribute name))
      i cs s = Tree.handMembers v (labelled shown i cs) s := by
  induction cs generalizing i s with
  | nil => rfl
  | cons c cs ih => rw [each, ih, labelled, Tree.handMembers]

variable {f : Form δ} {doc v : δ} {place : Place} {i : Nat} {child : Option String × δ}

theorem Depiction.at?_child (d : Depiction f) (hv : at? f doc place = some v)
    (hc : (d.children v)[i]? = some child) : at? f doc (place ++ [i]) = some child.2 := by
  rw [at?_append, hv]
  simp only [Option.bind_some, at?, d.child?, hc]

theorem Depiction.name?_child (d : Depiction f) (hv : at? f doc place = some v)
    (hc : (d.children v)[i]? = some child) : name? f doc (place ++ [i]) = child.1 := by
  simp [name?, hv, d.child?, hc]

theorem Depiction.childAt?_child (d : Depiction f) (hv : at? f doc place = some v)
    (hc : (d.children v)[i]? = some child) : childAt? f doc place i = some (place ++ [i]) := by
  have hi : i < (d.children v).length := (List.getElem?_eq_some_iff.1 hc).1
  rw [childAt?, hv, Option.bind_some, d.childCount, if_pos hi]

end AttributeTrees.Document
