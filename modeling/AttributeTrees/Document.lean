import AttributeTrees.Access
/-!
# Trees of documents

A document is a value made of values. Its nodes are the lists of indices that lead from the whole
to a part. What can be asked of a node follows from what a form of documents tells about one value.
-/
namespace AttributeTrees.Document

structure Form (δ : Type) where
  name : δ → Option String
  preview : δ → Option String
  kind : δ → Kind
  isLink : δ → Bool
  isList : δ → Bool
  childCount : δ → Nat
  child? : δ → Nat → Option (Option String × δ)
  indexOf? : δ → String → Option Nat
  valueCount : δ → Nat
  fetch : δ → (offset : Nat) → (t : Element) → List t.Value → Nat × List t.Value
  size : δ → Nat

/-- A node: the indices that lead to it. -/
abbrev Place := List Nat

variable {δ : Type}

def at? (f : Form δ) : δ → Place → Option δ
  | v, [] => some v
  | v, i :: rest =>
    match f.child? v i with
    | some (_, child) => at? f child rest
    | none => none

def name? (f : Form δ) (document : δ) (place : Place) : Option String :=
  match place.getLast? with
  | some i => (at? f document place.dropLast).bind fun v => (f.child? v i).bind (·.1)
  | none => f.name document

def childAt? (f : Form δ) (document : δ) (place : Place) (index : Nat) : Option Place :=
  (at? f document place).bind fun v =>
    if index < f.childCount v then some (place ++ [index]) else none

def fetch (f : Form δ) (document : δ) (place : Place) (offset : Nat) (t : Element)
    (slots : List t.Value) : Nat × List t.Value :=
  match at? f document place with
  | some v => f.fetch v offset t slots
  | none => (0, slots)

def access (f : Form δ) (document : δ) : Access Id Place where
  name place := name? f document place
  preview place := (at? f document place).bind f.preview
  kind place := ((at? f document place).map f.kind).getD .unknown
  isImmutable _ := true
  isLink place := ((at? f document place).map f.isLink).getD false
  isList place := ((at? f document place).map f.isList).getD false
  childCount place := ((at? f document place).map f.childCount).getD 0
  childAt place index := childAt? f document place index
  childNamed place name :=
    (at? f document place).bind fun v =>
      (f.indexOf? v name).bind (childAt? f document place)
  valueCount place := ((at? f document place).map f.valueCount).getD 0
  fetch place offset t slots := fetch f document place offset t slots
  release _ := ()
  size _ := f.size document

@[simp] theorem at?_nil (f : Form δ) (v : δ) : at? f v [] = some v := rfl

theorem at?_append (f : Form δ) (v : δ) (p q : Place) :
    at? f v (p ++ q) = (at? f v p).bind (at? f · q) := by
  induction p generalizing v with
  | nil => simp
  | cons i p ih =>
    simp only [List.cons_append, at?]
    cases f.child? v i with
    | none => rfl
    | some c => exact ih c.2

end AttributeTrees.Document
