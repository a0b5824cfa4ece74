import AttributeTrees.Store
/-!
# Access to the trees of a store

Nodes are asked about by the handles that use them, and what an answer hands out is a use that has
to be given back. An overlay has at each path the children that its sources have there, and the
values of the uppermost source that has the path at all. What an overlay found out about the names
of children it keeps until a source is added to it.
-/
namespace AttributeTrees.Store

abbrev Nodes := Nat → Access Live Location

variable (nodes : Nodes)

def ofNode {α : Type} (h : Handle) (default : α) (f : Location → Live α) : Live α := do
  match (← get).node? h with
  | some node => f node
  | none => return default

def adopt (tree : Nat) : Option Location → Live (Option Handle)
  | some node => some <$> Live.use tree node
  | none => return none

def find (h : Handle) (p : Path) (tags : List String) : Live (Option Handle) :=
  ofNode h none fun n => do adopt h.tree (← (nodes h.tree).resolve n p tags)

def handles : Access Live Handle where
  name h := ofNode h none (nodes h.tree).name
  preview h := ofNode h none (nodes h.tree).preview
  kind h := ofNode h .unknown (nodes h.tree).kind
  isImmutable h := ofNode h false (nodes h.tree).isImmutable
  isLink h := ofNode h false (nodes h.tree).isLink
  isList h := ofNode h false (nodes h.tree).isList
  childCount h := ofNode h 0 (nodes h.tree).childCount
  childAt h i := ofNode h none fun n => do adopt h.tree (← (nodes h.tree).childAt n i)
  childNamed h s := ofNode h none fun n => do adopt h.tree (← (nodes h.tree).childNamed n s)
  valueCount h := ofNode h 0 (nodes h.tree).valueCount
  fetch h offset t slots :=
    ofNode h (0, slots) fun n => (nodes h.tree).fetch n offset t slots
  release := Live.release
  size _ := return (← get).size

def firstWith (p : Path) : List Handle → Live (Option Handle)
  | [] => return none
  | source :: rest => do
    match ← find nodes source p [] with
    | some h => return some h
    | none => firstWith p rest

def allWith (p : Path) : List Handle → Live (List Handle)
  | [] => return []
  | source :: rest => do
    let here ← find nodes source p []
    return here.toList ++ (← allWith p rest)

def sources (tree : Nat) : Live (List Handle) :=
  return (((← get).body? tree).map (·.sources)).getD []

def fromFirst {α : Type} (tree : Nat) (p : Path) (default : α) (f : Handle → Live α) :
    Live α := do
  match ← firstWith nodes p (← sources tree) with
  | some h =>
    let answer ← f h
    Live.release h
    return answer
  | none => return default

def addName (names : List String) (name : String) : List String :=
  if names.contains name then names else names ++ [name]

def collectNames : List Handle → List String → Live (List String)
  | [], names => return names
  | h :: rest, names => do
    let names ← (handles nodes).foldChildren h (fun i child names => do
      return addName names (← (handles nodes).segment child i)) names
    Live.release h
    collectNames rest names

def childNames (tree : Nat) (p : Path) : Live (List String) := do
  match (((← get).body? tree).map (·.listings)).getD [] |>.lookup p with
  | some names => return names
  | none =>
    let names ← collectNames nodes (← allWith nodes p (← sources tree)) []
    modify fun s => s.modifyTree tree fun t => { t with body := t.body.note p names }
    return names

def overlay (tree : Nat) : Access Live Path where
  name p := return p.last?
  preview p := fromFirst nodes tree p none (handles nodes).preview
  kind p := fromFirst nodes tree p .unknown (handles nodes).kind
  isImmutable p := fromFirst nodes tree p false (handles nodes).isImmutable
  isLink p := fromFirst nodes tree p false (handles nodes).isLink
  isList _ := return false
  childCount p := return (← childNames nodes tree p).length
  childAt p i := return (← childNames nodes tree p)[i]?.map p.push
  childNamed p s := do
    return if (← childNames nodes tree p).contains s then some (p.push s) else none
  valueCount p := fromFirst nodes tree p 0 (handles nodes).valueCount
  fetch p offset t slots :=
    fromFirst nodes tree p (0, slots) fun h => (handles nodes).fetch h offset t slots
  release _ := return ()
  size _ := return (← get).size

/-- Access to the nodes of each tree, through overlays stacked on each other up to a height. -/
def nodesUpTo : Nat → Nodes
  | 0, _ => Access.nothing
  | height + 1, tree =>
    Access.choose do
      let s ← get
      match s.body? tree with
      | some (.overlay _ _) =>
        return (overlay (nodesUpTo height) tree).disguise .stacked Location.stacked?
      | some (.own content) => return (content.access s.disk).lift
      | none => return Access.nothing

end Store

namespace Live

def nodes : Store.Nodes := fun tree =>
  Access.choose do return Store.nodesUpTo (← get).trees.length tree

def access : Access Live Handle := Store.handles nodes

def find (h : Handle) (p : Path) (tags : List String) : Live (Option Handle) :=
  Store.find nodes h p tags

def atRoot {α : Type} (tree : Nat) (f : Handle → Live α) : Live α := do
  let h ← root tree
  let answer ← f h
  release h
  return answer

def valueAt (h : Handle) (p : Path) (tags : List String) (t : Element) : Live (Option t.Value) := do
  match ← find h p tags with
  | some n =>
    let v ← access.first n t
    release n
    return v
  | none => return none

def hasValue (h : Handle) (p : Path) (tags : List String) : Live Bool := do
  match ← find h p tags with
  | some n =>
    let count ← access.valueCount n
    release n
    return 0 < count
  | none => return false

end Live

end AttributeTrees
