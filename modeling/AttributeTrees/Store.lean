import AttributeTrees.Content
import AttributeTrees.NodeTable
/-!
# Stores of trees

A store holds trees with their node tables and the disk. A node of a tree is used by handles, and a
tree lives as long as it has a holder or one of its nodes is used. An overlay is a tree stacked from
nodes of other trees, which it uses as long as it lives.
-/
namespace AttributeTrees

/-- A use of a node: the number of its tree and its id there. -/
structure Handle where
  tree : Nat
  id : NodeId
deriving DecidableEq, Repr

inductive Body where
  | own (content : Content)
  /-- The nodes that are stacked, the uppermost first, and the names of children found so far. -/
  | overlay (sources : List Handle) (listings : List (Path × List String))

namespace Body

def sort : Body → String
  | own content => content.sort
  | overlay _ _ => "overlay"

def root (b : Body) (d : Disk) : Location :=
  match b with
  | own content => content.root d
  | overlay _ _ => .stacked Path.here

def sources : Body → List Handle
  | own _ => []
  | overlay sources _ => sources

def listings : Body → List (Path × List String)
  | own _ => []
  | overlay _ listings => listings

def size : Body → Nat
  | own content => content.size
  | overlay _ _ => 0

def stack (source : Handle) : Body → Body
  | own content => own content
  | overlay sources _ => overlay (source :: sources) []

def note (p : Path) (names : List String) : Body → Body
  | own content => own content
  | overlay sources listings => overlay sources ((p, names) :: listings)

def bare : Body → Body
  | own content => own content
  | overlay _ _ => overlay [] []

end Body

structure Tree where
  body : Body
  table : NodeTable Location
  holders : Nat

structure Store where
  trees : List Tree
  disk : Disk

namespace Store

def onDisk (d : Disk) : Store := ⟨[], d⟩

def body? (s : Store) (tree : Nat) : Option Body := s.trees[tree]?.map (·.body)

def modifyTree (s : Store) (tree : Nat) (f : Tree → Tree) : Store :=
  { s with trees := s.trees.modify tree f }

def size (s : Store) : Nat := (s.trees.map fun t => t.body.size).foldr (· + ·) s.disk.size

def node? (s : Store) (h : Handle) : Option Location :=
  s.trees[h.tree]?.bind fun t => t.table.get? h.id

def reclaim (s : Store) (tree : Nat) : List Handle × Store :=
  match s.trees[tree]? with
  | some t =>
    if t.holders == 0 && t.table.isEmpty then
      (t.body.sources, s.modifyTree tree fun t => { t with body := t.body.bare })
    else ([], s)
  | none => ([], s)

/-- Ends uses of nodes, and with the last of a tree's those that the tree has of others. -/
def discard : Nat → List Handle → Store → Store
  | 0, _, s => s
  | _ + 1, [], s => s
  | fuel + 1, h :: rest, s =>
    let s := s.modifyTree h.tree fun t => { t with table := (t.table.release h.id).2 }
    let (more, s) := s.reclaim h.tree
    discard fuel (more ++ rest) s

def sourceCount (s : Store) : Nat := (s.trees.map fun t => t.body.sources.length).foldr (· + ·) 0

def discardAll (s : Store) (handles : List Handle) : Store :=
  discard (handles.length + s.sourceCount) handles s

end Store

abbrev Live := StateM Store

namespace Live

def use (tree : Nat) (node : Location) : Live Handle := do
  let s ← get
  match s.trees[tree]? with
  | some t =>
    let (id, table) := t.table.make node
    set (s.modifyTree tree fun t => { t with table := table })
    return ⟨tree, id⟩
  | none => return ⟨tree, 0⟩

def again (h : Handle) : Live Handle := do
  modify fun s => s.modifyTree h.tree fun t => { t with table := (t.table.addUse h.id).2 }
  return h

def release (h : Handle) : Live Unit := modify fun s => s.discardAll [h]

def addTree (body : Body) : Live Nat := do
  let s ← get
  let tree : Tree := ⟨body, NodeTable.empty, 1⟩
  set { s with trees := s.trees ++ [tree] }
  return s.trees.length

def hold (tree : Nat) : Live Unit :=
  modify fun s => s.modifyTree tree fun t => { t with holders := t.holders + 1 }

def letGo (tree : Nat) : Live Unit :=
  modify fun s =>
    let s := s.modifyTree tree fun t => { t with holders := t.holders - 1 }
    let (sources, s) := s.reclaim tree
    s.discardAll sources

def root (tree : Nat) : Live Handle := do
  let s ← get
  use tree (((s.body? tree).map (·.root s.disk)).getD (.document []))

def addSource (tree : Nat) (source : Handle) : Live Unit :=
  modify fun s => s.modifyTree tree fun t => { t with body := t.body.stack source }

def usedCount (tree : Nat) : Live Nat := return (((← get).trees[tree]?).map (·.table.size)).getD 0

end Live

end AttributeTrees
