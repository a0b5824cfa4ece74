import AttributeTrees.Proofs.Access.Ways
import AttributeTrees.Store.Access
import Mathlib.Data.List.Nodup
/-!
# Layers

An overlay without effects: its layers are nodes of trees that can be asked without effects, and a
question about a path goes to the uppermost layer that has the path.
-/
namespace AttributeTrees

structure Layer where
  tree : Nat
  node : Location

namespace Layer

variable {α : Type} {view view' : Nat → Access Id Location} {l : Layer} {layers : List Layer}
  {p : Path}

def reach (view : Nat → Access Id Location) (p : Path) (l : Layer) : Option Layer :=
  Option.map (mk l.tree) ((view l.tree).resolve l.node p [])

def segments (view : Nat → Access Id Location) (l : Layer) : List String :=
  ((view l.tree).children l.node).map fun child => (view l.tree).segment child.2 child.1

def merged (view : Nat → Access Id Location) (layers : List Layer) (p : Path) : List String :=
  ((layers.filterMap (reach view p)).flatMap (segments view)).foldl Store.addName []

def topmost (view : Nat → Access Id Location) (layers : List Layer) (p : Path) (default : α)
    (f : Access Id Location → Location → α) : α :=
  match (layers.filterMap (reach view p)).head? with
  | some l => f (view l.tree) l.node
  | none => default

/-- Layers on top of each other, where the names of children are known. -/
def stack (view : Nat → Access Id Location) (layers : List Layer) (names : Path → List String) :
    Access Id Path where
  name p := p.last?
  preview p := topmost view layers p none (·.preview)
  kind p := topmost view layers p .unknown (·.kind)
  isImmutable p := topmost view layers p false (·.isImmutable)
  isLink p := topmost view layers p false (·.isLink)
  isList _ := false
  childCount p := (names p).length
  childAt p i := (names p)[i]?.map p.push
  childNamed p name := if (names p).contains name then some (p.push name) else none
  valueCount p := topmost view layers p 0 (·.valueCount)
  fetch p offset t slots := topmost view layers p (0, slots) fun a n => a.fetch n offset t slots
  release _ := ()
  size _ := 0

theorem tree_reach {m : Layer} (h : l.reach view p = some m) : m.tree = l.tree := by
  obtain ⟨n, -, rfl⟩ := Option.map_eq_some_iff.1 h
  rfl

theorem exists_layer {m : Layer} (h : m ∈ layers.filterMap (reach view p)) :
    ∃ l ∈ layers, m.tree = l.tree := by
  obtain ⟨l, hl, hm⟩ := List.mem_filterMap.1 h
  exact ⟨l, hl, tree_reach hm⟩

section
variable (hv : ∀ l ∈ layers, view l.tree = view' l.tree)
include hv

theorem filterMap_reach_congr (p : Path) :
    layers.filterMap (reach view p) = layers.filterMap (reach view' p) := by
  apply List.filterMap_congr
  intro l hl
  simp only [reach, hv l hl]

theorem merged_congr (p : Path) : merged view layers p = merged view' layers p := by
  unfold merged
  rw [← filterMap_reach_congr hv]
  congr 1
  apply List.flatMap_congr
  intro m hm
  obtain ⟨l, hl, htree⟩ := exists_layer hm
  simp only [segments, htree, hv l hl]

theorem topmost_congr (p : Path) (default : α) (f : Access Id Location → Location → α) :
    topmost view layers p default f = topmost view' layers p default f := by
  unfold topmost
  rw [← filterMap_reach_congr hv]
  cases h : (layers.filterMap (reach view p)).head? with
  | none => rfl
  | some m =>
    obtain ⟨l, hl, htree⟩ := exists_layer (List.mem_of_head? h)
    simp only [htree, hv l hl]

theorem stack_congr (names : Path → List String) :
    stack view layers names = stack view' layers names := by
  simp only [stack, topmost_congr hv]

end

theorem mem_foldl_addName {name : String} (more names : List String) :
    name ∈ more.foldl Store.addName names ↔ name ∈ names ∨ name ∈ more := by
  induction more generalizing names with
  | nil => simp
  | cons first more ih =>
    rw [List.foldl_cons, ih, Store.addName]
    split
    · next h =>
      have hfirst : first ∈ names := by simpa using h
      simp only [List.mem_cons]
      constructor
      · rintro (h | h) <;> simp [h]
      · rintro (h | rfl | h) <;> simp_all
    · simp [or_assoc]

theorem nodup_foldl_addName {names : List String} (h : names.Nodup) (more : List String) :
    (more.foldl Store.addName names).Nodup := by
  induction more generalizing names with
  | nil => exact h
  | cons first more ih =>
    apply ih
    unfold Store.addName
    split
    · exact h
    · next hnew =>
      have hfirst : first ∉ names := by simpa using hnew
      simpa [List.nodup_append] using ⟨h, fun _ hm he => hfirst (he ▸ hm)⟩

theorem mem_merged {name : String} : name ∈ merged view layers p ↔
    ∃ l ∈ layers, ∃ m, l.reach view p = some m ∧ name ∈ m.segments view := by
  simp only [merged, mem_foldl_addName, List.not_mem_nil, false_or, List.mem_flatMap,
    List.mem_filterMap]
  constructor
  · rintro ⟨m, ⟨l, hl, hm⟩, hname⟩
    exact ⟨l, hl, m, hm, hname⟩
  · rintro ⟨l, hl, m, hm, hname⟩
    exact ⟨m, ⟨l, hl, hm⟩, hname⟩

theorem nodup_merged (view : Nat → Access Id Location) (layers : List Layer) (p : Path) :
    (merged view layers p).Nodup :=
  nodup_foldl_addName .nil _

theorem not_mem_merged (view : Nat → Access Id Location) (layers : List Layer) (p : Path) :
    "" ∉ merged view layers p := by
  rw [mem_merged]
  rintro ⟨-, -, m, -, hname⟩
  obtain ⟨child, -, hsegment⟩ := List.mem_map.1 hname
  exact Access.segment_ne_empty _ child.2 child.1 hsegment

def Listed (names : Path → List String) : Path → List String → Prop
  | _, [] => True
  | p, name :: rest => name ∈ names p ∧ Listed names (p.push name) rest

theorem listed_append (names : Path → List String) (p : Path) (way more : List String) :
    Listed names p (way ++ more) ↔ Listed names p way ∧ Listed names ⟨p.segments ++ way⟩ more := by
  induction way generalizing p with
  | nil => simp [Listed]
  | cons name way ih =>
    rw [List.cons_append, Listed, Listed, ih, and_assoc]
    simp

theorem step_stack (names : Path → List String) (p : Path) (name : String) :
    (stack view layers names).step p name [] =
      if name ∈ names p then some (p.push name) else none := by
  rw [Access.step_eq]
  simp [stack, Access.candidates]

theorem follow_stack {names : Path → List String} {q : Path} {way : List String} :
    (stack view layers names).follow [] p way = some q ↔
      Listed names p way ∧ q = ⟨p.segments ++ way⟩ := by
  induction way generalizing p with
  | nil =>
    change some p = some q ↔ _
    simp [Listed, eq_comm]
  | cons name way ih =>
    rw [Access.follow_cons, step_stack, Listed]
    by_cases h : name ∈ names p
    · rw [if_pos h, Option.bind_some, ih]
      simp [h]
    · simp [h]

def paths (names : Path → List String) : Nat → Path → List Path
  | 0, _ => []
  | depth + 1, p => p :: (names p).flatMap fun name => paths names depth (p.push name)

theorem mem_paths {names : Path → List String} {depth : Nat} {q : Path} :
    q ∈ paths names depth p ↔
      ∃ way, way.length < depth ∧ Listed names p way ∧ q = ⟨p.segments ++ way⟩ := by
  induction depth generalizing p with
  | zero => simp [paths]
  | succ depth ih =>
    simp only [paths, List.mem_cons, List.mem_flatMap, ih]
    constructor
    · rintro (rfl | ⟨name, hname, way, hlen, hlisted, rfl⟩)
      · exact ⟨[], by simp, trivial, by simp⟩
      · refine ⟨name :: way, by simpa using hlen, ⟨hname, hlisted⟩, ?_⟩
        simp
    · rintro ⟨way, hlen, hlisted, rfl⟩
      cases way with
      | nil => exact .inl (by simp)
      | cons name way =>
        refine .inr ⟨name, hlisted.1, way, by simpa using hlen, hlisted.2, ?_⟩
        simp

theorem nodup_paths {names : Path → List String} (hn : ∀ p, (names p).Nodup) (depth : Nat)
    (p : Path) : (paths names depth p).Nodup := by
  induction depth generalizing p with
  | zero => exact .nil
  | succ depth ih =>
    rw [paths, List.nodup_cons, List.nodup_flatMap]
    refine ⟨?_, fun name _ => ih _, ?_⟩
    · simp only [List.mem_flatMap, mem_paths]
      rintro ⟨name, -, way, -, -, hp⟩
      have hlen := congrArg (fun q : Path => q.segments.length) hp
      simp at hlen
    · apply (hn p).imp
      intro name other hne q hq hq'
      obtain ⟨way, -, -, rfl⟩ := mem_paths.1 hq
      obtain ⟨way', -, -, hq'⟩ := mem_paths.1 hq'
      apply hne
      simpa using congrArg (fun q : Path => q.segments[p.segments.length]?) hq'

theorem children_stack (names : Path → List String) (p : Path) :
    (stack view layers names).children p =
      (List.range' 0 (names p).length).map fun i => (i, p.push ((names p).getD i "")) := by
  unfold Access.children
  rw [← List.filterMap_eq_map]
  apply List.filterMap_congr
  intro i hi
  have hlt : i < (names p).length := by simpa [stack] using hi
  change Option.map (i, ·) ((names p)[i]?.map p.push) = _
  simp [hlt]

theorem rowSegment_stack {names : Path → List String} {name : String} (h : name ≠ "") (i : Nat) :
    (stack view layers names).rowSegment p (i, p.push name) = name := by
  have hname : (stack view layers names).name (p.push name) = some name := by
    simp [stack, Path.last?]
  refine (Access.segment_of_name _ hname i).trans ?_
  simp [h]

/-- Where no layer has a link, each path is reported as itself. -/
theorem rows_stack {names : Path → List String} (hne : ∀ p, "" ∉ names p)
    (hlink : ∀ p, topmost view layers p false (·.isLink) = false) (depth : Nat) (p : Path) :
    (stack view layers names).rows depth p p = (paths names depth p).map fun q => (q, q) := by
  induction depth generalizing p with
  | zero => rfl
  | succ depth ih =>
    have hnames :
        (List.range' 0 (names p).length).map (fun i => (names p).getD i "") = names p := by
      apply List.ext_getElem
      · simp
      · intro i hi _
        simp at hi
        simp [hi]
    have hopen : (stack view layers names).isLink p = false := hlink p
    rw [Access.rows, hopen, children_stack, List.flatMap_map, paths, List.map_cons,
      List.map_flatMap]
    conv => rhs; rw [← hnames, List.flatMap_map]
    change (p, p) :: List.flatMap _ _ = _
    congr 1
    apply List.flatMap_congr
    intro i hi
    have hlt : i < (names p).length := by simpa using hi
    have hname : (names p).getD i "" ∈ names p := by simp [hlt]
    have hname' : (names p).getD i "" ≠ "" := fun he => hne p (he ▸ hname)
    rw [rowSegment_stack hname', ih]

end Layer

end AttributeTrees
