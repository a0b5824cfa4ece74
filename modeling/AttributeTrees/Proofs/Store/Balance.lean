import AttributeTrees.Proofs.NodeTable
import AttributeTrees.Store
/-!
# Balanced stores

A store is balanced if each entry of its tables counts the handles that carry its id: those that
users hold and those that overlays have as sources. What takes uses of nodes and ends them again
leaves a later store, in which the trees and the nodes of the handles are what they were. Main
statements: a use of a node and the end of a use keep the balance, also where the end of a use is
the end of an overlay.
-/
namespace AttributeTrees

namespace Location

def identity : Location → Document.Place ⊕ List String ⊕ Path
  | document place => .inl place
  | file node => .inr (.inl (Disk.components node.path))
  | stacked path => .inr (.inr path)

theorem beq_iff (a b : Location) : (a == b) = true ↔ a.identity = b.identity := by
  change same a b = true ↔ _
  cases a <;> cases b <;> simp [same, identity]
  exact beq_iff_eq (α := List String)

instance : EquivBEq Location where
  rfl := (beq_iff _ _).2 rfl
  symm h := (beq_iff _ _).2 ((beq_iff _ _).1 h).symm
  trans h k := (beq_iff _ _).2 (((beq_iff _ _).1 h).trans ((beq_iff _ _).1 k))

end Location

namespace Store

variable {s s' s'' : Store} {held : List Handle} {h g : Handle} {tree : Nat} {t : Tree}

def uses (s : Store) (h : Handle) : Nat := ((s.trees[h.tree]?).map (·.table.uses h.id)).getD 0

def nextId (s : Store) (tree : Nat) : NodeId := ((s.trees[tree]?).map (·.table.next)).getD 0

def holders (s : Store) (tree : Nat) : Nat := ((s.trees[tree]?).map (·.holders)).getD 0

def stacked (s : Store) : List Handle := s.trees.flatMap (·.body.sources)

section
variable {i j : Nat} {f : Tree → Tree}

theorem getElem?_modifyTree (s : Store) (i j : Nat) (f : Tree → Tree) :
    (s.modifyTree i f).trees[j]? = (s.trees[j]?).map fun t => if i = j then f t else t :=
  List.getElem?_modify f i s.trees j

theorem trees_modifyTree (ht : s.trees[i]? = some t) (j : Nat) :
    (s.modifyTree i f).trees[j]? = if j = i then some (f t) else s.trees[j]? := by
  rw [getElem?_modifyTree]
  by_cases hj : j = i
  · simp [hj, ht]
  · simp [hj, Ne.symm hj]

theorem forall_mem_modifyTree {P : Tree → Prop} (hs : ∀ t ∈ s.trees, P t)
    (hf : ∀ t, s.trees[i]? = some t → P (f t)) : ∀ t ∈ (s.modifyTree i f).trees, P t := by
  intro t ht
  obtain ⟨j, hj⟩ := List.mem_iff_getElem?.1 ht
  rw [getElem?_modifyTree] at hj
  obtain ⟨u, hu, rfl⟩ := Option.map_eq_some_iff.1 hj
  split
  · next hij => exact hf u (hij ▸ hu)
  · exact hs u (List.mem_of_getElem? hu)

theorem uses_modifyTree (ht : s.trees[i]? = some t) (h : Handle) :
    (s.modifyTree i f).uses h = if h.tree = i then (f t).table.uses h.id else s.uses h := by
  unfold uses
  rw [trees_modifyTree ht]
  split <;> rfl

theorem holders_modifyTree (ht : s.trees[i]? = some t) (j : Nat) :
    (s.modifyTree i f).holders j = if j = i then (f t).holders else s.holders j := by
  unfold holders
  rw [trees_modifyTree ht]
  split <;> rfl

theorem modifyTree_congr {g : Tree → Tree} (ht : s.trees[i]? = some t) (h : f t = g t) :
    s.modifyTree i f = s.modifyTree i g := by
  have hl : (s.modifyTree i f).trees = (s.modifyTree i g).trees := by
    refine List.ext_getElem? fun j => ?_
    rw [trees_modifyTree ht, trees_modifyTree ht, h]
  exact congrArg (Store.mk · s.disk) hl

theorem flatMap_modify {α β : Type} (g : α → List β) (f : α → α) {l : List α} {i : Nat} {a : α}
    (h : l[i]? = some a) : ∃ others, (l.flatMap g).Perm (g a ++ others) ∧
      ((l.modify i f).flatMap g).Perm (g (f a) ++ others) := by
  induction l generalizing i with
  | nil => cases h
  | cons b l ih =>
    cases i with
    | zero =>
      cases h
      exact ⟨l.flatMap g, .refl _, .refl _⟩
    | succ i =>
      obtain ⟨others, hl, hm⟩ := ih (i := i) (by simpa using h)
      refine ⟨g b ++ others, ?_, ?_⟩
      · exact (hl.append_left (g b)).trans (List.perm_append_comm_assoc ..)
      · exact (hm.append_left (g b)).trans (List.perm_append_comm_assoc ..)

theorem stacked_modifyTree (ht : s.trees[i]? = some t) : ∃ others,
    s.stacked.Perm (t.body.sources ++ others) ∧
      (s.modifyTree i f).stacked.Perm ((f t).body.sources ++ others) :=
  flatMap_modify (·.body.sources) f ht

end

/-- A store in which each id that was given out stands for its node or for none. -/
structure Follows (s s' : Store) : Prop where
  disk : s'.disk = s.disk
  nextId : ∀ tree, s.nextId tree ≤ s'.nextId tree
  nodes : ∀ h : Handle, h.id < s.nextId h.tree → s'.node? h = s.node? h ∨ s'.node? h = none

theorem Follows.refl (s : Store) : s.Follows s :=
  ⟨rfl, fun _ => Nat.le_refl _, fun _ _ => .inl rfl⟩

theorem Follows.trans (h : s.Follows s') (k : s'.Follows s'') : s.Follows s'' where
  disk := k.disk.trans h.disk
  nextId tree := Nat.le_trans (h.nextId tree) (k.nextId tree)
  nodes a ha := by
    rcases k.nodes a (Nat.lt_of_lt_of_le ha (h.nextId a.tree)) with hk | hk
    · rw [hk]
      exact h.nodes a ha
    · exact .inr hk

theorem follows_modifyTree {f : Tree → Tree} (ht : s.trees[tree]? = some t)
    (hn : t.table.next ≤ (f t).table.next)
    (hg : ∀ id < t.table.next, (f t).table.get? id = t.table.get? id ∨
      (f t).table.get? id = none) : s.Follows (s.modifyTree tree f) := by
  refine ⟨rfl, fun j => ?_, fun h hid => ?_⟩
  · unfold nextId
    rw [trees_modifyTree ht]
    split
    · next hj => rw [hj, ht]; exact hn
    · exact Nat.le_refl _
  · unfold node? nextId at *
    rw [trees_modifyTree ht]
    split
    · next hj =>
      rw [hj, ht] at hid ⊢
      exact hg h.id hid
    · exact .inl rfl

def unlisted : Body → Body
  | .own content => .own content
  | .overlay sources _ => .overlay sources []

def lasting (t : Tree) : Body × Nat := (unlisted t.body, t.holders)

/-- A store that follows and in which the same trees stand for the same. -/
structure Later (s s' : Store) : Prop extends Follows s s' where
  trees : s'.trees.map lasting = s.trees.map lasting

theorem Later.refl (s : Store) : s.Later s := ⟨.refl s, rfl⟩

theorem Later.trans (h : s.Later s') (k : s'.Later s'') : s.Later s'' :=
  ⟨h.toFollows.trans k.toFollows, k.trees.trans h.trees⟩

theorem Later.getElem? (h : s.Later s') (tree : Nat) :
    (s'.trees[tree]?).map lasting = (s.trees[tree]?).map lasting := by
  rw [← List.getElem?_map, ← List.getElem?_map, h.trees]

theorem sources_unlisted (b : Body) : (unlisted b).sources = b.sources := by
  cases b <;> rfl

theorem Later.stacked (h : s.Later s') : s'.stacked = s.stacked := by
  have hs (s : Store) : s.stacked = ((s.trees.map lasting).map (·.1.sources)).flatten := by
    simp only [Store.stacked, List.flatMap_def, List.map_map]
    congr 2
    funext t
    exact (sources_unlisted t.body).symm
  rw [hs, hs, h.trees]

theorem Later.holders (h : s.Later s') (tree : Nat) : s'.holders tree = s.holders tree := by
  have hs (s : Store) : s.holders tree = (((s.trees[tree]?).map lasting).map (·.2)).getD 0 := by
    rw [Option.map_map]
    rfl
  rw [hs, hs, h.getElem?]

theorem Later.map_body (hl : s.Later s') (tree : Nat) :
    (s'.body? tree).map unlisted = (s.body? tree).map unlisted := by
  have h := congrArg (Option.map Prod.fst) (hl.getElem? tree)
  simpa [body?, Function.comp_def, lasting] using h

theorem Later.exists_body (hl : s.Later s') {b' : Body} (hb : s'.body? tree = some b') :
    ∃ b, s.body? tree = some b ∧ unlisted b' = unlisted b := by
  have h := hl.map_body tree
  rw [hb] at h
  obtain ⟨b, hb, hu⟩ := Option.map_eq_some_iff.1 h.symm
  exact ⟨b, hb, hu.symm⟩

theorem Later.body?_own {c : Content} (hl : s.Later s') (hc : s.body? tree = some (.own c)) :
    s'.body? tree = some (.own c) := by
  have h := hl.map_body tree
  rw [hc] at h
  obtain ⟨b, hb, hu⟩ := Option.map_eq_some_iff.1 h
  cases b with
  | own c' =>
    cases hu
    exact hb
  | overlay sources listings => cases hu

theorem Later.length (hl : s.Later s') : s'.trees.length = s.trees.length := by
  simpa using congrArg List.length hl.trees

theorem Later.size (hl : s.Later s') : s'.size = s.size := by
  have hbody (t : Tree) : t.body.size = (lasting t).1.size := by
    unfold lasting
    cases t.body <;> rfl
  have hmap (s : Store) : (s.trees.map fun t => t.body.size) =
      (s.trees.map lasting).map fun r => r.1.size := by
    rw [List.map_map]
    exact List.map_congr_left fun t _ => hbody t
  rw [Store.size, Store.size, hmap, hmap, hl.trees, hl.disk]

theorem later_modifyTree {f : Tree → Tree} (ht : s.trees[tree]? = some t)
    (hl : lasting (f t) = lasting t) (hn : t.table.next ≤ (f t).table.next)
    (hg : ∀ id < t.table.next, (f t).table.get? id = t.table.get? id ∨
      (f t).table.get? id = none) : s.Later (s.modifyTree tree f) := by
  refine ⟨follows_modifyTree ht hn hg, List.ext_getElem? fun j => ?_⟩
  rw [List.getElem?_map, List.getElem?_map, trees_modifyTree ht]
  split
  · next hj => rw [hj, ht]; exact congrArg some hl
  · rfl

/-- Each entry counts the handles that carry its id, those in `held` and those that are sources. -/
structure Counted (held : List Handle) (s : Store) : Prop where
  sound : ∀ t ∈ s.trees, t.table.Sound
  counts : ∀ h, s.uses h = (held ++ s.stacked).count h

def Kept (t : Tree) : Prop := t.body.sources = [] ∨ 0 < t.holders ∨ t.table.isEmpty = false

structure Balanced (held : List Handle) (s : Store) : Prop extends Counted held s where
  kept : ∀ t ∈ s.trees, Kept t

def Anchored (s : Store) (held : List Handle) (tree : Nat) : Prop :=
  0 < s.holders tree ∨ ∃ g ∈ held ++ s.stacked, g.tree = tree

theorem Counted.perm {held' : List Handle} (hs : s.Counted held) (hp : held.Perm held') :
    s.Counted held' :=
  ⟨hs.sound, fun h => (hs.counts h).trans ((hp.append_right s.stacked).count_eq h)⟩

theorem Balanced.perm {held' : List Handle} (hs : s.Balanced held) (hp : held.Perm held') :
    s.Balanced held' :=
  ⟨hs.toCounted.perm hp, hs.kept⟩

theorem uses_pos_iff (hs : ∀ t ∈ s.trees, t.table.Sound) :
    0 < s.uses h ↔ ∃ n, s.node? h = some n := by
  unfold uses node?
  cases ht : s.trees[h.tree]? with
  | none => simp
  | some t => exact (hs t (List.mem_of_getElem? ht)).uses_pos_iff

theorem Counted.mem_iff (hs : s.Counted held) :
    h ∈ held ++ s.stacked ↔ ∃ n, s.node? h = some n := by
  rw [← List.count_pos_iff, ← hs.counts, uses_pos_iff hs.sound]

theorem Counted.anchored (hs : s.Counted held) {n : Location} (h : s.node? g = some n) :
    s.Anchored held g.tree :=
  .inr ⟨g, hs.mem_iff.2 ⟨n, h⟩, rfl⟩

theorem Anchored.later (h : s.Anchored held tree) (hl : s.Later s') : s'.Anchored held tree := by
  unfold Anchored
  rwa [hl.holders, hl.stacked]

theorem Anchored.exists_tree (ha : s.Anchored held tree) (hs : s.Counted held) :
    ∃ t, s.trees[tree]? = some t := by
  cases ht : s.trees[tree]? with
  | some t => exact ⟨t, rfl⟩
  | none =>
    rcases ha with hh | ⟨g, hg, rfl⟩
    · simp [holders, ht] at hh
    · obtain ⟨n, hn⟩ := hs.mem_iff.1 hg
      simp [node?, ht] at hn

theorem Anchored.kept (ha : s.Anchored held tree) (hs : s.Counted held)
    (ht : s.trees[tree]? = some t) : 0 < t.holders ∨ t.table.isEmpty = false := by
  rcases ha with hh | ⟨g, hg, rfl⟩
  · exact .inl (by simpa [holders, ht] using hh)
  · refine .inr (Bool.eq_false_iff.2 fun he => ?_)
    have hu : 0 < s.uses g := hs.counts g ▸ List.count_pos_iff.2 hg
    have hz := (hs.sound t (List.mem_of_getElem? ht)).isEmpty_iff.1 he g.id
    simp [uses, ht, hz] at hu

theorem count_stacked_modifyTree {f : Tree → Tree} (ht : s.trees[tree]? = some t) (h : Handle) :
    (s.modifyTree tree f).stacked.count h + t.body.sources.count h =
      s.stacked.count h + (f t).body.sources.count h := by
  obtain ⟨others, hs, hm⟩ := stacked_modifyTree (f := f) ht
  rw [hs.count_eq, hm.count_eq, List.count_append, List.count_append]
  omega

theorem Counted.modifyTree {held' : List Handle} {f : Tree → Tree} (hs : s.Counted held)
    (ht : s.trees[tree]? = some t) (htable : (f t).table = t.table)
    (hp : (held' ++ (f t).body.sources).Perm (held ++ t.body.sources)) :
    (s.modifyTree tree f).Counted held' := by
  refine ⟨forall_mem_modifyTree hs.sound fun u hu => ?_, fun h => ?_⟩
  · rw [ht] at hu
    cases hu
    exact htable ▸ hs.sound t (List.mem_of_getElem? ht)
  · have hu : (s.modifyTree tree f).uses h = s.uses h := by
      rw [uses_modifyTree ht, htable]
      split
      · next hh => simp [uses, hh, ht]
      · rfl
    have hc := hs.counts h
    have hst := count_stacked_modifyTree (f := f) ht h
    have hpc := hp.count_eq h
    rw [List.count_append] at hc
    rw [List.count_append, List.count_append] at hpc
    rw [hu, List.count_append]
    omega

theorem Balanced.modifyTree {held' : List Handle} {f : Tree → Tree} (hs : s.Balanced held)
    (ht : s.trees[tree]? = some t) (htable : (f t).table = t.table)
    (hp : (held' ++ (f t).body.sources).Perm (held ++ t.body.sources)) (hk : Kept (f t)) :
    (s.modifyTree tree f).Balanced held' :=
  ⟨hs.toCounted.modifyTree ht htable hp, forall_mem_modifyTree hs.kept fun u hu => by
    rw [ht] at hu
    cases hu
    exact hk⟩

def retable (s : Store) (tree : Nat) (f : NodeTable Location → NodeTable Location) : Store :=
  s.modifyTree tree fun t => { t with table := f t.table }

section
variable {f : NodeTable Location → NodeTable Location}

theorem Counted.retable {held' : List Handle} (hs : s.Counted held)
    (ht : s.trees[tree]? = some t) (hf : (f t.table).Sound)
    (hu : ∀ h, h.tree = tree →
      (f t.table).uses h.id + held.count h = t.table.uses h.id + held'.count h)
    (ho : ∀ h, h.tree ≠ tree → held'.count h = held.count h) :
    (s.retable tree f).Counted held' := by
  refine ⟨forall_mem_modifyTree hs.sound fun u hu => ?_, fun h => ?_⟩
  · rw [ht] at hu
    cases hu
    exact hf
  · have hc := hs.counts h
    have hst : (s.retable tree f).stacked.count h = s.stacked.count h := by
      have := count_stacked_modifyTree (f := fun t => { t with table := f t.table }) ht h
      exact Nat.add_right_cancel this
    rw [Store.retable, uses_modifyTree ht, ← Store.retable, List.count_append, hst]
    rw [List.count_append] at hc
    split
    · next hh =>
      have hut := hu h hh
      have hus : s.uses h = t.table.uses h.id := by
        unfold uses
        rw [hh, ht]
        rfl
      simp only
      omega
    · next hh =>
      have := ho h hh
      omega

theorem later_retable (ht : s.trees[tree]? = some t) (hn : t.table.next ≤ (f t.table).next)
    (hg : ∀ id < t.table.next, (f t.table).get? id = t.table.get? id ∨
      (f t.table).get? id = none) : s.Later (s.retable tree f) :=
  later_modifyTree ht rfl hn hg

theorem kept_retable (hs : ∀ t ∈ s.trees, Kept t) (ht : s.trees[tree]? = some t)
    (hf : 0 < t.holders ∨ (f t.table).isEmpty = false) : ∀ t ∈ (s.retable tree f).trees, Kept t :=
  forall_mem_modifyTree hs fun u hu => by
    rw [ht] at hu
    cases hu
    exact .inr hf

end

theorem body?_retable (ht : s.trees[tree]? = some t)
    (f : NodeTable Location → NodeTable Location) (j : Nat) :
    (s.retable tree f).body? j = s.body? j := by
  unfold body?
  rw [retable, trees_modifyTree ht]
  split
  · next hj => rw [hj, ht]; rfl
  · rfl

theorem run_use (ht : s.trees[tree]? = some t) (n : Location) : (Live.use tree n).run s =
    (⟨tree, (t.table.make n).1⟩, s.retable tree fun u => (u.make n).2) := by
  have hm : s.modifyTree tree (fun u => { u with table := (t.table.make n).2 }) =
      s.retable tree fun u => (u.make n).2 := modifyTree_congr ht rfl
  rw [← hm, Live.use, StateT.run_bind, StateT.run_get, pure_bind, ht]
  rfl

theorem count_cons_handle (a h : Handle) (hs : List Handle) :
    (a :: hs).count h = hs.count h + if h.tree = a.tree ∧ h.id = a.id then 1 else 0 := by
  rw [List.count_cons]
  congr 1
  obtain ⟨i, k⟩ := a
  obtain ⟨j, l⟩ := h
  simp only [beq_iff_eq, Handle.mk.injEq, eq_comm (a := i), eq_comm (a := k)]

theorem Balanced.use (hs : s.Balanced held) (ht : s.trees[tree]? = some t) (n : Location) :
    let r := (Live.use tree n).run s
    r.2.Balanced (r.1 :: held) ∧ s.Later r.2 ∧ r.1.tree = tree ∧
      ∃ m, r.2.node? r.1 = some m ∧ (m == n) = true := by
  have hst : t.table.Sound := hs.sound t (List.mem_of_getElem? ht)
  rw [run_use ht]
  dsimp only
  refine ⟨⟨hs.retable ht (hst.make n) (fun h hh => ?_) (fun h hh => ?_), ?_⟩, ?_, rfl, ?_⟩
  · rw [hst.uses_make, count_cons_handle]
    simp only [hh, true_and]
    omega
  · rw [count_cons_handle]
    simp [hh]
  · refine kept_retable hs.kept ht (.inr (Bool.eq_false_iff.2 fun he => ?_))
    have hz := (hst.make n).isEmpty_iff.1 he (t.table.make n).1
    rw [hst.uses_make, if_pos rfl] at hz
    cases hz
  · refine later_retable ht (NodeTable.next_le_make _ _) fun id hid => ?_
    exact .inl (NodeTable.get?_make n hid)
  · obtain ⟨m, hm, hmn⟩ := hst.get?_make_self n
    refine ⟨m, ?_, hmn⟩
    simp only [node?, retable, getElem?_modifyTree, ht, if_true, Option.map_some,
      Option.bind_some]
    exact hm

theorem run_again (s : Store) (h : Handle) :
    (Live.again h).run s = (h, s.retable h.tree fun u => (u.addUse h.id).2) := rfl

theorem Balanced.again (hs : s.Balanced held) (hh : h ∈ held ++ s.stacked) :
    let s' := ((Live.again h).run s).2
    s'.Balanced (h :: held) ∧ s.Later s' := by
  obtain ⟨n, hn⟩ := hs.mem_iff.1 hh
  obtain ⟨t, ht, hg⟩ := Option.bind_eq_some_iff.1 hn
  have hst : t.table.Sound := hs.sound t (List.mem_of_getElem? ht)
  have hu := NodeTable.uses_addUse hg
  rw [run_again]
  dsimp only
  refine ⟨⟨hs.retable ht (hst.addUse h.id) (fun g hgt => ?_) (fun g hgt => ?_), ?_⟩, ?_⟩
  · rw [hu, count_cons_handle]
    simp only [hgt, true_and]
    omega
  · rw [count_cons_handle]
    simp [hgt]
  · refine kept_retable hs.kept ht (.inr (Bool.eq_false_iff.2 fun he => ?_))
    have hz := (hst.addUse h.id).isEmpty_iff.1 he h.id
    rw [hu, if_pos rfl] at hz
    cases hz
  · refine later_retable ht (Nat.le_of_eq ?_) fun id _ => .inl ?_
    · exact (NodeTable.next_addUse h.id).symm
    · exact NodeTable.get?_addUse h.id id

def drop (s : Store) (h : Handle) : Store := s.retable h.tree fun u => (u.release h.id).2

theorem trees_drop_of_ne {j : Nat} (hj : j ≠ h.tree) : (s.drop h).trees[j]? = s.trees[j]? := by
  rw [drop, retable, getElem?_modifyTree]
  simp [Ne.symm hj]

theorem Counted.drop (hs : s.Counted (h :: held)) : (s.drop h).Counted held := by
  obtain ⟨t, ht⟩ : ∃ t, s.trees[h.tree]? = some t := by
    obtain ⟨n, hn⟩ := hs.mem_iff.1 (List.mem_append_left _ List.mem_cons_self)
    obtain ⟨t, ht, -⟩ := Option.bind_eq_some_iff.1 hn
    exact ⟨t, ht⟩
  have hst : t.table.Sound := hs.sound t (List.mem_of_getElem? ht)
  refine hs.retable ht (hst.release h.id) (fun g hg => ?_) (fun g hg => ?_)
  · have hc := hs.counts g
    have hu : s.uses g = t.table.uses g.id := by
      unfold uses
      rw [hg, ht]
      rfl
    rw [List.count_append, count_cons_handle] at hc
    rw [hst.uses_release, count_cons_handle]
    simp only [hg, true_and] at hc ⊢
    split at hc <;> simp_all
    omega
  · rw [count_cons_handle]
    simp [hg]

theorem exists_tree (hs : s.Counted held) (hh : h ∈ held) : ∃ t, s.trees[h.tree]? = some t := by
  obtain ⟨n, hn⟩ := hs.mem_iff.1 (List.mem_append_left _ hh)
  obtain ⟨t, ht, -⟩ := Option.bind_eq_some_iff.1 hn
  exact ⟨t, ht⟩

theorem later_drop (hs : s.Counted (h :: held)) : s.Later (s.drop h) := by
  obtain ⟨t, ht⟩ := exists_tree hs List.mem_cons_self
  have hst : t.table.Sound := hs.sound t (List.mem_of_getElem? ht)
  refine later_retable ht (Nat.le_of_eq ?_) fun id _ => hst.get?_release h.id id
  exact (NodeTable.next_release h.id).symm

theorem run_release (hs : s.Counted (h :: held)) (ha : s.Anchored held h.tree) :
    (Live.release h).run s = ((), s.drop h) := by
  have hd : (s.drop h).Counted held := hs.drop
  have had := ha.later (later_drop hs)
  obtain ⟨t, ht⟩ := had.exists_tree hd
  have hk : (t.holders == 0 && t.table.isEmpty) = false := by
    rcases had.kept hd ht with hh | he
    · simp [Nat.ne_of_gt hh]
    · simp [he]
  have hr : (s.drop h).reclaim h.tree = ([], s.drop h) := by
    unfold reclaim
    rw [ht]
    simp [hk]
  change ((), discard (1 + s.sourceCount) [h] s) = _
  rw [Nat.add_comm]
  change ((), discard s.sourceCount (((s.drop h).reclaim h.tree).1 ++ [])
    ((s.drop h).reclaim h.tree).2) = _
  rw [hr]
  cases s.sourceCount <;> rfl

theorem Balanced.release (hs : s.Balanced (h :: held)) (ha : s.Anchored held h.tree) :
    let s' := ((Live.release h).run s).2
    s'.Balanced held ∧ s.Later s' := by
  rw [run_release hs.toCounted ha]
  have hd : (s.drop h).Counted held := hs.drop
  have hl := later_drop hs.toCounted
  refine ⟨⟨hd, ?_⟩, hl⟩
  intro u hu
  obtain ⟨j, hj⟩ := List.mem_iff_getElem?.1 hu
  by_cases hjt : h.tree = j
  · subst hjt
    exact .inr ((ha.later hl).kept hd hj)
  · rw [trees_drop_of_ne (Ne.symm hjt)] at hj
    exact hs.kept u (List.mem_of_getElem? hj)

end Store

end AttributeTrees
