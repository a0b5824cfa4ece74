import AttributeTrees.Proofs.Store.Balance
import Mathlib.Data.Finset.Max
/-!
# What the tables of a balanced store hold

The entries of the tables are the nodes that handles stand for, with the number of their handles.
So stores that are balanced with the same handles have the same entries, and tables without handles
are empty. An overlay that nobody holds is itself a source as long as it has sources; where overlays
are not stacked on themselves, that comes to an end.
-/
namespace AttributeTrees.Store

variable {s s' : Store} {held : List Handle} {tree : Nat}

def entries (s : Store) (tree : Nat) : List (NodeTable.Entry Location) :=
  ((s.trees[tree]?).map (·.table.entries)).getD []

/-- The tables hold the nodes of attributes, each once and with the number of its attributes. -/
structure Tallied (attributes : List Handle) (s : Store) : Prop where
  ids : ∀ tree, ((s.entries tree).map (·.id)).Nodup
  uses : ∀ tree, ∀ e ∈ s.entries tree, e.uses = attributes.count ⟨tree, e.id⟩ ∧ 0 < e.uses
  entry : ∀ h ∈ attributes, ∃ e ∈ s.entries h.tree, e.id = h.id ∧ s.node? h = some e.node
  nodes : ∀ g ∈ attributes, ∀ h ∈ attributes, g.tree = h.tree →
    (g.id = h.id ↔ ∃ m n, s.node? g = some m ∧ s.node? h = some n ∧ (m == n) = true)

theorem mem_entries (hs : ∀ t ∈ s.trees, t.table.Sound) {e : NodeTable.Entry Location} :
    e ∈ s.entries tree ↔
      s.node? ⟨tree, e.id⟩ = some e.node ∧ s.uses ⟨tree, e.id⟩ = e.uses ∧ 0 < e.uses := by
  unfold entries node? uses
  cases ht : s.trees[tree]? with
  | none => simp
  | some t =>
    have hst := hs t (List.mem_of_getElem? ht)
    change e ∈ t.table.entries ↔ t.table.get? e.id = some e.node ∧ t.table.uses e.id = e.uses ∧ _
    rw [hst.mem_iff]
    refine ⟨fun h => ⟨h.1, h.2, ?_⟩, fun h => ⟨h.1, h.2.1⟩⟩
    exact hst.used e (hst.mem_iff.2 h)

theorem tallied_of_counted (hs : s.Counted held) : Tallied (held ++ s.stacked) s where
  ids tree := by
    unfold entries
    cases ht : s.trees[tree]? with
    | none => exact .nil
    | some t => exact (hs.sound t (List.mem_of_getElem? ht)).ids
  uses tree e he := by
    obtain ⟨-, hu, hpos⟩ := (mem_entries hs.sound).1 he
    exact ⟨hu.symm.trans (hs.counts _), hpos⟩
  entry h hh := by
    obtain ⟨n, hn⟩ := hs.mem_iff.1 hh
    refine ⟨⟨h.id, s.uses h, n⟩, (mem_entries hs.sound).2 ⟨hn, rfl, ?_⟩, rfl, hn⟩
    exact (uses_pos_iff hs.sound).2 ⟨n, hn⟩
  nodes g hg h hh hgh := by
    obtain ⟨m, hm⟩ := hs.mem_iff.1 hg
    obtain ⟨n, hn⟩ := hs.mem_iff.1 hh
    obtain ⟨t, ht, hgt⟩ := Option.bind_eq_some_iff.1 hm
    have hht : t.table.get? h.id = some n := by
      rw [node?, ← hgh, ht] at hn
      exact hn
    rw [(hs.sound t (List.mem_of_getElem? ht)).id_eq_iff hgt hht, hm, hn]
    simp

theorem Counted.lt_nextId (hs : s.Counted held) {h : Handle} (hh : h ∈ held ++ s.stacked) :
    h.id < s.nextId h.tree := by
  obtain ⟨n, hn⟩ := hs.mem_iff.1 hh
  obtain ⟨t, ht, hg⟩ := Option.bind_eq_some_iff.1 hn
  obtain ⟨e, he, -⟩ := Option.map_eq_some_iff.1 hg
  obtain ⟨hm, hid⟩ := NodeTable.mem_of_find? he
  rw [nextId, ht, ← hid]
  exact (hs.sound t (List.mem_of_getElem? ht)).below e hm

theorem Counted.node?_follows {held' : List Handle} (hs : s.Counted held) (hs' : s'.Counted held')
    (hf : s.Follows s') {h : Handle} (hh : h ∈ held ++ s.stacked) (hh' : h ∈ held' ++ s'.stacked) :
    s'.node? h = s.node? h := by
  refine (hf.nodes h (hs.lt_nextId hh)).resolve_right fun hnone => ?_
  obtain ⟨n, hn⟩ := hs'.mem_iff.1 hh'
  simp [hn] at hnone

theorem perm_entries (hs : s.Counted held) (hs' : s'.Counted held) (hl : s.Later s')
    (tree : Nat) : (s'.entries tree).Perm (s.entries tree) := by
  have hmem (h : Handle) : h ∈ held ++ s'.stacked ↔ h ∈ held ++ s.stacked := by
    rw [hl.stacked]
  have huses (h : Handle) : s'.uses h = s.uses h := by
    rw [hs.counts, hs'.counts, hl.stacked]
  have hnodup := (tallied_of_counted hs).ids tree
  have hnodup' := (tallied_of_counted hs').ids tree
  refine (List.perm_ext_iff_of_nodup hnodup'.of_map hnodup.of_map).2 fun e => ?_
  rw [mem_entries hs.sound, mem_entries hs'.sound, huses]
  refine and_congr_left fun ⟨hu, hpos⟩ => ?_
  have hh : ⟨tree, e.id⟩ ∈ held ++ s.stacked :=
    hs.mem_iff.2 ((uses_pos_iff hs.sound).1 (hu ▸ hpos))
  rw [hs.node?_follows hs' hl.toFollows hh ((hmem _).2 hh)]

theorem entries_eq_nil (hs : s.Counted held) (h : held ++ s.stacked = []) (tree : Nat) :
    s.entries tree = [] := by
  refine List.eq_nil_iff_forall_not_mem.2 fun e he => ?_
  obtain ⟨hu, hpos⟩ := (tallied_of_counted hs).uses tree e he
  rw [h] at hu
  exact absurd hu (Nat.ne_of_gt hpos)

def Grounded (s : Store) : Prop :=
  ∃ height : Nat → Nat, ∀ tree t, s.trees[tree]? = some t →
    ∀ h ∈ t.body.sources, height h.tree < height tree

theorem Balanced.exists_above (hs : s.Balanced []) (hh : ∀ tree, s.holders tree = 0) {t : Tree}
    (ht : s.trees[tree]? = some t) (hsrc : t.body.sources ≠ []) :
    ∃ g ∈ s.stacked, g.tree = tree := by
  have hzero : t.holders = 0 := by simpa [holders, ht] using hh tree
  rcases hs.kept t (List.mem_of_getElem? ht) with hk | hk | hk
  · exact absurd hk hsrc
  · omega
  · obtain ⟨id, hid⟩ : ∃ id, t.table.uses id ≠ 0 := by
      by_contra hall
      rw [(hs.sound t (List.mem_of_getElem? ht)).isEmpty_iff.2 (by simpa using hall)] at hk
      cases hk
    have hu : s.uses ⟨tree, id⟩ = t.table.uses id := by simp [uses, ht]
    refine ⟨⟨tree, id⟩, List.count_pos_iff.1 ?_, rfl⟩
    have hc := hs.counts ⟨tree, id⟩
    rw [List.nil_append, hu] at hc
    omega

theorem Balanced.stacked_eq_nil (hs : s.Balanced []) (hh : ∀ tree, s.holders tree = 0)
    (hg : Grounded s) : s.stacked = [] := by
  obtain ⟨height, hheight⟩ := hg
  classical
  let overlays := (Finset.range s.trees.length).filter fun tree =>
    ∃ t, s.trees[tree]? = some t ∧ t.body.sources ≠ []
  have hmem {h : Handle} (h' : h ∈ s.stacked) :
      ∃ tree ∈ overlays, ∃ t, s.trees[tree]? = some t ∧ h ∈ t.body.sources := by
    obtain ⟨t, ht, hsrc⟩ := List.mem_flatMap.1 h'
    obtain ⟨tree, htree⟩ := List.mem_iff_getElem?.1 ht
    refine ⟨tree, Finset.mem_filter.2 ⟨?_, t, htree, List.ne_nil_of_mem hsrc⟩, t, htree, hsrc⟩
    exact Finset.mem_range.2 (List.getElem?_eq_some_iff.1 htree).1
  refine List.eq_nil_iff_forall_not_mem.2 fun h h' => ?_
  obtain ⟨tree, htree, -⟩ := hmem h'
  -- The highest overlay that has sources would have to be a source of a higher one.
  obtain ⟨top, htop, hmax⟩ := Finset.exists_max_image overlays height ⟨tree, htree⟩
  obtain ⟨-, t, ht, hsrc⟩ := Finset.mem_filter.1 htop
  obtain ⟨g, hgs, rfl⟩ := hs.exists_above hh ht hsrc
  obtain ⟨above, habove, u, hu, hgu⟩ := hmem hgs
  exact Nat.not_lt.2 (hmax above habove) (hheight above u hu g hgu)

end AttributeTrees.Store
