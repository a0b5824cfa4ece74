import AttributeTrees.Proofs.Store.Trades
/-!
# The end of trees

The end of a use may be the end of a tree, and with an overlay end its uses of other trees' nodes,
which may end those trees too. All of it is settled at once: afterwards the store is balanced with
the handles that are left. The sources that overlays have bound how long it takes. Other changes of
a store that users make are here as well: another use of an id, a tree more, a holder more or less
and a source more.
-/
namespace AttributeTrees.Store

variable {s s' s'' : Store} {held rest : List Handle} {h : Handle} {tree : Nat} {t : Tree}

theorem sources_bare (b : Body) : b.bare.sources = [] := by
  cases b <;> rfl

/-- How a change leaves a store: balanced with some handles, and each tree with some holders. -/
structure Becomes (held : List Handle) (holders : Nat → Nat) (s s' : Store) : Prop where
  balanced : s'.Balanced held
  follows : s.Follows s'
  holders : s'.holders = holders

theorem reclaim_cases (s : Store) (tree : Nat) :
    (∃ t, s.trees[tree]? = some t ∧ s.reclaim tree =
      (t.body.sources, s.modifyTree tree fun t => { t with body := t.body.bare })) ∨
    s.reclaim tree = ([], s) ∧ ∀ t, s.trees[tree]? = some t → Kept t := by
  unfold reclaim
  cases ht : s.trees[tree]? with
  | none => exact .inr ⟨rfl, nofun⟩
  | some t =>
    dsimp only
    split
    · exact .inl ⟨t, rfl, rfl⟩
    · next hk =>
      refine .inr ⟨rfl, fun u hu => .inr ?_⟩
      cases hu
      simp only [Bool.and_eq_true, beq_iff_eq, not_and, Bool.not_eq_true] at hk
      exact (Nat.eq_zero_or_pos t.holders).elim (fun hz => .inr (hk hz)) .inl

theorem becomes_reclaim (hs : s.Counted held)
    (hk : ∀ j t, s.trees[j]? = some t → j ≠ tree → Kept t) :
    Becomes ((s.reclaim tree).1 ++ held) s.holders s (s.reclaim tree).2 ∧
      (s.reclaim tree).1.length + (s.reclaim tree).2.stacked.length = s.stacked.length := by
  rcases reclaim_cases s tree with ⟨t, ht, he⟩ | ⟨he, hself⟩
  · rw [he]
    have hbare := sources_bare t.body
    refine ⟨⟨⟨hs.modifyTree ht rfl ?_, fun u hu => ?_⟩, ?_, ?_⟩, ?_⟩
    · dsimp only
      rw [hbare, List.append_nil]
      exact List.perm_append_comm
    · obtain ⟨j, hj⟩ := List.mem_iff_getElem?.1 hu
      rw [trees_modifyTree ht] at hj
      split at hj
      · cases hj
        exact .inl hbare
      · next hne => exact hk j u hj hne
    · exact follows_modifyTree ht (Nat.le_refl _) fun _ _ => .inl rfl
    · funext j
      rw [holders_modifyTree ht]
      split
      · next hj => simp [holders, hj, ht]
      · rfl
    · obtain ⟨others, hp, hm⟩ :=
        stacked_modifyTree (f := fun t => { t with body := t.body.bare }) ht
      rw [hp.length_eq, hm.length_eq, hbare, List.nil_append, List.length_append]
  · rw [he]
    refine ⟨⟨⟨hs, fun t ht => ?_⟩, .refl s, rfl⟩, by simp⟩
    obtain ⟨j, hj⟩ := List.mem_iff_getElem?.1 ht
    by_cases htree : j = tree
    · exact hself t (htree ▸ hj)
    · exact hk j t hj htree

theorem sourceCount_eq (s : Store) : s.sourceCount = s.stacked.length := by
  rw [sourceCount, stacked, List.length_flatMap, List.sum_eq_foldr]

theorem becomes_discard (fuel : Nat) {ending : List Handle} (hs : s.Balanced (ending ++ held))
    (hf : ending.length + s.stacked.length ≤ fuel) :
    Becomes held s.holders s (discard fuel ending s) := by
  induction fuel generalizing ending s with
  | zero =>
    have he : ending = [] := List.eq_nil_of_length_eq_zero (by omega)
    subst he
    exact ⟨hs, .refl s, rfl⟩
  | succ fuel ih =>
    cases ending with
    | nil => exact ⟨hs, .refl s, rfl⟩
    | cons h rest =>
      have hl : s.Later (s.drop h) := later_drop hs.toCounted
      have hk (j : Nat) (t : Tree) (hj : (s.drop h).trees[j]? = some t) (hne : j ≠ h.tree) :
          Kept t := by
        rw [trees_drop_of_ne hne] at hj
        exact hs.kept t (List.mem_of_getElem? hj)
      obtain ⟨hr, hlen⟩ := becomes_reclaim hs.toCounted.drop hk
      rw [List.append_eq, ← List.append_assoc] at hr
      have hd := ih hr.balanced (by
        rw [hl.stacked] at hlen
        simp only [List.length_cons, List.length_append] at hf ⊢
        omega)
      exact ⟨hd.balanced, (hl.toFollows.trans hr.follows).trans hd.follows,
        (hd.holders.trans hr.holders).trans (funext hl.holders)⟩

theorem becomes_discardAll {ending : List Handle} (hs : s.Balanced (ending ++ held)) :
    Becomes held s.holders s (s.discardAll ending) :=
  becomes_discard _ hs (Nat.le_of_eq (congrArg _ (sourceCount_eq s).symm))

theorem becomes_release (hs : s.Balanced (h :: held)) :
    Becomes held s.holders s ((Live.release h).run s).2 :=
  becomes_discardAll (show s.Balanced ([h] ++ held) from hs)

theorem getElem?_addTree (s : Store) (b : Body) (j : Nat) :
    ((Live.addTree b).run s).2.trees[j]? =
      if j = s.trees.length then some ⟨b, .empty, 1⟩ else s.trees[j]? := by
  change (s.trees ++ [(⟨b, .empty, 1⟩ : Tree)])[j]? = _
  rcases Nat.lt_trichotomy j s.trees.length with hj | rfl | hj
  · rw [List.getElem?_append_left hj, if_neg (Nat.ne_of_lt hj)]
  · simp
  · rw [if_neg (Nat.ne_of_gt hj), List.getElem?_eq_none (Nat.le_of_lt hj),
      List.getElem?_eq_none (by rwa [List.length_append])]

theorem becomes_addTree {b : Body} (hb : b.sources = []) (hs : s.Balanced held) :
    Becomes held (fun j => s.holders j + if s.trees.length = j then 1 else 0) s
      ((Live.addTree b).run s).2 := by
  have ht := getElem?_addTree s b
  have hst : ((Live.addTree b).run s).2.stacked = s.stacked := by
    change (s.trees ++ [_]).flatMap _ = _
    simp [stacked, hb]
  refine ⟨⟨⟨?_, fun h => ?_⟩, ?_⟩, ⟨rfl, fun j => ?_, fun h hid => ?_⟩, funext fun j => ?_⟩
  · exact List.forall_mem_append.2 ⟨hs.sound, List.forall_mem_singleton.2 NodeTable.sound_empty⟩
  · rw [hst, ← hs.counts, uses, uses, ht]
    split
    · next hh => simp [hh]
    · rfl
  · exact List.forall_mem_append.2 ⟨hs.kept, List.forall_mem_singleton.2 (.inl hb)⟩
  · rw [nextId, nextId, ht]
    split
    · next hj => simp [hj]
    · exact Nat.le_refl _
  · rw [node?, node?, ht]
    split
    · next hh => simp [hh]
    · exact .inl rfl
  · rw [holders, holders, ht]
    split
    · next hj => simp [hj]
    · next hj => simp [Ne.symm hj]

theorem becomes_hold (hs : s.Balanced held) (ht : s.trees[tree]? = some t) :
    Becomes held (fun j => s.holders j + if tree = j then 1 else 0) s
      ((Live.hold tree).run s).2 := by
  refine ⟨?_, ?_, ?_⟩
  · exact hs.modifyTree ht rfl (.refl _) (.inr (.inl (Nat.succ_pos t.holders)))
  · exact follows_modifyTree ht (Nat.le_refl _) fun _ _ => .inl rfl
  · funext j
    refine (holders_modifyTree ht j).trans ?_
    split
    · next hj => simp [holders, hj, ht]
    · next hj => simp [Ne.symm hj]

theorem becomes_letGo (hs : s.Balanced held) (ht : s.trees[tree]? = some t) :
    Becomes held (fun j => s.holders j - if tree = j then 1 else 0) s
      ((Live.letGo tree).run s).2 := by
  let s₁ := s.modifyTree tree fun t => { t with holders := t.holders - 1 }
  have hc : s₁.Counted held := hs.toCounted.modifyTree ht rfl (.refl _)
  have hf : s.Follows s₁ := follows_modifyTree ht (Nat.le_refl _) fun _ _ => .inl rfl
  have hh (j : Nat) : s₁.holders j = s.holders j - if tree = j then 1 else 0 := by
    refine (holders_modifyTree ht j).trans ?_
    split
    · next hj => simp [holders, hj, ht]
    · next hj => simp [Ne.symm hj]
  have hk (j : Nat) (u : Tree) (hj : s₁.trees[j]? = some u) (hne : j ≠ tree) : Kept u := by
    rw [trees_modifyTree ht, if_neg hne] at hj
    exact hs.kept u (List.mem_of_getElem? hj)
  obtain ⟨hr, -⟩ := becomes_reclaim hc hk
  have hd := becomes_discardAll hr.balanced
  exact ⟨hd.balanced, (hf.trans hr.follows).trans hd.follows,
    (hd.holders.trans hr.holders).trans (funext hh)⟩

theorem becomes_addSource {sources : List Handle} {listings : List (Path × List String)}
    (hs : s.Balanced (h :: held)) (ht : s.trees[tree]? = some t)
    (hb : t.body = .overlay sources listings) (hh : 0 < t.holders) :
    Becomes held s.holders s ((Live.addSource tree h).run s).2 := by
  refine ⟨?_, ?_, ?_⟩
  · refine hs.modifyTree ht rfl ?_ (.inr (.inl hh))
    rw [hb]
    exact List.perm_middle
  · exact follows_modifyTree ht (Nat.le_refl _) fun _ _ => .inl rfl
  · funext j
    refine (holders_modifyTree ht j).trans ?_
    split
    · next hj => simp [holders, hj, ht]
    · rfl

end AttributeTrees.Store
