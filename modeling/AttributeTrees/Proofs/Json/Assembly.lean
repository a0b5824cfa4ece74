import AttributeTrees.Proofs.Json.Overwriting
/-!
# Assembling what was taken apart

A value taken apart into the events of a tree is put together again. Its names do not repeat, so no
member finds another in its place, and what the tree makes of a document is the value.
Main statement: the document in the end is the value, whatever there was before.
-/
namespace AttributeTrees.Json

open Build (Placing)
open Visit (Tree Visitor)

namespace Value

theorem overlayMembers_eq_append {members : List (String × Tree)}
    (h : ∀ m ∈ members, overlay m.2 null = ofTree m.2) (before : List (String × Value))
    (hn : ((before ++ ofMembers members).map (·.1)).Nodup) :
    overlayMembers members before = before ++ ofMembers members := by
  induction members generalizing before with
  | nil => rw [overlayMembers, ofMembers, List.append_nil]
  | cons m members ih =>
    obtain ⟨name, t⟩ := m
    obtain ⟨ht, hts⟩ := List.forall_mem_cons.1 h
    have hfresh : name ∉ before.map (·.1) := by
      intro hmem
      rw [List.map_append] at hn
      exact (List.nodup_append.1 hn).2.2 name hmem name List.mem_cons_self rfl
    have hput : Members.put name (overlay t ((before.lookup name).getD null)) before =
        before ++ [(name, ofTree t)] := by
      rw [Members.lookup_eq_none_iff.2 hfresh, Option.getD_none, ht,
        Members.put_of_not_mem hfresh]
    rw [ofMembers, List.append_cons] at hn ⊢
    rw [overlayMembers, hput, ih hts _ hn]

theorem overlay_null {t : Tree} (ht : t.Single) (hv : (ofTree t).Proper) :
    overlay t null = ofTree t := by
  induction t with
  | leaf run =>
    cases ht with
    | leaf hl => exact overlay_leaf hl (not_merges_null _)
  | struct members ih =>
    cases ht with
    | struct hs =>
      cases hv with
      | object hn hv =>
        have hm : ∀ m ∈ members, overlay m.2 null = ofTree m.2 := by
          intro m hm
          refine ih m hm (hs m hm) (hv (m.1, ofTree m.2) ?_)
          rw [ofMembers_eq_map]
          exact List.mem_map_of_mem hm
        exact congrArg object (overlayMembers_eq_append hm [] hn)
  | list items ih =>
    cases ht with
    | list hs =>
      cases hv with
      | array _ hv =>
        have hi : ∀ t ∈ items, overlay t null = ofTree t := by
          intro t ht
          refine ih t ht (hs t ht) (hv (ofTree t) ?_)
          rw [ofItems_eq_map]
          exact List.mem_map_of_mem ht
        rw [overlay, ofTree, overlayItems_eq_map, ofItems_eq_map, List.map_congr_left hi]

end Value

namespace Assembly

open Value (ofTree)
open Build.Placing (visitor)

theorem fits_of_proper {t : Tree} (hv : (ofTree t).Proper) : Fits t := by
  induction t with
  | leaf run => exact .leaf run
  | struct members ih =>
    cases hv with
    | object _ hv =>
      refine .struct fun m hm => ih m hm (hv (m.1, ofTree m.2) ?_)
      rw [Value.ofMembers_eq_map]
      exact List.mem_map_of_mem hm
  | list items ih =>
    cases hv with
    | array hl hv =>
      rw [Value.ofItems_eq_map] at hl hv
      exact .list (by simpa using hl) fun t ht => ih t ht (hv (ofTree t) (List.mem_map_of_mem ht))

theorem builder_of_proper {t : Tree} (ht : t.Single) (hv : (ofTree t).Proper)
    (p : Placing (Assembly Value)) :
    ((visitor (builder some)).receiveAll p (.start :: (t.events ++ [.finish]))).builder =
      { document := ofTree t, result := some (ofTree t) } := by
  rw [builder_of_events ht (fits_of_proper hv), Value.overlay_null ht hv]

/-- A value is assembled from the events of every tree that shows it, whatever was there before.
The events of each tree leave the path and the frames as they were but for the count of items. -/
theorem assembled {v : Value} (hv : v.Proper) :
    (∃ t : Tree, t.Single ∧ ofTree t = v) ∧
      (∀ t : Tree, t.Single → ofTree t = v → ∀ p : Placing (Assembly Value),
        let w := visitor (builder some)
        let q := w.receiveAll p (.start :: (t.events ++ [.finish]))
        w.verdict q = true ∧ q.builder.document = v ∧ q.builder.result = some v) ∧
      ∀ t : Tree, t.Single → ∀ {β : Type} (b : Build.Builder β) (p : Placing β),
        let q := (visitor b).receiveAll p t.events
        q.path = p.path ∧ q.frames = Placing.countItems 1 p.frames := by
  refine ⟨⟨v.toTree, Value.ofTree_toTree hv⟩, ?_, fun t ht β b p => Placing.keeps_tree ht p⟩
  rintro t ht rfl p w q
  have hq : q.builder = { document := ofTree t, result := some (ofTree t) } :=
    builder_of_proper ht hv p
  refine ⟨?_, by rw [hq], by rw [hq]⟩
  change (some q.builder.document).isSome = true
  rfl

theorem assembled_mixed_list :
    let v : Value := .object [("a", .array [.whole ⟨-1, by decide⟩, .array [], .object []]),
      ("b", .string "x")]
    let w := visitor (builder some)
    let q := w.receiveAll (Placing.onto empty) (.start :: (v.toTree.events ++ [.finish]))
    v.Proper ∧ v.toTree.Single ∧ ofTree v.toTree = v ∧ w.verdict q = true ∧
      q.builder.document = v ∧ q.builder.result = some v := by
  intro v w q
  have ha : (Value.array [.whole ⟨-1, by decide⟩, .array [], .object []]).Proper := by
    refine .array (by decide) ?_
    simp only [List.forall_mem_cons]
    exact ⟨.whole _, .array (Nat.zero_le _) nofun, .object .nil nofun, nofun⟩
  have hv : v.Proper := by
    refine .object (by decide) ?_
    simp only [List.forall_mem_cons]
    exact ⟨ha, .string "x", nofun⟩
  obtain ⟨hs, ht⟩ := Value.ofTree_toTree hv
  exact ⟨hv, hs, ht, (assembled hv).2.1 v.toTree hs ht (Placing.onto empty)⟩

end Assembly

end AttributeTrees.Json
