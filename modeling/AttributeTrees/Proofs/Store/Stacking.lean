import AttributeTrees.Proofs.Store.Reclaim
import AttributeTrees.Proofs.Store.Sights
import Mathlib.Logic.Relation
/-!
# Trees opened and sources stacked

A tree that is opened changes no other, and a source that is stacked changes none but the overlay
that gets it and those above. What is not changed answers as before, and where an overlay has noted
nothing it lists what its layers have.
-/
namespace AttributeTrees.Store

variable {s s' : Store} {held : List Handle} {tree o : Nat} {h : Handle} {sources : List Handle}
  {listings : List (Path × List String)} {S S' : Sight} {rank : Nat → Nat} {b : Body}

def Atop (s : Store) (o tree : Nat) : Prop :=
  ∃ b, s.body? o = some b ∧ ∃ h ∈ b.sources, h.tree = tree

abbrev Above (s : Store) : Nat → Nat → Prop := Relation.TransGen s.Atop

def Knows (s : Store) (o : Nat) (p : Path) : Prop :=
  ∃ sources listings, s.body? o = some (.overlay sources listings) ∧ listings.lookup p ≠ none

/-- What is not stale is what the layers have. -/
def Fresh (stale : Nat → Path → Prop) (S : Sight) (s : Store) : Prop :=
  ∀ {tree sources listings}, s.body? tree = some (.overlay sources listings) → ∀ p,
    ¬ stale tree p → S.names tree p = Layer.merged S.access (s.layers sources) p

theorem exists_body (hh : h ∈ s.stacked) : ∃ tree b, s.body? tree = some b ∧ h ∈ b.sources := by
  obtain ⟨t, ht, hh⟩ := List.mem_flatMap.1 hh
  obtain ⟨tree, htree⟩ := List.mem_iff_getElem?.1 ht
  exact ⟨tree, t.body, by rw [body?, htree]; rfl, hh⟩

theorem grounded_of (height : Nat → Nat) (hh : ∀ {tree b}, s.body? tree = some b →
    ∀ h ∈ b.sources, height h.tree < height tree) : Grounded s :=
  ⟨height, fun tree t ht => hh (by rw [body?, ht]; rfl)⟩

theorem above_mono (hatop : ∀ i j, s.Atop i j → s'.Atop i j) (h : s.Above o tree) :
    s'.Above o tree :=
  Relation.TransGen.mono hatop o tree h

theorem fresh_of_shared {common : Nat → Prop} {stale stale' : Nat → Path → Prop}
    (hr : Ranked rank s) (hS : S.Shows s) (hS' : S'.Shows s') (hf : Fresh stale S s)
    (hc : Shared s s' common)
    (hknows : ∀ {o p}, s'.Knows o p → ¬ stale' o p → common o ∧ ¬ stale o p) :
    Fresh stale' S' s' := by
  intro tree sources listings hb p hp
  have hnames := hS'.names hb p
  cases hlookup : listings.lookup p with
  | none =>
    rw [hnames, hlookup]
    rfl
  | some names =>
    obtain ⟨hcommon, hnew⟩ := hknows ⟨sources, listings, hb, by simp [hlookup]⟩ hp
    have hb₀ : s.body? tree = some (.overlay sources listings) := (hc.body hcommon).symm.trans hb
    have hold := hf hb₀ p hnew
    rw [hS.names hb₀, hlookup, Option.getD_some] at hold
    have hlayers : s'.layers sources = s.layers sources := hc.layers hcommon hb₀
    rw [hnames, hlookup, Option.getD_some, hold, hlayers]
    apply Layer.merged_congr
    intro l hl
    obtain ⟨g, hg, htree, -⟩ := mem_layers hl
    rw [htree, hc.access_eq hr hS hS' (hc.below hcommon hb₀ g hg)]

theorem body?_addTree (s : Store) (b : Body) (j : Nat) :
    ((Live.addTree b).run s).2.body? j = if j = s.trees.length then some b else s.body? j := by
  unfold body?
  rw [getElem?_addTree]
  split <;> rfl

theorem node?_addTree (s : Store) (b : Body) (h : Handle) :
    ((Live.addTree b).run s).2.node? h = s.node? h := by
  unfold node?
  rw [getElem?_addTree]
  split
  · next hj => simp [hj]
  · rfl

theorem exists_lt (hs : s.Counted held) (hb : s.body? tree = some b) (hh : h ∈ b.sources) :
    h.tree < s.trees.length := by
  obtain ⟨n, hn⟩ := exists_layer hs (mem_stacked hb hh)
  obtain ⟨t, ht, -⟩ := Option.bind_eq_some_iff.1 hn
  exact (List.getElem?_eq_some_iff.1 ht).1

theorem layers_congr (hn : ∀ h, s'.node? h = s.node? h) (sources : List Handle) :
    s'.layers sources = s.layers sources := by
  simp only [layers, hn]

theorem shared_addTree (hs : s.Counted held) (b : Body) :
    Shared s ((Live.addTree b).run s).2 (· ≠ s.trees.length) where
  disk := rfl
  body htree := by rw [body?_addTree, if_neg htree]
  layers _ _ := layers_congr (node?_addTree s b) _
  below _ hb _ hh := Nat.ne_of_lt (exists_lt hs hb hh)

theorem grounded_addTree (hr : Ranked rank s) (hb : b.sources = []) :
    Grounded ((Live.addTree b).run s).2 := by
  apply grounded_of rank
  intro tree b' hb' h hh
  rw [body?_addTree] at hb'
  split at hb'
  · cases hb'
    rw [hb] at hh
    cases hh
  · exact hr.below hb' h hh

theorem run_addSource (s : Store) (tree : Nat) (h : Handle) :
    ((Live.addSource tree h).run s).2 =
      s.modifyTree tree fun t => { t with body := t.body.stack h } := rfl

theorem body?_addSource (hb : s.body? tree = some (.overlay sources listings)) (h : Handle)
    (j : Nat) : ((Live.addSource tree h).run s).2.body? j =
      if j = tree then some (.overlay (h :: sources) []) else s.body? j := by
  obtain ⟨t, ht, htb⟩ := Option.map_eq_some_iff.1 hb
  rw [run_addSource, body?, trees_modifyTree ht]
  split
  · rw [Option.map_some, htb]
    rfl
  · rfl

theorem node?_addSource (s : Store) (tree : Nat) (h g : Handle) :
    ((Live.addSource tree h).run s).2.node? g = s.node? g := by
  rw [run_addSource, node?, getElem?_modifyTree, Option.bind_map, node?]
  congr 1
  funext t
  simp only [Function.comp_apply]
  split <;> rfl

theorem exact_addSource (hb : s.body? tree = some (.overlay sources listings)) {n : Location}
    (hn : s.node? h = some n) (hx : n.Exact)
    (hold : ∀ {k m}, k ∈ s.stacked → s.node? k = some m → m.Exact) {k : Handle} {m : Location}
    (hk : k ∈ ((Live.addSource tree h).run s).2.stacked)
    (hm : ((Live.addSource tree h).run s).2.node? k = some m) : m.Exact := by
  rw [node?_addSource] at hm
  obtain ⟨j, b, hj, hkb⟩ := exists_body hk
  rw [body?_addSource hb] at hj
  split at hj
  · cases hj
    rcases List.mem_cons.1 hkb with rfl | hkb
    · cases hn.symm.trans hm
      exact hx
    · exact hold (mem_stacked hb hkb) hm
  · exact hold (mem_stacked hj hkb) hm

theorem Atop.addSource (hb : s.body? tree = some (.overlay sources listings)) (h : Handle)
    {i j : Nat} (hij : s.Atop i j) : ((Live.addSource tree h).run s).2.Atop i j := by
  obtain ⟨b, hi, g, hg, hgj⟩ := hij
  by_cases he : i = tree
  · subst he
    cases hb.symm.trans hi
    refine ⟨.overlay (h :: sources) [], ?_, g, List.mem_cons_of_mem h hg, hgj⟩
    rw [body?_addSource hb, if_pos rfl]
  · refine ⟨b, ?_, g, hg, hgj⟩
    rw [body?_addSource hb, if_neg he, hi]

theorem shared_addSource (hb : s.body? tree = some (.overlay sources listings)) (h : Handle) :
    Shared s ((Live.addSource tree h).run s).2 fun o => o ≠ tree ∧ ¬ s.Above o tree where
  disk := rfl
  body htree := by rw [body?_addSource hb, if_neg htree.1]
  layers _ _ := layers_congr (node?_addSource s tree h) _
  below {o b} ho hbo g hg := by
    have hatop : s.Atop o g.tree := ⟨b, hbo, g, hg, rfl⟩
    refine ⟨?_, fun habove => ho.2 (.head hatop habove)⟩
    rintro rfl
    exact ho.2 (.single hatop)

theorem grounded_addSource (hr : Ranked rank s)
    (hb : s.body? tree = some (.overlay sources listings)) (hne : h.tree ≠ tree)
    (habove : ¬ s.Above h.tree tree) : Grounded ((Live.addSource tree h).run s).2 := by
  classical
  let raised (o : Nat) : Prop := o = tree ∨ s.Above o tree
  apply grounded_of fun o => rank o + if raised o then rank h.tree + 1 else 0
  have hself : raised tree := .inl rfl
  have hsource : ¬ raised h.tree := by
    rintro (he | ha)
    · exact hne he
    · exact habove ha
  have hold {o b} (ho : s.body? o = some b) (g : Handle) (hg : g ∈ b.sources) :
      (rank g.tree + if raised g.tree then rank h.tree + 1 else 0) <
        rank o + if raised o then rank h.tree + 1 else 0 := by
    have hlt := hr.below ho g hg
    have hatop : s.Atop o g.tree := ⟨b, ho, g, hg, rfl⟩
    by_cases hg' : raised g.tree
    · have ho' : raised o := by
        rcases hg' with he | ha
        · exact .inr (.single (he ▸ hatop))
        · exact .inr (.head hatop ha)
      rw [if_pos hg', if_pos ho']
      omega
    · rw [if_neg hg']
      omega
  intro o b ho g hg
  rw [body?_addSource hb] at ho
  split at ho
  · next he =>
    cases ho
    subst he
    rcases List.mem_cons.1 hg with rfl | hg
    · rw [if_neg hsource, if_pos hself]
      omega
    · exact hold hb g hg
  · exact hold ho g hg

end AttributeTrees.Store
