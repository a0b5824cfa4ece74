import AttributeTrees.Proofs.Store.Overlays
/-!
# Sights of stores

Every balanced store in which no overlay is stacked on itself has a sight, and what two stores have
in common answers alike in both.
-/
namespace AttributeTrees.Store

variable {S S' : Sight} {rank : Nat → Nat} {s s' : Store} {held : List Handle} {tree : Nat}
  {sources : List Handle} {listings : List (Path × List String)}

theorem exists_ranked (hs : s.Counted held) (hg : Grounded s) : ∃ rank, Ranked rank s := by
  obtain ⟨height, hheight⟩ := hg
  let lower (tree : Nat) : Finset Nat :=
    (Finset.range s.trees.length).filter fun j => height j < height tree
  refine ⟨fun tree => (lower tree).card, fun {tree b} hb => ?_, fun {tree b} hb h hh => ?_⟩
  · obtain ⟨t, ht, -⟩ := Option.map_eq_some_iff.1 hb
    have htree : tree ∈ Finset.range s.trees.length :=
      Finset.mem_range.2 (List.getElem?_eq_some_iff.1 ht).1
    have hlt : lower tree ⊂ Finset.range s.trees.length :=
      Finset.filter_ssubset.2 ⟨tree, htree, Nat.lt_irrefl _⟩
    simpa using Finset.card_lt_card hlt
  · obtain ⟨t, ht, rfl⟩ := Option.map_eq_some_iff.1 hb
    have hlt := hheight tree t ht h hh
    obtain ⟨n, hn⟩ := exists_layer hs (mem_stacked hb hh)
    obtain ⟨u, hu, -⟩ := Option.bind_eq_some_iff.1 hn
    have hmem : h.tree ∈ lower tree :=
      Finset.mem_filter.2 ⟨Finset.mem_range.2 (List.getElem?_eq_some_iff.1 hu).1, hlt⟩
    have hsub : lower h.tree ⊆ lower tree := by
      intro j hj
      obtain ⟨hj, hjlt⟩ := Finset.mem_filter.1 hj
      exact Finset.mem_filter.2 ⟨hj, hjlt.trans hlt⟩
    apply Finset.card_lt_card
    refine Finset.ssubset_iff_subset_ne.2 ⟨hsub, fun he => ?_⟩
    rw [← he] at hmem
    exact Nat.lt_irrefl _ (Finset.mem_filter.1 hmem).2

def listed (s : Store) (view : Nat → Access Id Location) (tree : Nat) (p : Path) : List String :=
  match s.body? tree with
  | some (.overlay sources listings) =>
    (listings.lookup p).getD (Layer.merged view (s.layers sources) p)
  | _ => []

def answersUpTo (s : Store) : Nat → Nat → Access Id Location
  | 0, _ => .nothing
  | height + 1, tree =>
    match s.body? tree with
    | some (.own c) => c.access s.disk
    | some (.overlay sources _) =>
      (Layer.stack (answersUpTo s height) (s.layers sources)
        (s.listed (answersUpTo s height) tree)).disguise .stacked Location.stacked?
    | none => .nothing

theorem listed_congr {view view' : Nat → Access Id Location}
    (hv : ∀ b, s.body? tree = some b → ∀ h ∈ b.sources, view h.tree = view' h.tree) :
    s.listed view tree = s.listed view' tree := by
  funext p
  unfold listed
  cases hb : s.body? tree with
  | none => rfl
  | some b =>
    cases b with
    | own c => rfl
    | overlay sources listings =>
      simp only
      rw [Layer.merged_congr]
      intro l hl
      obtain ⟨h, hh, htree, -⟩ := mem_layers hl
      rw [htree]
      exact hv _ hb h hh

theorem answersUpTo_eq (hr : Ranked rank s) {height height' : Nat} (hh : rank tree < height)
    (hh' : rank tree < height') : s.answersUpTo height tree = s.answersUpTo height' tree := by
  induction height generalizing height' tree with
  | zero => omega
  | succ height ih =>
    obtain ⟨height', rfl⟩ := Nat.exists_eq_succ_of_ne_zero (Nat.ne_zero_of_lt hh')
    have hbelow (b : Body) (hb : s.body? tree = some b) (h : Handle) (hsrc : h ∈ b.sources) :
        s.answersUpTo height h.tree = s.answersUpTo height' h.tree := by
      have hlt := hr.below hb h hsrc
      apply ih
      · omega
      · omega
    rw [answersUpTo, answersUpTo, listed_congr hbelow]
    cases hb : s.body? tree with
    | none => rfl
    | some b =>
      cases b with
      | own c => rfl
      | overlay sources listings =>
        simp only
        rw [Layer.stack_congr]
        intro l hl
        obtain ⟨h, hsrc, htree, -⟩ := mem_layers hl
        rw [htree]
        exact hbelow _ hb h hsrc

def sight (s : Store) : Sight where
  access := s.answersUpTo s.trees.length
  names := s.listed (s.answersUpTo s.trees.length)

theorem shows_sight (hr : Ranked rank s) : s.sight.Shows s := by
  have hsucc {tree b} (hb : s.body? tree = some b) :
      s.answersUpTo s.trees.length tree = s.answersUpTo (s.trees.length + 1) tree :=
    answersUpTo_eq hr (hr.low hb) (Nat.lt_succ_of_lt (hr.low hb))
  refine ⟨fun {tree c} hb => ?_, fun {tree sources listings} hb => ?_,
    fun {tree sources listings} hb p => ?_, fun {tree} hb => ?_⟩
  · change s.answersUpTo s.trees.length tree = _
    rw [hsucc hb, answersUpTo, hb]
  · change s.answersUpTo s.trees.length tree = _
    rw [hsucc hb, answersUpTo, hb]
    rfl
  · change s.listed _ tree p = _
    rw [listed, hb]
    rfl
  · change s.answersUpTo s.trees.length tree = _
    cases s.trees.length with
    | zero => rfl
    | succ n => rw [answersUpTo, hb]

theorem exists_steady (hs : s.Balanced held) (hg : Grounded s)
    (hx : ∀ {h n}, h ∈ s.stacked → s.node? h = some n → n.Exact) :
    ∃ S rank, Steady S rank held s := by
  obtain ⟨rank, hr⟩ := exists_ranked hs.toCounted hg
  exact ⟨s.sight, rank, hs, hr, hx, shows_sight hr⟩

/-- Trees that are the same in two stores, with all that they are stacked on. -/
structure Shared (s s' : Store) (common : Nat → Prop) : Prop where
  disk : s'.disk = s.disk
  body : ∀ {tree}, common tree → s'.body? tree = s.body? tree
  layers : ∀ {tree b}, common tree → s.body? tree = some b →
    s'.layers b.sources = s.layers b.sources
  below : ∀ {tree b}, common tree → s.body? tree = some b → ∀ h ∈ b.sources, common h.tree

variable {common : Nat → Prop}

theorem Shared.access_eq (hc : Shared s s' common) (hr : Ranked rank s) (hS : S.Shows s)
    (hS' : S'.Shows s') (htree : common tree) : S'.access tree = S.access tree := by
  induction hrank : rank tree using Nat.strongRecOn generalizing tree with
  | ind r ih =>
    subst hrank
    have hbody := hc.body htree
    cases hb : s.body? tree with
    | none => rw [hS.nothing hb, hS'.nothing (hbody.trans hb)]
    | some b =>
      cases b with
      | own c => rw [hS.own hb, hS'.own (hbody.trans hb), hc.disk]
      | overlay sources listings =>
        have hlayers : s'.layers sources = s.layers sources := hc.layers htree hb
        have hv : ∀ l ∈ s.layers sources, S'.access l.tree = S.access l.tree := by
          intro l hl
          obtain ⟨h, hh, hlh, -⟩ := mem_layers hl
          rw [hlh]
          exact ih _ (hr.below hb h hh) (hc.below htree hb h hh) rfl
        have hnames : S'.names tree = S.names tree := by
          funext p
          rw [hS.names hb, hS'.names (hbody.trans hb), hlayers, Layer.merged_congr hv]
        rw [hS.overlay hb, hS'.overlay (hbody.trans hb), hlayers, hnames, Layer.stack_congr hv]

end AttributeTrees.Store
