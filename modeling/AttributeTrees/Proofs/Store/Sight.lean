import AttributeTrees.Proofs.Access.Layers
import AttributeTrees.Proofs.Store.Walk
/-!
# How overlays answer

What the trees of a store answer is the same as long as users only ask: an overlay answers as its
layers do, and lists the children that it found when it was first asked at a path. Main statement:
access to the trees of a store mirrors these answers.
-/
namespace AttributeTrees.Store

open Access (Tells Echoes Mirrors run_bind_of_run)

variable {α : Type} {s s' : Store} {held held' : List Handle} {tree : Nat} {h : Handle}
  {sources : List Handle} {listings : List (Path × List String)} {p : Path}

def layers (s : Store) (sources : List Handle) : List Layer :=
  sources.filterMap fun h => (s.node? h).map (Layer.mk h.tree)

/-- How trees answer, and the names under which overlays list the children at a path. -/
structure Sight where
  access : Nat → Access Id Location
  names : Nat → Path → List String

structure Sight.Shows (S : Sight) (s : Store) : Prop where
  own : ∀ {tree c}, s.body? tree = some (.own c) → S.access tree = c.access s.disk
  overlay : ∀ {tree sources listings}, s.body? tree = some (.overlay sources listings) →
    S.access tree = (Layer.stack S.access (s.layers sources) (S.names tree)).disguise
      .stacked Location.stacked?
  names : ∀ {tree sources listings}, s.body? tree = some (.overlay sources listings) → ∀ p,
    S.names tree p = (listings.lookup p).getD (Layer.merged S.access (s.layers sources) p)
  nothing : ∀ {tree}, s.body? tree = none → S.access tree = .nothing

/-- Overlays are stacked on trees of lower rank, and no rank is higher than there are trees. -/
structure Ranked (rank : Nat → Nat) (s : Store) : Prop where
  low : ∀ {tree b}, s.body? tree = some b → rank tree < s.trees.length
  below : ∀ {tree b}, s.body? tree = some b → ∀ h ∈ b.sources, rank h.tree < rank tree

structure Steady (S : Sight) (rank : Nat → Nat) (held : List Handle) (s : Store) : Prop where
  balanced : s.Balanced held
  ranked : Ranked rank s
  exact : ∀ {h n}, h ∈ s.stacked → s.node? h = some n → n.Exact
  shows : S.Shows s

theorem mem_stacked {b : Body} (hb : s.body? tree = some b) (hh : h ∈ b.sources) :
    h ∈ s.stacked := by
  obtain ⟨t, ht, rfl⟩ := Option.map_eq_some_iff.1 hb
  exact List.mem_flatMap.2 ⟨t, List.mem_of_getElem? ht, hh⟩

theorem exists_layer (hs : s.Counted held) (hh : h ∈ s.stacked) : ∃ n, s.node? h = some n :=
  hs.mem_iff.1 (List.mem_append_right _ hh)

theorem layers_cons {n : Location} (hn : s.node? h = some n) (rest : List Handle) :
    s.layers (h :: rest) = ⟨h.tree, n⟩ :: s.layers rest := by
  simp [layers, hn]

theorem mem_layers {l : Layer} (hl : l ∈ s.layers sources) :
    ∃ h ∈ sources, l.tree = h.tree ∧ s.node? h = some l.node := by
  obtain ⟨h, hh, hl⟩ := List.mem_filterMap.1 hl
  obtain ⟨n, hn, rfl⟩ := Option.map_eq_some_iff.1 hl
  exact ⟨h, hh, rfl, hn⟩

theorem layers_follows (hs : s.Counted held) (hs' : s'.Counted held') (hf : s.Follows s')
    {found : List Handle} (hsub : found ⊆ held ++ s.stacked) (hsub' : found ⊆ held' ++ s'.stacked) :
    s'.layers found = s.layers found := by
  apply List.filterMap_congr
  intro h hh
  rw [hs.node?_follows hs' hf (hsub hh) (hsub' hh)]

theorem layers_later (hs : s.Counted held) (hs' : s'.Counted held') (hl : s.Later s')
    (hsub : sources ⊆ s.stacked) : s'.layers sources = s.layers sources := by
  have hsub' : sources ⊆ s'.stacked := hl.stacked ▸ hsub
  exact layers_follows hs hs' hl.toFollows (List.subset_append_of_subset_right _ hsub)
    (List.subset_append_of_subset_right _ hsub')

theorem unlisted_overlay {b : Body} :
    (∃ listings, b = .overlay sources listings) ↔ unlisted b = .overlay sources [] := by
  cases b with
  | own c => simp [unlisted]
  | overlay srcs listings => simp [unlisted]

theorem Later.body?_overlay (hl : s.Later s') :
    (∃ listings, s'.body? tree = some (.overlay sources listings)) ↔
      ∃ listings, s.body? tree = some (.overlay sources listings) := by
  have hmap (s : Store) : (∃ listings, s.body? tree = some (.overlay sources listings)) ↔
      (s.body? tree).map unlisted = some (.overlay sources []) := by
    cases s.body? tree with
    | none => simp
    | some b => simpa using unlisted_overlay
  rw [hmap, hmap, hl.map_body]

namespace Sight.Shows

variable {S : Sight}

theorem precise (h : S.Shows s) (tree : Nat) : (S.access tree).Precise := by
  cases hb : s.body? tree with
  | none =>
    rw [h.nothing hb]
    exact ⟨fun _ h => (nomatch h), fun _ h => (nomatch h)⟩
  | some b =>
    cases b with
    | own c =>
      rw [h.own hb]
      exact precise_access c s.disk
    | overlay sources listings =>
      rw [h.overlay hb]
      refine ⟨fun {n m i} _ hm => ?_, fun {n m name} _ hm => ?_⟩
      all_goals
        simp only [Access.disguise] at hm
        cases hp : n.stacked? with
        | none =>
          rw [hp] at hm
          cases hm
        | some q =>
          rw [hp] at hm
          obtain ⟨r, -, rfl⟩ := Option.map_eq_some_iff.1 hm
          rfl

theorem exact_reach (h : S.Shows s) {l m : Layer} (hl : l.node.Exact)
    (hm : l.reach S.access p = some m) : m.node.Exact := by
  obtain ⟨n, hn, rfl⟩ := Option.map_eq_some_iff.1 hm
  exact (h.precise l.tree).resolve hl hn

end Sight.Shows

variable {S : Sight} {rank : Nat → Nat}

theorem Ranked.later (hr : Ranked rank s) (hl : s.Later s') : Ranked rank s' := by
  refine ⟨fun h => ?_, fun h => ?_⟩
  · obtain ⟨b, hb, -⟩ := hl.exists_body h
    rw [hl.length]
    exact hr.low hb
  · obtain ⟨b, hb, hu⟩ := hl.exists_body h
    rw [← sources_unlisted, hu, sources_unlisted]
    exact hr.below hb

theorem Steady.later (hs : Steady S rank held s) (hl : s.Later s') (hb : s'.Balanced held')
    (hnames : ∀ {tree sources listings}, s'.body? tree = some (.overlay sources listings) → ∀ p,
      S.names tree p = (listings.lookup p).getD (Layer.merged S.access (s.layers sources) p)) :
    Steady S rank held' s' := by
  have hc := hs.balanced.toCounted
  have hlayers {tree : Nat} {sources : List Handle} {listings : List (Path × List String)}
      (h : s.body? tree = some (.overlay sources listings)) :
      s'.layers sources = s.layers sources :=
    layers_later hc hb.toCounted hl fun _ hh => mem_stacked h hh
  refine ⟨hb, hs.ranked.later hl, fun hg hn => ?_, fun h => ?_, fun h => ?_, fun h p => ?_,
    fun {tree} h => ?_⟩
  · have hg' := hl.stacked ▸ hg
    rw [hc.node?_follows hb.toCounted hl.toFollows (List.mem_append_right _ hg')
      (List.mem_append_right _ hg)] at hn
    exact hs.exact hg' hn
  · obtain ⟨b, hb, hu⟩ := hl.exists_body h
    cases b with
    | own c =>
      cases hu
      rw [hl.disk]
      exact hs.shows.own hb
    | overlay sources listings => cases hu
  · obtain ⟨noted, h'⟩ := hl.body?_overlay.1 ⟨_, h⟩
    rw [hlayers h']
    exact hs.shows.overlay h'
  · obtain ⟨noted, h'⟩ := hl.body?_overlay.1 ⟨_, h⟩
    rw [hlayers h']
    exact hnames h p
  · have hnone := hl.map_body tree
    rw [h] at hnone
    exact hs.shows.nothing (Option.map_eq_none_iff.1 hnone.symm)

theorem knowledge_steady (S : Sight) (rank : Nat → Nat) : Knowledge (Steady S rank) where
  balanced h := h.balanced
  kept h hl hbody hb := h.later hl hb fun hb' p => h.shows.names (hbody _ ▸ hb') p

def Gives (K : List Handle → Store → Prop) (held : List Handle) (s : Store)
    (x : Live (Option Handle)) : Option Layer → Prop
  | none => Tells (K held) s x none
  | some l => Hands K held s l.tree x (some l.node)

theorem Gives.after {K : List Handle → Store → Prop} {x y : Live (Option Handle)}
    {l? : Option Layer} (h : Gives K held s' y l?) (hrun : x.run s = y.run s') (hl : s.Later s') :
    Gives K held s x l? := by
  cases l? with
  | none =>
    obtain ⟨s₂, hrun₂, hs₂, hl₂⟩ := h
    exact ⟨s₂, hrun.trans hrun₂, hs₂, hl.trans hl₂⟩
  | some l =>
    obtain ⟨c, s₂, hrun₂, hs₂, hl₂, hc⟩ := h
    exact ⟨c, s₂, hrun.trans hrun₂, hs₂, hl.trans hl₂, hc⟩

section
variable {nodes : Nodes} (hm : ∀ h ∈ sources, ∀ held,
  Mirrors (Steady S rank held) (nodes h.tree) (S.access h.tree))
include hm

theorem gives_find (hs : Steady S rank held s) (hsub : sources ⊆ s.stacked) (hh : h ∈ sources)
    {n : Location} (hn : s.node? h = some n) (p : Path) :
    Gives (Steady S rank) held s (find nodes h p []) (Layer.reach S.access p ⟨h.tree, n⟩) := by
  have hhands := hands_find (knowledge_steady S rank) hs hn (hm h hh held) (hs.shows.precise h.tree)
    (hs.exact (hsub hh) hn) p []
  unfold Layer.reach
  generalize (S.access h.tree).resolve n p [] = found at hhands
  cases found with
  | none => exact hhands
  | some m => exact hhands

theorem gives_firstWith (hs : Steady S rank held s) (hsub : sources ⊆ s.stacked) (p : Path) :
    Gives (Steady S rank) held s (firstWith nodes p sources)
      ((s.layers sources).filterMap (Layer.reach S.access p)).head? := by
  induction sources generalizing s with
  | nil => exact Tells.pure hs none
  | cons source rest ih =>
    obtain ⟨hsource, hrest⟩ := List.cons_subset.1 hsub
    obtain ⟨n, hn⟩ := exists_layer hs.balanced.toCounted hsource
    have hgives := gives_find hm hs hsub List.mem_cons_self hn p
    rw [layers_cons hn, List.filterMap_cons]
    cases hl : Layer.reach S.access p ⟨source.tree, n⟩ with
    | none =>
      rw [hl] at hgives
      obtain ⟨s₁, hrun, hs₁, hl₁⟩ := hgives
      have hfirst := ih (fun h hh => hm h (List.mem_cons_of_mem _ hh)) hs₁ (hl₁.stacked ▸ hrest)
      rw [layers_later hs.balanced.toCounted hs₁.balanced.toCounted hl₁ hrest] at hfirst
      exact hfirst.after (run_bind_of_run hrun _) hl₁
    | some l =>
      rw [hl] at hgives
      obtain ⟨c, s₁, hrun, hs₁, hl₁, hc⟩ := hgives
      exact ⟨c, s₁, run_bind_of_run hrun _, hs₁, hl₁, hc⟩

theorem run_allWith (hs : Steady S rank held s) (hsub : sources ⊆ s.stacked) (p : Path) :
    ∃ found s', (allWith nodes p sources).run s = (found, s') ∧
      Steady S rank (found ++ held) s' ∧ s.Later s' ∧
      (∀ h ∈ found, ∃ g ∈ sources, g.tree = h.tree) ∧
      s'.layers found = (s.layers sources).filterMap (Layer.reach S.access p) := by
  induction sources generalizing s held with
  | nil => exact ⟨[], s, rfl, hs, .refl s, nofun, rfl⟩
  | cons source rest ih =>
    obtain ⟨hsource, hrest⟩ := List.cons_subset.1 hsub
    obtain ⟨n, hn⟩ := exists_layer hs.balanced.toCounted hsource
    have hK := knowledge_steady S rank
    have hgives := gives_find hm hs hsub List.mem_cons_self hn p
    have hm' := fun h hh => hm h (List.mem_cons_of_mem source hh)
    rw [layers_cons hn, List.filterMap_cons]
    cases hl : Layer.reach S.access p ⟨source.tree, n⟩ with
    | none =>
      rw [hl] at hgives
      obtain ⟨s₁, hrun, hs₁, hl₁⟩ := hgives
      obtain ⟨found, s₂, hrun₂, hs₂, hl₂, htrees, hall⟩ := ih hm' hs₁ (hl₁.stacked ▸ hrest)
      rw [layers_later hs.balanced.toCounted hs₁.balanced.toCounted hl₁ hrest] at hall
      refine ⟨found, s₂, ?_, hs₂, hl₁.trans hl₂, fun h hh => ?_, hall⟩
      · exact (run_bind_of_run hrun _).trans (run_bind_of_run hrun₂ _)
      · obtain ⟨g, hg, hgh⟩ := htrees h hh
        exact ⟨g, List.mem_cons_of_mem _ hg, hgh⟩
    | some l =>
      rw [hl] at hgives
      obtain ⟨c, s₁, hrun, hs₁, hl₁, hct, hcn⟩ := hgives
      obtain ⟨found, s₂, hrun₂, hs₂, hl₂, htrees, hall⟩ := ih hm' hs₁ (hl₁.stacked ▸ hrest)
      rw [layers_later hs.balanced.toCounted hs₁.balanced.toCounted hl₁ hrest] at hall
      have hcn₂ := hK.node? hs₁ hs₂ hl₂ hcn (List.mem_append_right _ List.mem_cons_self)
      refine ⟨c :: found, s₂, ?_, hK.perm hs₂ List.perm_middle, hl₁.trans hl₂, ?_, ?_⟩
      · exact (run_bind_of_run hrun _).trans (run_bind_of_run hrun₂ _)
      · rw [List.forall_mem_cons]
        have hsame : source.tree = c.tree := (hct.trans (Layer.tree_reach hl)).symm
        refine ⟨⟨source, List.mem_cons_self, hsame⟩, fun h hh => ?_⟩
        obtain ⟨g, hg, hgh⟩ := htrees h hh
        exact ⟨g, List.mem_cons_of_mem _ hg, hgh⟩
      · rw [layers_cons hcn₂, hall, hct]

end

end AttributeTrees.Store
