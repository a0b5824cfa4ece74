import AttributeTrees.Proofs.Store.Sight
/-!
# Overlays mirror their layers

An overlay asks its sources by handles that it takes and gives back, and notes the names that it
finds. What it answers depends on the nodes alone for which the sources stand. Main statement:
access to the trees of a store mirrors a sight of it.
-/
namespace AttributeTrees.Store

open Access (Tells Echoes Mirrors run_bind_of_run)

variable {α : Type} {S : Sight} {rank : Nat → Nat} {s s' : Store} {held : List Handle} {tree : Nat}
  {sources : List Handle} {listings : List (Path × List String)} {nodes : Nodes} {p : Path}

theorem tells_segments {σ : Type} (add : σ → String → σ) {h : Handle} {n : Location}
    (hm : ∀ held, Mirrors (Steady S rank held) (nodes h.tree) (S.access h.tree))
    (hs : Steady S rank held s) (hh : h ∈ held) (hn : s.node? h = some n) (hx : n.Exact) (st : σ) :
    Tells (Steady S rank held) s ((handles nodes).foldChildren h (fun i child st => do
      return add st (← (handles nodes).segment child i)) st)
      ((Layer.segments S.access ⟨h.tree, n⟩).foldl add st) := by
  let made (done : List (Nat × Location)) : σ :=
    (done.map fun c => (S.access h.tree).segment c.2 c.1).foldl add st
  let kept (_ : σ) : List Handle := []
  have hstep {done : List (Nat × Location)} {i m c found s} (_ : Location.Exact m)
      (hfound : found = made done) (hs : Steady S rank (kept found ++ c :: held) s)
      (hct : c.tree = h.tree) (hcn : s.node? c = some m) :
      ∃ found' s', (do
        return add found (← (handles nodes).segment c i) : Live σ).run s =
          (found', s') ∧ Steady S rank (kept found' ++ c :: held) s' ∧ s.Later s' ∧
            found' = made (done ++ [(i, m)]) := by
    obtain ⟨s', hrun, hs', hl⟩ := tells_segment hcn (hct ▸ hm _ s hs) i
    refine ⟨_, s', run_bind_of_run hrun _, hs', hl, ?_⟩
    simp only [made, List.map_append, List.foldl_append, hct] at hfound ⊢
    rw [← hfound]
    rfl
  have hstart : st = made [] := rfl
  obtain ⟨found, s', hrun, hs', hl, hfound⟩ :=
    (knowledge_steady S rank).foldChildren (P := fun done found _ => found = made done)
      (hs.shows.precise h.tree) hm (fun hP _ => hP) hstep hh hx hn hs hstart
  subst hfound
  exact ⟨s', hrun, hs', hl⟩

theorem tells_collectNames {found : List Handle}
    (hm : ∀ h ∈ found, ∀ held, Mirrors (Steady S rank held) (nodes h.tree) (S.access h.tree))
    (hx : ∀ l ∈ s.layers found, l.node.Exact)
    (htrees : ∀ h ∈ found, ∃ g ∈ s.stacked, g.tree = h.tree)
    (hs : Steady S rank (found ++ held) s) (names : List String) :
    Tells (Steady S rank held) s (collectNames nodes found names)
      (((s.layers found).flatMap (Layer.segments S.access)).foldl addName names) := by
  have hK := knowledge_steady S rank
  induction found generalizing s names with
  | nil => exact .pure hs names
  | cons h found ih =>
    obtain ⟨hmh, hm⟩ := List.forall_mem_cons.1 hm
    obtain ⟨⟨g, hg, hgh⟩, htrees⟩ := List.forall_mem_cons.1 htrees
    obtain ⟨n, hn⟩ := hs.balanced.mem_iff.1 (List.mem_append_left _ List.mem_cons_self)
    rw [layers_cons hn] at hx ⊢
    obtain ⟨hxn, hx⟩ := List.forall_mem_cons.1 hx
    obtain ⟨s₁, hrun₁, hs₁, hl₁⟩ := tells_segments addName hmh hs List.mem_cons_self hn hxn names
    -- The tree of the handle is that of a source, so nothing is reclaimed.
    have hanchored : s₁.Anchored (found ++ held) h.tree :=
      .inr ⟨g, List.mem_append_right _ (hl₁.stacked ▸ hg), hgh⟩
    obtain ⟨s₂, hrun₂, hs₂, hl₂⟩ := hK.release hs₁ hanchored
    have hl := hl₁.trans hl₂
    have hlayers : s₂.layers found = s.layers found := by
      apply layers_follows hs.balanced.toCounted hs₂.balanced.toCounted hl.toFollows
      · intro c hc
        exact List.mem_append_left _ (List.mem_cons_of_mem _ (List.mem_append_left _ hc))
      · intro c hc
        exact List.mem_append_left _ (List.mem_append_left _ hc)
    obtain ⟨s₃, hrun₃, hs₃, hl₃⟩ := ih hm (hlayers ▸ hx) (hl.stacked ▸ htrees) hs₂
      ((Layer.segments S.access ⟨h.tree, n⟩).foldl addName names)
    refine ⟨s₃, ?_, hs₃, hl.trans hl₃⟩
    rw [List.flatMap_cons, List.foldl_append, ← hlayers, ← hrun₃]
    exact (run_bind_of_run hrun₁ _).trans (run_bind_of_run hrun₂ _)

theorem body?_note {t : Tree} (ht : s.trees[tree]? = some t)
    (hb : t.body = .overlay sources listings) (names : List String) (j : Nat) :
    (s.modifyTree tree fun t => { t with body := t.body.note p names }).body? j =
      if j = tree then some (.overlay sources ((p, names) :: listings)) else s.body? j := by
  unfold body?
  rw [trees_modifyTree ht]
  split
  · simp [hb, Body.note]
  · rfl

theorem tells_note (hs : Steady S rank held s)
    (hb : s.body? tree = some (.overlay sources listings)) (p : Path) :
    Tells (Steady S rank held) s (modify fun s => s.modifyTree tree fun t =>
      { t with body := t.body.note p (S.names tree p) }) () := by
  obtain ⟨t, ht, htb⟩ := Option.map_eq_some_iff.1 hb
  obtain ⟨hb', hl, -⟩ := keeps_note tree p (S.names tree p) held s hs.balanced nofun nofun
  refine ⟨_, rfl, hs.later hl hb' fun {j srcs noted} hj q => ?_, hl⟩
  change (s.modifyTree tree _).body? j = _ at hj
  rw [body?_note ht htb] at hj
  split at hj
  · next he =>
    cases hj
    cases he
    rw [List.lookup_cons]
    split
    · next hq => rw [eq_of_beq hq]; rfl
    · exact hs.shows.names hb q
  · exact hs.shows.names hj q

theorem run_sources (hb : s.body? tree = some (.overlay sources listings)) :
    (Store.sources tree).run s = (sources, s) := by
  rw [Store.sources, StateT.run_bind, StateT.run_get, pure_bind, hb]
  rfl

section
variable (hm : ∀ h ∈ sources, ∀ held,
  Mirrors (Steady S rank held) (nodes h.tree) (S.access h.tree))
include hm

theorem tells_childNames (hs : Steady S rank held s)
    (hb : s.body? tree = some (.overlay sources listings)) (p : Path) :
    Tells (Steady S rank held) s (childNames nodes tree p) (S.names tree p) := by
  have hsub : sources ⊆ s.stacked := fun _ hh => mem_stacked hb hh
  have hnames := hs.shows.names hb p
  rw [childNames]
  apply Tells.get
  rw [hb, Option.map_some, Option.getD_some]
  dsimp only [Body.listings]
  cases hlookup : listings.lookup p with
  | some names =>
    rw [hlookup, Option.getD_some] at hnames
    rw [hnames]
    exact .pure hs names
  | none =>
    rw [hlookup, Option.getD_none] at hnames
    obtain ⟨found, s₁, hrun₁, hs₁, hl₁, htrees, hfound⟩ := run_allWith hm hs hsub p
    have hx : ∀ l ∈ s₁.layers found, l.node.Exact := by
      rw [hfound]
      intro l hl
      obtain ⟨l₀, hl₀, hreach⟩ := List.mem_filterMap.1 hl
      obtain ⟨h, hh, -, hn⟩ := mem_layers hl₀
      exact hs.shows.exact_reach (hs.exact (hsub hh) hn) hreach
    have htrees₁ : ∀ h ∈ found, ∃ g ∈ s₁.stacked, g.tree = h.tree := by
      intro h hh
      obtain ⟨g, hg, hgh⟩ := htrees h hh
      exact ⟨g, hl₁.stacked ▸ hsub hg, hgh⟩
    have hm₁ : ∀ h ∈ found, ∀ held,
        Mirrors (Steady S rank held) (nodes h.tree) (S.access h.tree) := by
      intro h hh
      obtain ⟨g, hg, hgh⟩ := htrees h hh
      exact hgh ▸ hm g hg
    obtain ⟨s₂, hrun₂, hs₂, hl₂⟩ := tells_collectNames hm₁ hx htrees₁ hs₁ []
    have hsame : ((s₁.layers found).flatMap (Layer.segments S.access)).foldl addName [] =
        S.names tree p := by
      rw [hfound, hnames]
      rfl
    rw [hsame] at hrun₂
    obtain ⟨noted, hb₂⟩ := (hl₁.trans hl₂).body?_overlay.2 ⟨_, hb⟩
    obtain ⟨s₃, hrun₃, hs₃, hl₃⟩ := tells_note hs₂ hb₂ p
    refine ⟨s₃, ?_, hs₃, (hl₁.trans hl₂).trans hl₃⟩
    refine (run_bind_of_run (run_sources hb) _).trans ?_
    refine (run_bind_of_run hrun₁ _).trans ?_
    exact (run_bind_of_run hrun₂ _).trans (run_bind_of_run hrun₃ _)

theorem tells_fromFirst (hs : Steady S rank held s)
    (hb : s.body? tree = some (.overlay sources listings)) (p : Path) (default : α)
    {f : Handle → Live α} {g : Access Id Location → Location → α}
    (hf : ∀ {h n held s}, Mirrors (Steady S rank held) (nodes h.tree) (S.access h.tree) →
      Steady S rank held s → s.node? h = some n →
        Tells (Steady S rank held) s (f h) (g (S.access h.tree) n)) :
    Tells (Steady S rank held) s (fromFirst nodes tree p default f)
      (Layer.topmost S.access (s.layers sources) p default g) := by
  have hsub : sources ⊆ s.stacked := fun _ hh => mem_stacked hb hh
  have hgives := gives_firstWith hm hs hsub p
  unfold Layer.topmost
  cases hhead : ((s.layers sources).filterMap (Layer.reach S.access p)).head? with
  | none =>
    rw [hhead] at hgives
    obtain ⟨s₁, hrun₁, hs₁, hl₁⟩ := hgives
    refine ⟨s₁, ?_, hs₁, hl₁⟩
    exact (run_bind_of_run (run_sources hb) _).trans (run_bind_of_run hrun₁ _)
  | some l =>
    rw [hhead] at hgives
    obtain ⟨c, s₁, hrun₁, hs₁, hl₁, hct, hcn⟩ := hgives
    obtain ⟨l₀, hl₀, htree⟩ := Layer.exists_layer (List.mem_of_head? hhead)
    obtain ⟨source, hsource, hst, -⟩ := mem_layers hl₀
    have hsc : source.tree = c.tree := by rw [hct, htree, hst]
    obtain ⟨s₂, hrun₂, hs₂, hl₂⟩ := hf (hsc ▸ hm source hsource (c :: held)) hs₁ hcn
    have hl := hl₁.trans hl₂
    have hanchored : s₂.Anchored held c.tree :=
      .inr ⟨source, List.mem_append_right _ (hl.stacked ▸ hsub hsource), hsc⟩
    obtain ⟨s₃, hrun₃, hs₃, hl₃⟩ := (knowledge_steady S rank).release hs₂ hanchored
    refine ⟨s₃, ?_, hs₃, hl.trans hl₃⟩
    refine (run_bind_of_run (run_sources hb) _).trans ((run_bind_of_run hrun₁ _).trans ?_)
    refine (run_bind_of_run hrun₂ _).trans ((run_bind_of_run hrun₃ _).trans ?_)
    rw [hct]
    rfl

theorem echoes_overlay (hs : Steady S rank held s)
    (hb : s.body? tree = some (.overlay sources listings)) :
    Echoes (Steady S rank held) s (overlay nodes tree)
      (Layer.stack S.access (s.layers sources) (S.names tree)) where
  name p := .pure hs p.last?
  preview p := tells_fromFirst hm hs hb p none fun hm hs hn => tells_ofNode hn ((hm _ hs).preview _)
  kind p :=
    tells_fromFirst hm hs hb p Kind.unknown fun hm hs hn => tells_ofNode hn ((hm _ hs).kind _)
  isImmutable p :=
    tells_fromFirst hm hs hb p false fun hm hs hn => tells_ofNode hn ((hm _ hs).isImmutable _)
  isLink p := tells_fromFirst hm hs hb p false fun hm hs hn => tells_ofNode hn ((hm _ hs).isLink _)
  isList _ := .pure hs false
  childCount p := (tells_childNames hm hs hb p).map List.length
  childAt p i := (tells_childNames hm hs hb p).map fun names => names[i]?.map p.push
  childNamed p name := (tells_childNames hm hs hb p).map fun names : List String =>
    (if names.contains name then some (p.push name) else none : Option Path)
  valueCount p :=
    tells_fromFirst hm hs hb p 0 fun hm hs hn => tells_ofNode hn ((hm _ hs).valueCount _)
  fetch p offset t slots :=
    tells_fromFirst hm hs hb p (0, slots) (g := fun a n => a.fetch n offset t slots)
      fun hm hs hn => tells_ofNode hn ((hm _ hs).fetch _ offset t slots)
  release _ := .pure hs ()

end

theorem echoes_nothing {K : Store → Prop} (hs : K s) (hb : s.body? tree = none) (height : Nat) :
    Echoes K s (nodesUpTo height tree) .nothing := by
  have hnothing : Echoes K s (.nothing : Access Live Location) .nothing :=
    Access.mirrors_lift .nothing s hs
  cases height with
  | zero => exact hnothing
  | succ height =>
    refine Echoes.choose ?_ hnothing
    rw [StateT.run_bind, StateT.run_get, pure_bind, hb]
    rfl

/-- Access up to a height mirrors the trees of lower rank. -/
theorem mirrors_nodesUpTo {height : Nat} (hr : rank tree < height) (held : List Handle) :
    Mirrors (Steady S rank held) (nodesUpTo height tree) (S.access tree) := by
  induction height generalizing tree held with
  | zero => omega
  | succ height ih =>
    intro s hs
    cases hb : s.body? tree with
    | none =>
      rw [hs.shows.nothing hb]
      exact echoes_nothing hs hb _
    | some b =>
      cases b with
      | own c =>
        rw [hs.shows.own hb]
        exact echoes_own hs hb height
      | overlay sources listings =>
        have hm (h : Handle) (hh : h ∈ sources) (held : List Handle) :
            Mirrors (Steady S rank held) (nodesUpTo height h.tree) (S.access h.tree) := by
          have hlt := hs.ranked.below hb h hh
          exact ih (by omega) held
        rw [hs.shows.overlay hb]
        refine Echoes.choose ?_ ((echoes_overlay hm hs hb).disguise hs .stacked Location.stacked?)
        rw [StateT.run_bind, StateT.run_get, pure_bind, hb]
        rfl

theorem mirrors_nodes (S : Sight) (rank : Nat → Nat) (tree : Nat) (held : List Handle) :
    Mirrors (Steady S rank held) (Live.nodes tree) (S.access tree) := by
  intro s hs
  apply echoes_nodes
  cases hb : s.body? tree with
  | none =>
    rw [hs.shows.nothing hb]
    exact echoes_nothing hs hb _
  | some b => exact mirrors_nodesUpTo (hs.ranked.low hb) held s hs

end AttributeTrees.Store
