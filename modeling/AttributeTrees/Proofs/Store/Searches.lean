import AttributeTrees.Proofs.Store.Levels
import AttributeTrees.Proofs.Store.Session
/-!
# Searches for attributes

An attribute is searched for along a path by nodes, of which only the last is used, or by handles,
of which each step takes one and gives one back, or part of the way first and the rest from there.
Main statement: however a path is searched, the same attribute is found, or none.
-/
namespace AttributeTrees.Store

open Access (run_bind_of_run)

variable {s s' base : Store} {tree : Nat} {b : Body} {held : List Handle} {h : Handle}
  {n m : Location} {F : Names → Prop}

def resolve (h : Handle) (p : Path) (tags : List String) : Live (Option Handle) := do
  Live.access.resolve (← Live.again h) p tags

def chained (x : Live (Option Handle)) (y : Handle → Live (Option Handle)) :
    Live (Option Handle) := do
  match ← x with
  | some middle =>
    let found ← y middle
    Live.release middle
    return found
  | none => return none

/-- The ways to search for the attribute along a path with tags. -/
inductive Search : Handle → Path → List String → Live (Option Handle) → Prop
  | find (h : Handle) (p : Path) (tags : List String) : Search h p tags (Live.find h p tags)
  | resolve (h : Handle) (p : Path) (tags : List String) : Search h p tags (resolve h p tags)
  | chained {h : Handle} {p q : Path} {tags : List String} {x : Live (Option Handle)}
      {y : Handle → Live (Option Handle)} (hx : Search h p tags x)
      (hy : ∀ middle, Search middle q tags (y middle)) :
      Search h ⟨p.segments ++ q.segments⟩ tags (chained x y)
  | retag {h : Handle} {p : Path} {tags tags' : List String} {x : Live (Option Handle)}
      (hx : Search h p tags' x)
      (ht : Access.distinctTags tags' = Access.distinctTags tags) : Search h p tags x

theorem Recalls.again (hs : Recalls base tree F held s) (hn : s.node? h = some n) :
    ∃ s', (Live.again h).run s = (h, s') ∧ Recalls base tree F (h :: held) s' ∧ s.Later s' := by
  obtain ⟨hb, hl⟩ := hs.balanced.again (hs.balanced.mem_iff.2 ⟨n, hn⟩)
  obtain ⟨t, ht, -⟩ := Option.bind_eq_some_iff.1 hn
  rw [run_again] at hb hl
  exact ⟨_, run_again s h, (knowledge_recalls base tree F).kept hs hl (body?_retable ht _) hb, hl⟩

theorem Searchable.settled_resolve (ht : base.Searchable tree b)
    (hh : (Level.ofHandles tree).stands s h n) (names : Names) {p : Path} {tags : List String}
    (hm : (guide base.disk names b).resolve n p tags = some m) : Settled s tree m :=
  Access.follow_induction (guide base.disk names b)
    (fun _ hc => .inl (ht.exact_of_child names (.inl ⟨_, hc⟩)))
    (fun _ hc => .inl (ht.exact_of_child names (.inr ⟨_, hc⟩))) (.inr ⟨h, hh⟩) hm

theorem Searchable.finds_release (ht : base.Searchable tree b) {y : Live (Option Handle)}
    {g : Names → Option Location} (hy : (Level.ofHandles tree).Finds base tree F (h :: held) s y g)
    (htree : h.tree = tree) (ha : s.Anchored held tree) :
    (Level.ofHandles tree).Finds base tree F held s (do
      let found ← y
      Live.release h
      return found) g := by
  have hK := knowledge_recalls base tree
  cases hy with
  | nothing hrun hl hs =>
    obtain ⟨s', hrun', hs', hl'⟩ := (hK _).release hs (htree ▸ ha.later hl)
    refine .nothing ?_ (hl.trans hl') hs'
    rw [run_bind_of_run hrun, run_bind_of_run hrun']
    rfl
  | @node s₁ v n hrun hl hs hv =>
    have ha₁ := (ha.later hl).mono (List.subset_cons_self v held)
    obtain ⟨s', hrun', hs', hl'⟩ := (hK _).release (hs.perm List.perm_middle) (htree ▸ ha₁)
    have hv' := (guided_ofHandles ht).lasts hv hs.balanced hs'.balanced hl'
    refine .node ?_ (hl.trans hl') hs' hv'
    rw [run_bind_of_run hrun, run_bind_of_run hrun']
    rfl

theorem Search.finds {p : Path} {tags : List String} {x : Live (Option Handle)}
    (hx : Search h p tags x) (ht : base.Searchable tree b) (hs : Recalls base tree F held s)
    (hstands : (Level.ofHandles tree).stands s h n) :
    (Level.ofHandles tree).Finds base tree F held s x fun names =>
      (guide base.disk names b).resolve n p tags := by
  have hguided := guided_ofHandles ht
  have hanchored {h : Handle} {n : Location} {F : Names → Prop} {held : List Handle} {s : Store}
      (hs : Recalls base tree F held s) (hstands : (Level.ofHandles tree).stands s h n) :
      s.Anchored held tree := hstands.1 ▸ hs.balanced.toCounted.anchored hstands.2
  induction hx generalizing F held s n with
  | find h p tags =>
    have hfound := (guided_ofNodes ht).follow tags (v := n) hs rfl (hanchored hs hstands)
      p.segments
    refine Level.finds_ofNode hs hstands (hstands.1 ▸ hfound) fun names m hm => ?_
    exact ht.settled_resolve hstands names hm
  | resolve h p tags =>
    obtain ⟨s₁, hrun, hs₁, hl⟩ := hs.again hstands.2
    have hstands₁ := stands_later hs.balanced hs₁.balanced hl hstands (.head _)
    exact (hguided.follow tags hs₁ hstands₁ ((hanchored hs hstands).later hl) p.segments).after
      (run_bind_of_run hrun _) hl fun names hF => ⟨hF, rfl⟩
  | @chained h p q tags x y hx hy ihx ihy =>
    have happend (names : Names) : (guide base.disk names b).resolve n
        ⟨p.segments ++ q.segments⟩ tags = Option.bind ((guide base.disk names b).resolve n p tags)
          fun m => (guide base.disk names b).resolve m q tags :=
      (guide base.disk names b).follow_append tags n p.segments q.segments
    cases ihx hs hstands with
    | nothing hrun hl hs₁ =>
      refine (Level.finds_none hs₁ fun names ⟨_, hnone⟩ => ?_).after
        (run_bind_of_run hrun _) hl fun names hn => ⟨hn.1, rfl⟩
      rw [happend, hnone]
      rfl
    | @node s₁ middle m hrun hl hs₁ hmiddle =>
      have hend := ht.finds_release (ihy middle hs₁ hmiddle) hmiddle.1
        ((hanchored hs hstands).later hl)
      refine hend.after (run_bind_of_run hrun _) hl fun names ⟨hF, hm⟩ => ⟨hF, ?_⟩
      rw [happend, hm]
      rfl
  | retag hx htags ih =>
    refine (ih hs hstands).after rfl (.refl s) fun names hF => ⟨hF, ?_⟩
    exact ((guide base.disk names b).resolve_eq_of_tags htags n _).symm

def drop? : Option Handle → Live Unit
  | some h => Live.release h
  | none => return ()

def searchTwice (x y : Live (Option Handle)) : Live (Option Handle × Option Handle) := do
  let first ← x
  let second ← y
  drop? first
  drop? second
  return (first, second)

theorem run_searchTwice {x y : Live (Option Handle)} {g : Names → Option Location}
    (ha : s.Anchored held tree)
    (hx : (Level.ofHandles tree).Finds base tree F held s x g)
    (hy : ∀ {F taken s'}, Recalls base tree F (taken ++ held) s' → s.Later s' →
      (Level.ofHandles tree).Finds base tree F (taken ++ held) s' y g) :
    ∃ found s', (searchTwice x y).run s = ((found, found), s') ∧ s'.Balanced held ∧ s.Later s' := by
  have hK := knowledge_recalls base tree
  cases hx with
  | @nothing s₁ hrun₁ hl₁ hs₁ =>
    have hs₁' : Recalls base tree _ ([] ++ held) s₁ := hs₁
    cases hy hs₁' hl₁ with
    | @nothing s₂ hrun₂ hl₂ hs₂ =>
      refine ⟨none, s₂, ?_, hs₂.balanced, hl₁.trans hl₂⟩
      rw [searchTwice, run_bind_of_run hrun₁, run_bind_of_run hrun₂]
      rfl
    | @node s₂ _ _ _ _ hs₂ _ =>
      obtain ⟨⟨-, hnone⟩, hsome⟩ := hs₂.fact _ (agrees_listed s₂ tree)
      cases hnone.symm.trans hsome
  | @node s₁ c m hrun₁ hl₁ hs₁ hc =>
    cases hy hs₁ hl₁ with
    | @nothing s₂ _ _ hs₂ =>
      obtain ⟨⟨-, hsome⟩, hnone⟩ := hs₂.fact _ (agrees_listed s₂ tree)
      cases hnone.symm.trans hsome
    | @node s₂ c' m' hrun₂ hl₂ hs₂ hc' =>
      obtain ⟨⟨-, hm⟩, hm'⟩ := hs₂.fact _ (agrees_listed s₂ tree)
      cases hm.symm.trans hm'
      have hc₂ := stands_later hs₁.balanced hs₂.balanced hl₂ hc (.tail _ (.head _))
      cases eq_of_stands hs₂.balanced hc₂ hc' BEq.rfl
      have ha₂ := hc.1 ▸ ha.later (hl₁.trans hl₂)
      obtain ⟨s₃, hrun₃, hs₃, hl₃⟩ := (hK _).release hs₂ (ha₂.mono (List.subset_cons_self c held))
      obtain ⟨s₄, hrun₄, hs₄, hl₄⟩ := (hK _).release hs₃ (ha₂.later hl₃)
      refine ⟨some c, s₄, ?_, hs₄.balanced, ((hl₁.trans hl₂).trans hl₃).trans hl₄⟩
      rw [searchTwice, run_bind_of_run hrun₁, run_bind_of_run hrun₂, drop?,
        run_bind_of_run hrun₃, run_bind_of_run hrun₄]
      rfl

theorem not_above_of_grounded (hg : Grounded s) (tree : Nat) : ¬ s.Above tree tree := by
  obtain ⟨height, hheight⟩ := hg
  have hatop {i j : Nat} (h : s.Atop i j) : height j < height i := by
    obtain ⟨b, hb, h, hh, rfl⟩ := h
    obtain ⟨t, ht, rfl⟩ := Option.map_eq_some_iff.1 hb
    exact hheight _ t ht h hh
  have habove {i j : Nat} (h : s.Above i j) : height j < height i := by
    induction h with
    | single hij => exact hatop hij
    | tail _ hjk ih => exact (hatop hjk).trans ih
  exact fun h => Nat.lt_irrefl _ (habove h)

namespace Session

variable {σ : Session} {d : Disk}

/-- However a path is searched for from a live attribute, the same attribute is found, or none, and
when what was found is given back the tables are as they were. -/
theorem searches_agree (hσ : Reachable d σ) (hg : Grounded σ.store) (hh : h ∈ σ.live)
    (hb : σ.store.body? h.tree = some b) (hfiles : ∀ path, b ≠ .own (.files path))
    {p : Path} {tags : List String} {x y : Live (Option Handle)} (hx : Search h p tags x)
    (hy : Search h p tags y) :
    let r := (searchTwice x y).run σ.store
    r.1.1 = r.1.2 ∧ ∀ tree, (r.2.entries tree).Perm (σ.store.entries tree) := by
  have hs : σ.store.Balanced σ.attributes := hσ.sound.balanced
  have ht : σ.store.Searchable h.tree b := ⟨hb, hfiles, not_above_of_grounded hg h.tree⟩
  obtain ⟨n, hn⟩ := hs.mem_iff.1 hh
  have hstands : (Level.ofHandles h.tree).stands σ.store h n := ⟨rfl, hn⟩
  have hrecalls : Recalls σ.store h.tree (fun _ => True) σ.attributes σ.store :=
    ⟨hs, .refl _, fun _ _ => trivial⟩
  obtain ⟨found, s', hrun, hs', hl⟩ := run_searchTwice (hs.toCounted.anchored hn)
    (hx.finds ht hrecalls hstands) fun {F taken s'} hs₁ hl => by
      refine hy.finds ht hs₁ (stands_later hs hs₁.balanced hl hstands ?_)
      rw [hl.stacked, List.append_assoc]
      exact List.mem_append_right _ hh
  rw [hrun]
  exact ⟨rfl, perm_entries hs.toCounted hs'.toCounted hl⟩

def layered : Session :=
  let inner : Json.Value := .object [("b", .null), ("b@x", .null)]
  let σ := (start .empty).openTree (.own (.json (.object [("a", inner)])))
  let σ := (σ.openTree (.overlay [] [])).after (Live.root 0) fun h => [h]
  (σ.stack 1 ⟨0, 0⟩).after (Live.root 1) fun h => [h]

theorem reachable_layered : Reachable .empty layered := by
  have hroot (tree : Nat) {σ : Session} (h : tree ∈ σ.compounds) :
      Step σ (σ.after (Live.root tree) fun h => [h]) := by
    refine .client ((Client.root tree).lend (List.cons_subset.2 ⟨?_, List.nil_subset _⟩))
    exact List.mem_append_right _ (List.mem_map_of_mem h)
  refine .step (.step ?_ (.stack (by decide) (by decide) ⟨[], [], rfl⟩)) (hroot 1 (by decide))
  exact .step (.step (.step .start (.openContent _)) .openOverlay) (hroot 0 (by decide))

theorem grounded_layered : Grounded layered.store := by
  refine grounded_of id fun {tree b} hb => ?_
  match tree with
  | 0 =>
    cases hb
    exact nofun
  | 1 =>
    cases hb
    exact List.forall_mem_singleton.2 Nat.zero_lt_one
  | _ + 2 => cases hb

theorem searches_agree_layered :
    let stages := chained (Live.find ⟨1, 0⟩ ⟨["a"]⟩ ["x"]) fun h => Live.find h ⟨["b"]⟩ ["x"]
    let r := (searchTwice (resolve ⟨1, 0⟩ ⟨["a", "b"]⟩ ["", "x", "x"]) stages).run layered.store
    r.1.1 = some ⟨1, 2⟩ ∧ r.1.1 = r.1.2 ∧
      ∀ tree, (r.2.entries tree).Perm (layered.store.entries tree) := by
  refine ⟨by decide +kernel, ?_⟩
  exact searches_agree reachable_layered grounded_layered (.head _) (b := .overlay [⟨0, 0⟩] [])
    rfl nofun (.retag (.resolve _ ⟨["a", "b"]⟩ _) (by decide))
    (.chained (.find _ ⟨["a"]⟩ _) fun _ => .find _ ⟨["b"]⟩ _)

end Session

end AttributeTrees.Store
