import AttributeTrees.Proofs.Store.Recalling
/-!
# One search at two levels

A path can be followed from node to node, or from handle to handle, each of which is counted. What
can be said of one step is the same for both, and so is what follows for a path. Main statement:
handles lead where the nodes lead that they stand for.
-/
namespace AttributeTrees.Store

open Access (Tells run_bind_of_run)

variable {ν : Type} {s s' base : Store} {tree : Nat} {b : Body} {held held' : List Handle}
  {h : Handle} {n m : Location} {F F' : Names → Prop}

/-- Nodes that stand for nodes of a tree, with the handles that go with them. -/
structure Level (ν : Type) where
  access : Access Live ν
  cost : ν → List Handle
  stands : Store → ν → Location → Prop

def Level.ofNodes (tree : Nat) : Level Location where
  access := Live.nodes tree
  cost _ := []
  stands _ n m := n = m

def Level.ofHandles (tree : Nat) : Level Handle where
  access := Live.access
  cost h := [h]
  stands s h n := h.tree = tree ∧ s.node? h = some n

inductive Level.Finds (l : Level ν) (base : Store) (tree : Nat) (F : Names → Prop)
    (held : List Handle) (s : Store) (x : Live (Option ν)) (g : Names → Option Location) : Prop
  | nothing {s' : Store} (hrun : x.run s = (none, s')) (hl : s.Later s')
      (hs : Recalls base tree (fun names => F names ∧ g names = none) held s')
  | node {s' : Store} {v : ν} {n : Location} (hrun : x.run s = (some v, s')) (hl : s.Later s')
      (hs : Recalls base tree (fun names => F names ∧ g names = some n) (l.cost v ++ held) s')
      (hv : l.stands s' v n)

/-- Nodes lead to nodes as those that they stand for do, whatever names are found to be listed. -/
structure Level.Guided (l : Level ν) (base : Store) (tree : Nat) (a : Names → Access Id Location) :
    Prop where
  lasts : ∀ {x n held held' s s'}, l.stands s x n → s.Balanced (l.cost x ++ held) →
    s'.Balanced (l.cost x ++ held') → s.Later s' → l.stands s' x n
  isList : ∀ {F held s x n}, Recalls base tree F (l.cost x ++ held) s → l.stands s x n →
    ∃ list, (∀ names, (a names).isList n = list) ∧
      Tells (Recalls base tree F (l.cost x ++ held)) s (l.access.isList x) list
  childAt : ∀ {F held s x n} i, Recalls base tree F (l.cost x ++ held) s → l.stands s x n →
    l.Finds base tree F (l.cost x ++ held) s (l.access.childAt x i) fun names =>
      (a names).childAt n i
  childNamed : ∀ {F held s x n} name, Recalls base tree F (l.cost x ++ held) s → l.stands s x n →
    l.Finds base tree F (l.cost x ++ held) s (l.access.childNamed x name) fun names =>
      (a names).childNamed n name
  release : ∀ {F held s x n}, Recalls base tree F (l.cost x ++ held) s → l.stands s x n →
    s.Anchored held tree → Tells (Recalls base tree F held) s (l.access.release x) ()

namespace Level

variable {l : Level ν} {a : Names → Access Id Location} {x y : Live (Option ν)} {v : ν}
  {g g' : Names → Option Location}

theorem Finds.after (h : l.Finds base tree F' held s' y g') (hrun : x.run s = y.run s')
    (hl : s.Later s') (hF : ∀ names, F' names → F names ∧ g names = g' names) :
    l.Finds base tree F held s x g := by
  have hfact {node? : Option Location} {names : Names} (hn : F' names ∧ g' names = node?) :
      F names ∧ g names = node? := by
    obtain ⟨hF, hg⟩ := hF names hn.1
    exact ⟨hF, hg.trans hn.2⟩
  cases h with
  | nothing hy ht hs => exact .nothing (hrun.trans hy) (hl.trans ht) (hs.mono fun _ => hfact)
  | node hy ht hs hv => exact .node (hrun.trans hy) (hl.trans ht) (hs.mono fun _ => hfact) hv

theorem finds_none (hs : Recalls base tree F held s) (hF : ∀ names, F names → g names = none) :
    l.Finds base tree F held s (pure none) g :=
  .nothing rfl (.refl s) (hs.mono fun names hn => ⟨hn, hF names hn⟩)

theorem finds_some (hs : Recalls base tree F (l.cost v ++ held) s) (hv : l.stands s v n)
    (hF : ∀ names, F names → g names = some n) : l.Finds base tree F held s (pure (some v)) g :=
  .node rfl (.refl s) (hs.mono fun names hn => ⟨hn, hF names hn⟩) hv

namespace Guided

theorem firstNamed (hl : l.Guided base tree a) (hs : Recalls base tree F (l.cost v ++ held) s)
    (hv : l.stands s v n) (candidates : List String) :
    l.Finds base tree F (l.cost v ++ held) s (l.access.firstNamed v candidates) fun names =>
      candidates.findSome? fun name => (a names).childNamed n name := by
  induction candidates generalizing s F with
  | nil => exact finds_none hs fun _ _ => rfl
  | cons name rest ih =>
    cases hl.childNamed name hs hv with
    | nothing hrun hl₁ hs₁ =>
      have hv₁ := hl.lasts hv hs.balanced hs₁.balanced hl₁
      refine (ih hs₁ hv₁).after (run_bind_of_run hrun _) hl₁ fun names ⟨hF, hchild⟩ => ⟨hF, ?_⟩
      rw [List.findSome?_cons, hchild]
    | node hrun hl₁ hs₁ hc =>
      refine (finds_some hs₁ hc fun names ⟨_, hchild⟩ => ?_).after (run_bind_of_run hrun _) hl₁
        fun names hn => ⟨hn.1, rfl⟩
      rw [List.findSome?_cons, hchild]

theorem step (hl : l.Guided base tree a) (hs : Recalls base tree F (l.cost v ++ held) s)
    (hv : l.stands s v n) (segment : String) (tags : List String) :
    l.Finds base tree F (l.cost v ++ held) s (l.access.step v segment tags) fun names =>
      (a names).step n segment tags := by
  obtain ⟨list, hlist, s₁, hrun, hs₁, hl₁⟩ := hl.isList hs hv
  have hv₁ := hl.lasts hv hs.balanced hs₁.balanced hl₁
  cases list with
  | true =>
    cases hi : Numeral.index? segment with
    | some i =>
      refine (hl.childAt i hs₁ hv₁).after ?_ hl₁ fun names hF => ⟨hF, ?_⟩
      · rw [Access.step, run_bind_of_run hrun, if_pos rfl, hi]
      · rw [Access.step_eq, hlist names, if_pos rfl, hi]
        rfl
    | none =>
      refine (finds_none hs₁ fun names _ => ?_).after ?_ hl₁ fun names hF => ⟨hF, rfl⟩
      · rw [Access.step_eq, hlist names, if_pos rfl, hi]
        rfl
      · rw [Access.step, run_bind_of_run hrun, if_pos rfl, hi]
  | false =>
    refine (hl.firstNamed hs₁ hv₁ (Access.candidates segment tags)).after ?_ hl₁ fun names hF =>
      ⟨hF, ?_⟩
    · rw [Access.step, run_bind_of_run hrun]
      rfl
    · rw [Access.step_eq, hlist names]
      rfl

theorem follow (hl : l.Guided base tree a) (tags : List String)
    (hs : Recalls base tree F (l.cost v ++ held) s) (hv : l.stands s v n)
    (ha : s.Anchored held tree) (segments : List String) :
    l.Finds base tree F held s (l.access.follow tags v segments) fun names =>
      (a names).follow tags n segments := by
  induction segments generalizing v n s F with
  | nil => exact finds_some hs hv fun _ _ => rfl
  | cons segment rest ih =>
    cases hl.step hs hv segment tags with
    | nothing hrun₁ hl₁ hs₁ =>
      have hv₁ := hl.lasts hv hs.balanced hs₁.balanced hl₁
      obtain ⟨s₂, hrun₂, hs₂, hl₂⟩ := hl.release hs₁ hv₁ (ha.later hl₁)
      refine (finds_none hs₂ fun names ⟨_, hstep⟩ => ?_).after ?_ (hl₁.trans hl₂)
        fun names hn => ⟨hn.1, rfl⟩
      · rw [Access.follow_cons, hstep]
        rfl
      · rw [Access.follow, run_bind_of_run hrun₁, run_bind_of_run hrun₂]
    | @node s₁ child m hrun₁ hl₁ hs₁ hc =>
      have hperm : (l.cost child ++ (l.cost v ++ held)).Perm (l.cost v ++ (l.cost child ++ held)) :=
        List.perm_append_comm_assoc ..
      have hs₁' := hs₁.perm hperm
      have hv₁ := hl.lasts hv hs.balanced hs₁'.balanced hl₁
      have ha₁ : s₁.Anchored (l.cost child ++ held) tree :=
        (ha.later hl₁).mono (List.subset_append_right ..)
      obtain ⟨s₂, hrun₂, hs₂, hl₂⟩ := hl.release hs₁' hv₁ ha₁
      have hc₂ := hl.lasts hc hs₁.balanced hs₂.balanced hl₂
      have hl := hl₁.trans hl₂
      refine (ih hs₂ hc₂ (ha.later hl)).after ?_ hl fun names ⟨hF, hstep⟩ => ⟨hF, ?_⟩
      · rw [Access.follow, run_bind_of_run hrun₁, run_bind_of_run hrun₂]
      · rw [Access.follow_cons, hstep]
        rfl

end Guided

end Level

theorem Reveals.finds {x : Live (Option Location)} {g : Names → Option Location}
    (h : Reveals base tree F held s x g) : (Level.ofNodes tree).Finds base tree F held s x g := by
  obtain ⟨node?, s', hrun, hs, hl⟩ := h
  cases node? with
  | none => exact .nothing hrun hl hs
  | some n => exact .node hrun hl hs rfl

def guide (d : Disk) (names : Names) : Body → Access Id Location
  | .own c => c.access d
  | .overlay _ _ =>
    (Layer.stack (fun _ => .nothing) [] names).disguise .stacked Location.stacked?

structure Searchable (s : Store) (tree : Nat) (b : Body) : Prop where
  body : s.body? tree = some b
  plain : ∀ path, b ≠ .own (.files path)
  above : ¬ s.Above tree tree

theorem Searchable.exact_of_child (ht : base.Searchable tree b) (names : Names)
    (h : (∃ i, (guide base.disk names b).childAt n i = some m) ∨
      ∃ name, (guide base.disk names b).childNamed n name = some m) : m.Exact := by
  have hdisguise {β : Type} {a : Access Id β} {put : β → Location} {take? : Location → Option β}
      (hput : ∀ x, (put x).Exact)
      (h : (∃ i, (a.disguise put take?).childAt n i = some m) ∨
        ∃ name, (a.disguise put take?).childNamed n name = some m) : m.Exact := by
    simp only [Access.disguise] at h
    rcases h with ⟨i, h⟩ | ⟨name, h⟩
    all_goals
      cases hn : take? n with
      | none =>
        rw [hn] at h
        cases h
      | some x =>
        rw [hn] at h
        obtain ⟨y, -, rfl⟩ := Option.map_eq_some_iff.1 h
        exact hput y
  cases b with
  | own c =>
    cases c with
    | files path => exact absurd rfl (ht.plain path)
    | empty => obtain ⟨_, h⟩ | ⟨_, h⟩ := h <;> cases h
    | _ => exact hdisguise (fun x => show (Location.document x).Exact from rfl) h
  | overlay sources listings =>
    exact hdisguise (fun x => show (Location.stacked x).Exact from rfl) h

theorem guided_own {c : Content} (hb : base.body? tree = some (.own c)) :
    (Level.ofNodes tree).Guided base tree fun _ => c.access base.disk where
  lasts hx _ _ _ := hx
  isList hs hx := hx ▸ ⟨_, fun _ => rfl, (echoes_recalls hb hs).isList _⟩
  childAt i hs hx :=
    hx ▸ (reveals_of_tells ((echoes_recalls hb hs).childAt _ i) fun _ => rfl).finds
  childNamed name hs hx :=
    hx ▸ (reveals_of_tells ((echoes_recalls hb hs).childNamed _ name) fun _ => rfl).finds
  release hs _ _ := (echoes_recalls hb hs).release _

section
variable {sources : List Handle} {listings : List (Path × List String)}

theorem guided_overlay (habove : ¬ base.Above tree tree)
    (hb : base.body? tree = some (.overlay sources listings)) :
    (Level.ofNodes tree).Guided base tree fun names =>
      (Layer.stack (fun _ => .nothing) [] names).disguise .stacked Location.stacked? := by
  have hasked {α : Type} {F : Names → Prop} {held : List Handle} {s : Store}
      (hs : Recalls base tree F held s) (q : Access Live Location → Live α)
      (hq : ∀ pick, q (.choose pick) = pick >>= q) : ∃ height, (q (Live.nodes tree)).run s =
        (q ((overlay (nodesUpTo height) tree).disguise .stacked Location.stacked?)).run s := by
    obtain ⟨noted, hb'⟩ := hs.later.body?_overlay.2 ⟨_, hb⟩
    exact run_nodes_overlay hb' q hq
  exact {
    lasts := fun hx _ _ _ => hx
    isList := fun {F held s x n} hs hx => by
      cases hx
      obtain ⟨height, hrun⟩ := hasked hs (·.isList x) fun _ => rfl
      refine ⟨false, fun names => ?_, s, hrun.trans ?_, hs, .refl s⟩
      · simp only [Access.disguise, Layer.stack]
        split <;> rfl
      · simp only [Access.disguise, overlay]
        split <;> rfl
    childAt := fun {F held s x n} i hs hx => by
      cases hx
      obtain ⟨height, hrun⟩ := hasked hs (·.childAt x i) fun _ => rfl
      refine (Reveals.of_run (reveals_match hs (fun p => ?_) x.stacked? none) hrun).finds
      exact ((reveals_childNames habove hb height hs p).map fun names =>
        names[i]?.map p.push).map (Option.map Location.stacked)
    childNamed := fun {F held s x n} name hs hx => by
      cases hx
      obtain ⟨height, hrun⟩ := hasked hs (·.childNamed x name) fun _ => rfl
      refine (Reveals.of_run (reveals_match hs (fun p => ?_) x.stacked? none) hrun).finds
      exact ((reveals_childNames habove hb height hs p).map fun names : List String =>
        if names.contains name then some (p.push name) else none).map (Option.map Location.stacked)
    release := fun {F held s x n} hs hx _ => by
      cases hx
      obtain ⟨height, hrun⟩ := hasked hs (·.release x) fun _ => rfl
      refine ⟨s, hrun.trans ?_, hs, .refl s⟩
      simp only [Access.disguise, overlay]
      split <;> rfl }

end

theorem guided_ofNodes (ht : base.Searchable tree b) :
    (Level.ofNodes tree).Guided base tree fun names => guide base.disk names b := by
  cases b with
  | own c => exact guided_own ht.body
  | overlay sources listings => exact guided_overlay ht.above ht.body

theorem stands_later (hs : s.Balanced held) (hs' : s'.Balanced held') (hl : s.Later s')
    (hh : (Level.ofHandles tree).stands s h n) (hmem : h ∈ held' ++ s'.stacked) :
    (Level.ofHandles tree).stands s' h n := by
  refine ⟨hh.1, ?_⟩
  rw [hs.toCounted.node?_follows hs'.toCounted hl.toFollows (hs.mem_iff.2 ⟨n, hh.2⟩) hmem, hh.2]

theorem eq_of_stands (hs : s.Balanced held) {g : Handle} (hg : (Level.ofHandles tree).stands s g m)
    (hh : (Level.ofHandles tree).stands s h n) (hmn : (m == n) = true) : g = h := by
  obtain ⟨hgt, hgn⟩ := hg
  obtain ⟨hht, hhn⟩ := hh
  have hgh : g.tree = h.tree := hgt.trans hht.symm
  have hid : g.id = h.id := ((tallied_of_counted hs.toCounted).nodes g (hs.mem_iff.2 ⟨m, hgn⟩)
    h (hs.mem_iff.2 ⟨n, hhn⟩) hgh).2 ⟨m, n, hgn, hhn, hmn⟩
  cases g
  cases h
  exact congr (congrArg Handle.mk hgh) hid

def Settled (s : Store) (tree : Nat) (n : Location) : Prop :=
  n.Exact ∨ ∃ h, (Level.ofHandles tree).stands s h n

theorem Settled.later (h : Settled s tree n) (hs : s.Balanced held) (hs' : s'.Balanced held)
    (hl : s.Later s') : Settled s' tree n := by
  refine h.imp_right fun ⟨g, hg⟩ => ⟨g, stands_later hs hs' hl hg ?_⟩
  rw [hl.stacked]
  exact hs.mem_iff.2 ⟨n, hg.2⟩

theorem use_settled {K : List Handle → Store → Prop} (hK : Knowledge K) (hs : K held s)
    (ha : s.Anchored held tree) (hn : Settled s tree n) :
    ∃ c s', (Live.use tree n).run s = (c, s') ∧ K (c :: held) s' ∧ s.Later s' ∧
      (Level.ofHandles tree).stands s' c n := by
  rcases hn with hn | ⟨h, hh⟩
  · exact hK.use hs ha hn
  have hb := hK.balanced hs
  obtain ⟨t, ht⟩ := ha.exists_tree hb.toCounted
  obtain ⟨hb', hl, htree, m, hm, hmn⟩ := hb.use ht n
  obtain ⟨hs', -⟩ := hK.taken hs ha n
  rcases hrun : (Live.use tree n).run s with ⟨c, s'⟩
  rw [hrun] at hb' hl htree hm hs'
  have hmem : h ∈ c :: held ++ s'.stacked := by
    rw [hl.stacked]
    exact List.mem_cons_of_mem c (hb.mem_iff.2 ⟨n, hh.2⟩)
  have hh' := stands_later hb hb' hl hh hmem
  have hc : c = h := eq_of_stands hb' ⟨htree, hm⟩ hh' hmn
  exact ⟨c, s', rfl, hs', hl, hc ▸ hh'⟩

namespace Level

theorem Finds.adopt {x : Live (Option Location)} {g : Names → Option Location}
    (hx : (Level.ofNodes tree).Finds base tree F held s x g) (hs : Recalls base tree F held s)
    (ha : s.Anchored held tree)
    (hg : ∀ names n, g names = some n → Settled s tree n) :
    (Level.ofHandles tree).Finds base tree F held s (do adopt tree (← x)) g := by
  cases hx with
  | nothing hrun hl hs₁ => exact .nothing (run_bind_of_run hrun _) hl hs₁
  | @node s₁ n m hrun hl hs₁ hn =>
    cases hn
    have hn := (hg _ n (hs₁.fact _ (agrees_listed s₁ tree)).2).later hs.balanced hs₁.balanced hl
    obtain ⟨c, s₂, huse, hs₂, hl₂, hc⟩ :=
      use_settled (knowledge_recalls base tree _) hs₁ (ha.later hl) hn
    refine .node ?_ (hl.trans hl₂) hs₂ hc
    rw [run_bind_of_run hrun, Store.adopt, StateT.run_map, huse]
    rfl

theorem finds_ofNode {f : Location → Live (Option Location)} {g : Names → Option Location}
    (hs : Recalls base tree F held s) (hh : (Level.ofHandles tree).stands s h n)
    (hf : (Level.ofNodes tree).Finds base tree F held s (f n) g)
    (hg : ∀ names m, g names = some m → Settled s tree m) :
    (Level.ofHandles tree).Finds base tree F held s
      (ofNode h none fun n => do Store.adopt h.tree (← f n)) g := by
  obtain ⟨htree, hn⟩ := hh
  have ha : s.Anchored held tree := htree ▸ hs.balanced.toCounted.anchored hn
  have hadopt := hf.adopt hs ha hg
  rw [← htree] at hadopt ⊢
  exact hadopt.after (run_ofNode_some hn) (.refl s) fun names hF => ⟨hF, rfl⟩

end Level

theorem guided_ofHandles (ht : base.Searchable tree b) :
    (Level.ofHandles tree).Guided base tree fun names => guide base.disk names b := by
  have hnodes := guided_ofNodes ht
  refine ⟨fun {x n held held' s s'} hx hs hs' hl => ?_, fun {F held s x n} hs hx => ?_,
    fun {F held s x n} i hs hx => ?_, fun {F held s x n} name hs hx => ?_,
    fun {F held s x n} hs hx ha => ?_⟩
  · exact stands_later hs hs' hl hx (.head _)
  · obtain ⟨list, hlist, htells⟩ := hnodes.isList (x := n) hs rfl
    exact ⟨list, hlist, tells_ofNode hx.2 (hx.1 ▸ htells)⟩
  · refine Level.finds_ofNode hs hx (hx.1 ▸ hnodes.childAt (x := n) i hs rfl) fun names m hm => ?_
    exact .inl (ht.exact_of_child names (.inl ⟨i, hm⟩))
  · refine Level.finds_ofNode hs hx (hx.1 ▸ hnodes.childNamed (x := n) name hs rfl)
      fun names m hm => ?_
    exact .inl (ht.exact_of_child names (.inr ⟨name, hm⟩))
  · exact (knowledge_recalls base tree F).release hs (hx.1 ▸ ha)

end AttributeTrees.Store
