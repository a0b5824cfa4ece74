import AttributeTrees.Proofs.Store.Session
import AttributeTrees.Proofs.Store.Stacking
/-!
# Courses of overlays

Users open documents and overlays, ask about nodes and stack attributes on overlays, in any order.
An overlay keeps what it listed at a path until it gets a source itself, also when one beneath it
gets a source: from then on the list is stale. Main statement: what is not stale is what the layers
have.
-/
namespace AttributeTrees.Store

open Access (Tells Echoes Mirrors run_bind_of_run)

variable {α : Type} {s s' : Store} {held : List Handle} {tree : Nat} {h : Handle}
  {sources : List Handle} {listings : List (Path × List String)} {S S' : Sight}
  {rank : Nat → Nat}

namespace Session

variable {σ : Session} {stale : Nat → Path → Prop} {d : Disk} {p : Path}

inductive Inquiry (σ : Session) : {α : Type} → Live α → (α → List Handle) → Prop
  | name (h : Handle) : Inquiry σ (Live.access.name h) fun _ => []
  | preview (h : Handle) : Inquiry σ (Live.access.preview h) fun _ => []
  | kind (h : Handle) : Inquiry σ (Live.access.kind h) fun _ => []
  | isImmutable (h : Handle) : Inquiry σ (Live.access.isImmutable h) fun _ => []
  | isLink (h : Handle) : Inquiry σ (Live.access.isLink h) fun _ => []
  | isList (h : Handle) : Inquiry σ (Live.access.isList h) fun _ => []
  | childCount (h : Handle) : Inquiry σ (Live.access.childCount h) fun _ => []
  | valueCount (h : Handle) : Inquiry σ (Live.access.valueCount h) fun _ => []
  | fetch (h : Handle) (offset : Nat) (t : Element) (slots : List t.Value) :
      Inquiry σ (Live.access.fetch h offset t slots) fun _ => []
  | childAt (h : Handle) (i : Nat) : Inquiry σ (Live.access.childAt h i) given?
  | childNamed (h : Handle) (name : String) : Inquiry σ (Live.access.childNamed h name) given?
  | find (h : Handle) (p : Path) (tags : List String) : Inquiry σ (Live.find h p tags) given?
  | again {h : Handle} (hh : h ∈ σ.attributes) : Inquiry σ (Live.again h) fun g => [g]
  | root {tree : Nat} (ht : tree ∈ σ.compounds) : Inquiry σ (Live.root tree) fun h => [h]

/-- What a session can become, with the lists that are stale then. -/
inductive Course (d : Disk) : Session → (Nat → Path → Prop) → Prop
  | start : Course d (start d) fun _ _ => False
  | ask {σ : Session} {stale : Nat → Path → Prop} {α : Type} {x : Live α} {given : α → List Handle}
      (hσ : Course d σ stale) (hx : Inquiry σ x given) : Course d (σ.after x given) stale
  | release {σ : Session} {stale : Nat → Path → Prop} {h : Handle} (hσ : Course d σ stale)
      (hh : h ∈ σ.attributes) : Course d (σ.release h) stale
  | openContent {σ : Session} {stale : Nat → Path → Prop} (hσ : Course d σ stale) (c : Content) :
      Course d (σ.openTree (.own c)) stale
  | openOverlay {σ : Session} {stale : Nat → Path → Prop} (hσ : Course d σ stale) :
      Course d (σ.openTree (.overlay [] [])) stale
  | stack {σ : Session} {stale : Nat → Path → Prop} {tree : Nat} {h : Handle} {n : Location}
      (hσ : Course d σ stale) (hh : h ∈ σ.attributes) (hn : σ.store.node? h = some n)
      (hx : n.Exact) (ht : tree ∈ σ.compounds)
      (hb : ∃ sources listings, σ.store.body? tree = some (.overlay sources listings))
      (hne : h.tree ≠ tree) (habove : ¬ σ.store.Above h.tree tree) :
      Course d (σ.stack tree h) fun o p =>
        o ≠ tree ∧ (stale o p ∨ σ.store.Above o tree ∧ σ.store.Knows o p)

/-- Users hold all trees, what is stale is above an overlay, and what is not is what the layers
have. -/
structure Faithful (σ : Session) (stale : Nat → Path → Prop) (S : Sight) (rank : Nat → Nat) :
    Prop where
  steady : Steady S rank σ.attributes σ.store
  compounds : ∀ {tree b}, σ.store.body? tree = some b → tree ∈ σ.compounds
  beneath : ∀ {o p}, stale o p → ∃ tree, σ.store.Above o tree ∧
    ∃ sources listings, σ.store.body? tree = some (.overlay sources listings)
  fresh : Fresh stale S σ.store

variable {K : List Handle → Store → Prop}

theorem keeps_tells {b : α} {f : Location → Live α} {g : Location → α} (hs : K held s)
    (hf : ∀ n, Tells (K held) s (f n) (g n)) :
    K held ((ofNode h b f).run s).2 ∧ s.Later ((ofNode h b f).run s).2 := by
  cases hn : s.node? h with
  | none =>
    rw [run_ofNode_none hn]
    exact ⟨hs, .refl s⟩
  | some n =>
    obtain ⟨s', hrun, hs', hl⟩ := tells_ofNode (b := b) hn (hf n)
    rw [hrun]
    exact ⟨hs', hl⟩

theorem keeps_found (hK : Knowledge K) (hs : K held s) {f : Location → Live (Option Location)}
    {g : Location → Option Location} (hf : ∀ n, Tells (K held) s (f n) (g n)) :
    let r := (ofNode h none fun n => do adopt h.tree (← f n)).run s
    K (given? r.1 ++ held) r.2 ∧ s.Later r.2 := by
  cases hn : s.node? h with
  | none =>
    rw [run_ofNode_none hn]
    exact ⟨hs, .refl s⟩
  | some n =>
    obtain ⟨s', hrun, hs', hl⟩ := hf n
    rw [run_ofNode_some hn, run_bind_of_run hrun]
    cases g n with
    | none => exact ⟨hs', hl⟩
    | some m =>
      have ha : s.Anchored held h.tree := (hK.balanced hs).toCounted.anchored hn
      obtain ⟨hK', hl'⟩ := hK.taken hs' (ha.later hl) m
      exact ⟨hK', hl.trans hl'⟩

theorem Inquiry.keeps {x : Live α} {given : α → List Handle} (hx : Inquiry σ x given)
    (hsound : σ.Sound) (hs : Steady S rank σ.attributes σ.store) :
    Steady S rank (σ.after x given).attributes (σ.after x given).store ∧
      σ.store.Later (σ.after x given).store := by
  have hK := knowledge_steady S rank
  have hm (h : Handle) := mirrors_nodes S rank h.tree σ.attributes
  have he (h : Handle) := hm h σ.store hs
  cases hx with
  | name h => exact keeps_tells hs (he h).name
  | preview h => exact keeps_tells hs (he h).preview
  | kind h => exact keeps_tells hs (he h).kind
  | isImmutable h => exact keeps_tells hs (he h).isImmutable
  | isLink h => exact keeps_tells hs (he h).isLink
  | isList h => exact keeps_tells hs (he h).isList
  | childCount h => exact keeps_tells hs (he h).childCount
  | valueCount h => exact keeps_tells hs (he h).valueCount
  | fetch h offset t slots => exact keeps_tells hs fun n => (he h).fetch n offset t slots
  | childAt h i => exact keeps_found hK hs fun n => (he h).childAt n i
  | childNamed h name => exact keeps_found hK hs fun n => (he h).childNamed n name
  | find h p tags => exact keeps_found hK hs fun n => (hm h).resolve hs n p tags
  | @again h hh =>
    obtain ⟨hb, hl⟩ := hs.balanced.again (List.mem_append_left _ hh)
    refine ⟨hK.kept hs hl (fun j => ?_) hb, hl⟩
    obtain ⟨t, ht⟩ := exists_tree hs.balanced.toCounted hh
    change ((Live.again h).run σ.store).2.body? j = _
    rw [run_again]
    exact body?_retable ht _ j
  | @root tree ht =>
    have ha : σ.store.Anchored σ.attributes tree := by
      refine .inl ?_
      rw [hsound.holders]
      exact List.count_pos_iff.2 ht
    obtain ⟨n, hrun⟩ : ∃ n, (Live.root tree).run σ.store = (Live.use tree n).run σ.store := by
      rw [Live.root, StateT.run_bind, StateT.run_get, pure_bind]
      exact ⟨_, rfl⟩
    rw [after, hrun]
    exact hK.taken hs ha n

theorem Inquiry.client {x : Live α} {given : α → List Handle} (hx : Inquiry σ x given) :
    Client σ.loans [] x given := by
  have hask {β : Type} {y : Live β} (hy : Question y) : Client σ.loans [] y fun _ => [] :=
    (Client.ask hy).lend (List.nil_subset _)
  cases hx with
  | name h => exact hask (.name h)
  | preview h => exact hask (.preview h)
  | kind h => exact hask (.kind h)
  | isImmutable h => exact hask (.isImmutable h)
  | isLink h => exact hask (.isLink h)
  | isList h => exact hask (.isList h)
  | childCount h => exact hask (.childCount h)
  | valueCount h => exact hask (.valueCount h)
  | fetch h offset t slots => exact hask (.fetch h offset t slots)
  | childAt h i => exact (Client.childAt h i).lend (List.nil_subset _)
  | childNamed h name => exact (Client.childNamed h name).lend (List.nil_subset _)
  | find h p tags => exact (Client.find h p tags).lend (List.nil_subset _)
  | @again h hh =>
    refine (Client.again h).lend (List.cons_subset.2 ⟨?_, List.nil_subset _⟩)
    exact List.mem_append_left _ (List.mem_map_of_mem hh)
  | @root tree ht =>
    refine (Client.root tree).lend (List.cons_subset.2 ⟨?_, List.nil_subset _⟩)
    exact List.mem_append_right _ (List.mem_map_of_mem ht)

theorem Course.reachable (hσ : Course d σ stale) : Reachable d σ := by
  induction hσ with
  | start => exact .start
  | ask _ hx ih => exact .step ih (.client hx.client)
  | release _ hh ih => exact .step ih (.release hh)
  | openContent _ c ih => exact .step ih (.openContent c)
  | openOverlay _ ih => exact .step ih .openOverlay
  | stack _ hh _ _ ht hb _ _ ih => exact .step ih (.stack hh ht hb)

theorem Faithful.later (h : Faithful σ stale S rank) {τ : Session}
    (hs : Steady S rank τ.attributes τ.store) (hl : σ.store.Later τ.store)
    (hc : τ.compounds = σ.compounds) : Faithful τ stale S rank := by
  have hatop (i j : Nat) (hij : σ.store.Atop i j) : τ.store.Atop i j := by
    obtain ⟨b, hb, g, hg, hgj⟩ := hij
    have hmap := hl.map_body i
    rw [hb] at hmap
    obtain ⟨b', hb', hu⟩ := Option.map_eq_some_iff.1 hmap
    refine ⟨b', hb', g, ?_, hgj⟩
    rwa [← sources_unlisted, hu, sources_unlisted]
  refine ⟨hs, fun {tree b} hb => ?_, fun {o p} hp => ?_, fun {tree sources listings} hb p hp => ?_⟩
  · obtain ⟨b₀, hb₀, -⟩ := hl.exists_body hb
    rw [hc]
    exact h.compounds hb₀
  · obtain ⟨tree, habove, sources, listings, hb⟩ := h.beneath hp
    obtain ⟨noted, hb'⟩ := hl.body?_overlay.2 ⟨listings, hb⟩
    exact ⟨tree, above_mono hatop habove, sources, noted, hb'⟩
  · obtain ⟨noted, hb₀⟩ := hl.body?_overlay.1 ⟨listings, hb⟩
    have hsub : sources ⊆ σ.store.stacked := fun _ hg => mem_stacked hb₀ hg
    rw [layers_later h.steady.balanced.toCounted hs.balanced.toCounted hl hsub]
    exact h.fresh hb₀ p hp

theorem Faithful.release (h : Faithful σ stale S rank) (hsound : σ.Sound) {g : Handle}
    (hg : g ∈ σ.attributes) : Faithful (σ.release g) stale S rank := by
  have hK := knowledge_steady S rank
  have hs := hK.perm h.steady (List.perm_cons_erase hg)
  obtain ⟨t, ht⟩ := exists_tree h.steady.balanced.toCounted hg
  have hb : σ.store.body? g.tree = some t.body := by rw [body?, ht]; rfl
  have ha : σ.store.Anchored (σ.attributes.erase g) g.tree := by
    refine .inl ?_
    rw [hsound.holders]
    exact List.count_pos_iff.2 (h.compounds hb)
  obtain ⟨s', hrun, hs', hl⟩ := hK.release hs ha
  have hstore : (σ.release g).store = s' := by rw [Session.release, hrun]
  exact h.later (hstore ▸ hs') (hstore ▸ hl) rfl

theorem Faithful.openTree (h : Faithful σ stale S rank) (hsound : σ.Sound) {b : Body}
    (hsrc : b.sources = []) (hlist : b.listings = []) :
    ∃ S rank, Faithful (σ.openTree b) stale S rank := by
  have hbal := (hsound.openTree hsrc).1.balanced
  have hstacked : (σ.openTree b).store.stacked = σ.store.stacked := by
    change (σ.store.trees ++ [_]).flatMap _ = _
    simp [stacked, hsrc]
  have hbody (j : Nat) : (σ.openTree b).store.body? j = _ := body?_addTree σ.store b j
  have hexact {g : Handle} {n : Location} (hg : g ∈ (σ.openTree b).store.stacked)
      (hn : (σ.openTree b).store.node? g = some n) : n.Exact := by
    rw [hstacked] at hg
    exact h.steady.exact hg ((node?_addTree σ.store b g).symm.trans hn)
  obtain ⟨S', rank', hs'⟩ := exists_steady hbal (grounded_addTree h.steady.ranked hsrc) hexact
  have hold {j : Nat} {c : Body} (hj : σ.store.body? j = some c) :
      (σ.openTree b).store.body? j = some c := by
    obtain ⟨t, ht, -⟩ := Option.map_eq_some_iff.1 hj
    rw [hbody, if_neg (Nat.ne_of_lt (List.getElem?_eq_some_iff.1 ht).1), hj]
  refine ⟨S', rank', hs', fun {tree c} hc => ?_, fun {o p} hp => ?_, ?_⟩
  · rw [hbody] at hc
    split at hc
    · next he => exact he ▸ List.mem_cons_self
    · exact List.mem_cons_of_mem _ (h.compounds hc)
  · obtain ⟨tree, habove, sources, listings, hb⟩ := h.beneath hp
    refine ⟨tree, above_mono ?_ habove, sources, listings, hold hb⟩
    rintro i j ⟨c, hc, hg⟩
    exact ⟨c, hold hc, hg⟩
  · apply fresh_of_shared h.steady.ranked h.steady.shows hs'.shows h.fresh
      (shared_addTree h.steady.balanced.toCounted b)
    rintro o p ⟨sources, listings, ho, hp⟩ hnew
    refine ⟨?_, hnew⟩
    rintro rfl
    change (σ.openTree b).store.body? _ = _ at ho
    rw [hbody, if_pos rfl] at ho
    cases ho
    rw [show listings = [] from hlist] at hp
    exact hp rfl

theorem Faithful.stack (h : Faithful σ stale S rank) (hsound : σ.Sound) {tree : Nat} {g : Handle}
    {n : Location} (hg : g ∈ σ.attributes) (hn : σ.store.node? g = some n) (hx : n.Exact)
    (ht : tree ∈ σ.compounds)
    (hb : ∃ sources listings, σ.store.body? tree = some (.overlay sources listings))
    (hne : g.tree ≠ tree) (habove : ¬ σ.store.Above g.tree tree) :
    ∃ S rank, Faithful (σ.stack tree g) (fun o p =>
      o ≠ tree ∧ (stale o p ∨ σ.store.Above o tree ∧ σ.store.Knows o p)) S rank := by
  obtain ⟨sources, listings, hb⟩ := hb
  have hbal := (step_sound hsound (.stack hg ht ⟨sources, listings, hb⟩)).1.balanced
  have hbody (j : Nat) : (σ.stack tree g).store.body? j = _ := body?_addSource hb g j
  obtain ⟨S', rank', hs'⟩ := exists_steady hbal
    (grounded_addSource h.steady.ranked hb hne habove) (exact_addSource hb hn hx h.steady.exact)
  have hatop (i j : Nat) (hij : σ.store.Atop i j) : (σ.stack tree g).store.Atop i j :=
    hij.addSource hb g
  have htree : (σ.stack tree g).store.body? tree = some (.overlay (g :: sources) []) := by
    rw [hbody, if_pos rfl]
  refine ⟨S', rank', hs', fun {j b} hj => ?_, fun {o p} hp => ?_, ?_⟩
  · rw [hbody] at hj
    split at hj
    · next he => exact he ▸ ht
    · exact h.compounds hj
  · rcases hp.2 with hold | ⟨hoa, -⟩
    · obtain ⟨j, hoj, srcs, noted, hj⟩ := h.beneath hold
      by_cases he : j = tree
      · subst he
        exact ⟨j, above_mono hatop hoj, _, _, htree⟩
      · exact ⟨j, above_mono hatop hoj, srcs, noted, by rw [hbody, if_neg he, hj]⟩
    · exact ⟨tree, above_mono hatop hoa, _, _, htree⟩
  · apply fresh_of_shared h.steady.ranked h.steady.shows hs'.shows h.fresh
      (shared_addSource hb g)
    rintro o p ⟨srcs, noted, ho, hp⟩ hnew
    change (σ.stack tree g).store.body? _ = _ at ho
    have hot : o ≠ tree := by
      rintro rfl
      rw [htree] at ho
      cases ho
      exact hp rfl
    rw [hbody, if_neg hot] at ho
    refine ⟨⟨hot, fun ha => ?_⟩, fun hold => ?_⟩
    · exact hnew ⟨hot, .inr ⟨ha, srcs, noted, ho, hp⟩⟩
    · exact hnew ⟨hot, .inl hold⟩

theorem Course.exists_faithful (hσ : Course d σ stale) : ∃ S rank, Faithful σ stale S rank := by
  induction hσ with
  | start =>
    have hempty (tree : Nat) : (Session.start d).store.body? tree = none := rfl
    obtain ⟨S, rank, hs⟩ := exists_steady (sound_start d).balanced
      (grounded_of (fun _ => 0) fun hb => nomatch hb) fun hh => nomatch hh
    exact ⟨S, rank, hs, fun hb => (nomatch hb), fun hp => hp.elim, fun hb => nomatch hb⟩
  | ask hσ hx ih =>
    obtain ⟨S, rank, h⟩ := ih
    obtain ⟨hs, hl⟩ := hx.keeps hσ.reachable.sound h.steady
    exact ⟨S, rank, h.later hs hl rfl⟩
  | release hσ hh ih =>
    obtain ⟨S, rank, h⟩ := ih
    exact ⟨S, rank, h.release hσ.reachable.sound hh⟩
  | openContent hσ c ih =>
    obtain ⟨S, rank, h⟩ := ih
    exact h.openTree hσ.reachable.sound rfl rfl
  | openOverlay hσ ih =>
    obtain ⟨S, rank, h⟩ := ih
    exact h.openTree hσ.reachable.sound rfl rfl
  | stack hσ hh hn hx ht hb hne habove ih =>
    obtain ⟨S, rank, h⟩ := ih
    exact h.stack hσ.reachable.sound hh hn hx ht hb hne habove

end Session

end AttributeTrees.Store
