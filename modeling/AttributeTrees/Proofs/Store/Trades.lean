import AttributeTrees.Proofs.Store.Balance
import AttributeTrees.Store.Access
/-!
# Computations that trade handles

A computation over a store takes handles and hands out others, and meanwhile some handles and trees
are lent to it. If the store was balanced with the handles that it took, it is balanced with those
it hands out, whatever else is held, and what lasts in the store is what it was. The rules are those
of a frame: what a computation does not take is left alone and can be lent to it.
-/
namespace AttributeTrees.Store

variable {α β : Type} {s s' : Store} {held : List Handle} {tree : Nat} {h : Handle}

/-- How a computation leaves a store in which `held` is held by others. -/
structure Outcome (held : List Handle) (s : Store) (given : α → List Handle) (r : α × Store) :
    Prop where
  balanced : r.2.Balanced (given r.1 ++ held)
  later : s.Later r.2
  anchored : ∀ h ∈ given r.1, r.2.Anchored held h.tree

inductive Loan where
  | node (h : Handle)
  | tree (tree : Nat)

def Covers (held : List Handle) (s : Store) : Loan → Prop
  | .node h => h ∈ held ++ s.stacked
  | .tree n => s.Anchored held n

/-- The computation takes handles and hands out handles. No tree of them depends on those taken. -/
def Trades (lent : List Loan) (taken : List Handle) (x : Live α) (given : α → List Handle) : Prop :=
  ∀ held s, s.Balanced (taken ++ held) → (∀ h ∈ taken, s.Anchored held h.tree) →
    (∀ l ∈ lent, s.Covers held l) → Outcome held s given (x.run s)

abbrev Keeps (lent : List Loan) (x : Live α) : Prop := Trades lent [] x fun _ => []

theorem Anchored.mono {held' : List Handle} (ha : s.Anchored held tree) (hh : held ⊆ held') :
    s.Anchored held' tree := by
  rcases ha with hh' | ⟨g, hg, hgt⟩
  · exact .inl hh'
  · exact .inr ⟨g, List.append_subset.2
      ⟨List.subset_append_of_subset_left _ hh, List.subset_append_right ..⟩ hg, hgt⟩

theorem Covers.mono {held' : List Handle} {l : Loan} (hl : s.Covers held l) (hh : held ⊆ held') :
    s.Covers held' l := by
  cases l with
  | node h =>
    exact List.append_subset.2
      ⟨List.subset_append_of_subset_left _ hh, List.subset_append_right ..⟩ hl
  | tree n => exact Anchored.mono hl hh

theorem Covers.later {l : Loan} (hl : s.Covers held l) (h : s.Later s') : s'.Covers held l := by
  cases l with
  | node g =>
    unfold Covers at hl ⊢
    rwa [h.stacked]
  | tree n => exact Anchored.later hl h

variable {x : Live α} {f : α → Live β} {lent : List Loan} {taken rest : List Handle}
  {given : α → List Handle} {last : β → List Handle}

theorem Outcome.trans {r : α × Store} {q : β × Store} (h : Outcome held s given r)
    (k : Outcome held r.2 last q) : Outcome held s last q :=
  ⟨k.balanced, h.later.trans k.later, k.anchored⟩

namespace Trades

theorem pure (given : α → List Handle) (a : α) : Trades lent (given a) (pure a) given :=
  fun _ s hs ha _ => ⟨hs, .refl s, ha⟩

theorem bind (hx : Trades lent taken x given) (hf : ∀ a, Trades lent (given a) (f a) last) :
    Trades lent taken (x >>= f) last := by
  intro held s hs ha hl
  have h := hx held s hs ha hl
  exact h.trans (hf _ held _ h.balanced h.anchored fun l hm => (hl l hm).later h.later)

theorem perm {taken' : List Handle} (hx : Trades lent taken x given) (hp : taken'.Perm taken) :
    Trades lent taken' x given :=
  fun held s hs ha hl =>
    hx held s (hs.perm (hp.append_right held)) (fun h hh => ha h (hp.mem_iff.2 hh)) hl

theorem lend {lent' : List Loan} (hx : Trades lent taken x given) (hl : lent ⊆ lent') :
    Trades lent' taken x given :=
  fun held s hs ha hc => hx held s hs ha fun l hm => hc l (hl hm)

theorem frame (hx : Trades (rest.map .node ++ lent) taken x given) :
    Trades lent (taken ++ rest) x fun a => given a ++ rest := by
  intro held s hs ha hl
  rw [List.append_assoc] at hs
  have hsub : held ⊆ rest ++ held := List.subset_append_right ..
  have h := hx (rest ++ held) s hs
    (fun h hh => (ha h (List.mem_append_left _ hh)).mono hsub) fun l hm => by
      rcases List.mem_append.1 hm with hm | hm
      · obtain ⟨g, hg, rfl⟩ := List.mem_map.1 hm
        exact List.mem_append_left _ (List.mem_append_left _ hg)
      · exact (hl l hm).mono hsub
  refine ⟨List.append_assoc .. ▸ h.balanced, h.later, fun g hg => ?_⟩
  rcases List.mem_append.1 hg with hg | hg
  · -- Where a tree hangs on a handle of the frame, it hangs on what that handle's tree hangs on.
    rcases h.anchored g hg with hh | ⟨c, hc, hct⟩
    · exact .inl hh
    · rw [List.append_assoc] at hc
      rcases List.mem_append.1 hc with hc | hc
      · rw [← hct]
        exact (ha c (List.mem_append_right _ hc)).later h.later
      · exact .inr ⟨c, hc, hct⟩
  · exact (ha g (List.mem_append_right _ hg)).later h.later

theorem bind_frame (hx : Trades (rest.map .node ++ lent) taken x given)
    (hf : ∀ a, Trades lent (given a ++ rest) (f a) last) :
    Trades lent (taken ++ rest) (x >>= f) last :=
  hx.frame.bind hf

theorem gain (hx : Trades [] [] x given) (hf : ∀ a, Trades lent (given a ++ rest) (f a) last) :
    Trades lent rest (x >>= f) last :=
  bind_frame (hx.lend (List.nil_subset _)) hf

theorem spend (hx : Trades [] taken x fun _ => []) (hf : ∀ a, Trades lent rest (f a) last) :
    Trades lent (taken ++ rest) (x >>= f) last :=
  bind_frame (hx.lend (List.nil_subset _)) hf

theorem ask (hx : Trades [] [] x given) (hf : ∀ a, Trades lent (given a) (f a) last) :
    Trades lent [] (x >>= f) last :=
  bind (hx.lend (List.nil_subset _)) hf

theorem give (hx : Trades [] taken x fun _ => []) (hf : ∀ a, Trades lent [] (f a) last) :
    Trades lent taken (x >>= f) last :=
  bind (hx.lend (List.nil_subset _)) hf

theorem map {g : α → β} (hx : Trades lent taken x given) (h : ∀ a, last (g a) = given a) :
    Trades lent taken (g <$> x) last :=
  hx.bind fun a => h a ▸ Trades.pure last (g a)

theorem get {f : Store → Live β} (hf : ∀ s, Trades lent taken (f s) last) :
    Trades lent taken (get >>= f) last :=
  fun held s hs ha => hf s held s hs ha

end Trades

theorem Keeps.bind (hx : Keeps [] x) (hf : ∀ a, Trades lent taken (f a) last) :
    Trades lent taken (x >>= f) last :=
  hx.gain hf

theorem Keeps.pure (a : α) : Keeps lent (pure a : Live α) := Trades.pure (fun _ => []) a

theorem Keeps.map (g : α → β) (hx : Keeps lent x) : Keeps lent (g <$> x) :=
  Trades.map hx fun _ => rfl

theorem trades_use (tree : Nat) (n : Location) :
    Trades [.tree tree] [] (Live.use tree n) fun h => [h] := by
  intro held s hs _ hl
  have ha : s.Anchored held tree := hl _ List.mem_cons_self
  obtain ⟨t, ht⟩ := ha.exists_tree hs.toCounted
  obtain ⟨hb, hl, htree, -⟩ := hs.use ht n
  refine ⟨hb, hl, List.forall_mem_singleton.2 ?_⟩
  rw [htree]
  exact ha.later hl

theorem trades_again (h : Handle) : Trades [.node h] [] (Live.again h) fun g => [g] := by
  intro held s hs _ hl
  have hh : h ∈ held ++ s.stacked := hl _ List.mem_cons_self
  obtain ⟨hb, hl⟩ := hs.again hh
  obtain ⟨n, hn⟩ := hs.mem_iff.1 hh
  exact ⟨hb, hl, List.forall_mem_singleton.2 ((hs.toCounted.anchored hn).later hl)⟩

theorem trades_release (h : Handle) : Trades lent [h] (Live.release h) fun _ => [] := by
  intro held s hs ha _
  obtain ⟨hb, hl⟩ := hs.release (ha h List.mem_cons_self)
  exact ⟨hb, hl, nofun⟩

theorem trades_release_after (h : Handle) (a : α) :
    Trades lent (given a ++ [h]) (Live.release h >>= fun _ => pure a) given :=
  ((trades_release h).spend fun _ => Trades.pure given a).perm List.perm_append_comm

theorem trades_root (tree : Nat) : Trades [.tree tree] [] (Live.root tree) fun h => [h] :=
  Trades.get fun _ => trades_use tree _

theorem trades_atRoot {f : Handle → Live α}
    (hf : ∀ h, Trades (.node h :: .tree tree :: lent) [] (f h) given) :
    Trades (.tree tree :: lent) [] (Live.atRoot tree f) given :=
  Trades.bind ((trades_root tree).lend (by simp)) fun h =>
    Trades.bind_frame (hf h) fun a => trades_release_after h a

end AttributeTrees.Store
