import AttributeTrees.Proofs.Store.Client
import AttributeTrees.Proofs.Store.Reclaim
import AttributeTrees.Proofs.Store.Tally
/-!
# Sessions

A session is a store with what its users hold: attributes, each a use of a node, and trees as a
whole. Users open trees, do what clients do, end attributes, stack them on overlays and let trees
go, in any order. At every moment the tables hold just the nodes of the attributes that are live,
counted one by one, those that overlays have as sources included. Main statement: the tables of a
session balance with its attributes.
-/
namespace AttributeTrees.Store

structure Session where
  store : Store
  attributes : List Handle
  compounds : List Nat

namespace Session

variable {σ τ : Session} {d : Disk}

def start (d : Disk) : Session := ⟨.onDisk d, [], []⟩

def live (σ : Session) : List Handle := σ.attributes ++ σ.store.stacked

def loans (σ : Session) : List Loan := σ.attributes.map .node ++ σ.compounds.map .tree

def after {α : Type} (σ : Session) (x : Live α) (given : α → List Handle) : Session :=
  let r := x.run σ.store
  ⟨r.2, given r.1 ++ σ.attributes, σ.compounds⟩

def release (σ : Session) (h : Handle) : Session :=
  ⟨((Live.release h).run σ.store).2, σ.attributes.erase h, σ.compounds⟩

def openTree (σ : Session) (b : Body) : Session :=
  let r := (Live.addTree b).run σ.store
  ⟨r.2, σ.attributes, r.1 :: σ.compounds⟩

def stack (σ : Session) (tree : Nat) (h : Handle) : Session :=
  ⟨((Live.addSource tree h).run σ.store).2, σ.attributes.erase h, σ.compounds⟩

def hold (σ : Session) (tree : Nat) : Session :=
  ⟨((Live.hold tree).run σ.store).2, σ.attributes, tree :: σ.compounds⟩

def letGo (σ : Session) (tree : Nat) : Session :=
  ⟨((Live.letGo tree).run σ.store).2, σ.attributes, σ.compounds.erase tree⟩

inductive Step (σ : Session) : Session → Prop
  | client {α : Type} {x : Live α} {given : α → List Handle} (hx : Client σ.loans [] x given) :
      Step σ (σ.after x given)
  | release {h : Handle} (hh : h ∈ σ.attributes) : Step σ (σ.release h)
  | openContent (c : Content) : Step σ (σ.openTree (.own c))
  | openOverlay : Step σ (σ.openTree (.overlay [] []))
  | stack {tree : Nat} {h : Handle} (hh : h ∈ σ.attributes) (ht : tree ∈ σ.compounds)
      (hb : ∃ sources listings, σ.store.body? tree = some (.overlay sources listings)) :
      Step σ (σ.stack tree h)
  | hold {tree : Nat} (ht : tree ∈ σ.compounds ∨ ∃ h ∈ σ.attributes, h.tree = tree) :
      Step σ (σ.hold tree)
  | letGo {tree : Nat} (ht : tree ∈ σ.compounds) : Step σ (σ.letGo tree)

/-- What a session that begins with a disk and no tree can become. -/
inductive Reachable (d : Disk) : Session → Prop
  | start : Reachable d (start d)
  | step {σ τ : Session} (hσ : Reachable d σ) (h : Step σ τ) : Reachable d τ

structure Sound (σ : Session) : Prop where
  balanced : σ.store.Balanced σ.attributes
  holders : σ.store.holders = fun tree => σ.compounds.count tree

theorem sound_start (d : Disk) : (start d).Sound where
  balanced := ⟨⟨nofun, fun _ => rfl⟩, nofun⟩
  holders := rfl

theorem Sound.exists_tree (hσ : σ.Sound) {tree : Nat} (ht : tree ∈ σ.compounds) :
    ∃ t, σ.store.trees[tree]? = some t ∧ 0 < t.holders := by
  have hh : 0 < σ.store.holders tree := by
    rw [hσ.holders]
    exact List.count_pos_iff.2 ht
  unfold Store.holders at hh
  cases h : σ.store.trees[tree]? with
  | none => simp [h] at hh
  | some t => exact ⟨t, rfl, by simpa [h] using hh⟩

theorem Sound.covers (hσ : σ.Sound) : ∀ l ∈ σ.loans, σ.store.Covers σ.attributes l := by
  intro l hl
  rcases List.mem_append.1 hl with hl | hl
  · obtain ⟨h, hh, rfl⟩ := List.mem_map.1 hl
    exact List.mem_append_left _ hh
  · obtain ⟨tree, ht, rfl⟩ := List.mem_map.1 hl
    refine .inl ?_
    rw [hσ.holders]
    exact List.count_pos_iff.2 ht

theorem Sound.outcome (hσ : σ.Sound) {α : Type} {x : Live α} {given : α → List Handle}
    (hx : Client σ.loans [] x given) : Outcome σ.attributes σ.store given (x.run σ.store) :=
  hx.trades σ.attributes σ.store hσ.balanced nofun hσ.covers

theorem Sound.erase (hσ : σ.Sound) {h : Handle} (hh : h ∈ σ.attributes) :
    σ.store.Balanced (h :: σ.attributes.erase h) :=
  hσ.balanced.perm (List.perm_cons_erase hh)

theorem Sound.openTree (hσ : σ.Sound) {b : Body} (hb : b.sources = []) :
    (σ.openTree b).Sound ∧ σ.store.Follows (σ.openTree b).store := by
  have hr := becomes_addTree hb hσ.balanced
  refine ⟨⟨hr.balanced, hr.holders.trans (funext fun j => ?_)⟩, hr.follows⟩
  change _ = (σ.store.trees.length :: σ.compounds).count j
  rw [hσ.holders, List.count_cons]
  simp only [beq_iff_eq]

theorem step_sound (hσ : σ.Sound) (h : Step σ τ) : τ.Sound ∧ σ.store.Follows τ.store := by
  cases h with
  | client hx =>
    have ho := hσ.outcome hx
    exact ⟨⟨ho.balanced, (funext ho.later.holders).trans hσ.holders⟩, ho.later.toFollows⟩
  | release hh =>
    have hr := becomes_release (hσ.erase hh)
    exact ⟨⟨hr.balanced, hr.holders.trans hσ.holders⟩, hr.follows⟩
  | openContent c => exact hσ.openTree rfl
  | openOverlay => exact hσ.openTree rfl
  | stack hh ht hb =>
    obtain ⟨t, htree, hpos⟩ := hσ.exists_tree ht
    obtain ⟨sources, listings, hb⟩ := hb
    obtain ⟨u, hu, hub⟩ := Option.map_eq_some_iff.1 hb
    cases htree.symm.trans hu
    have hr := becomes_addSource (hσ.erase hh) htree hub hpos
    exact ⟨⟨hr.balanced, hr.holders.trans hσ.holders⟩, hr.follows⟩
  | @hold tree ht =>
    have hex : ∃ t, σ.store.trees[tree]? = some t := by
      rcases ht with ht | ⟨h, hh, rfl⟩
      · obtain ⟨t, ht, -⟩ := hσ.exists_tree ht
        exact ⟨t, ht⟩
      · exact exists_tree (hσ.balanced.toCounted) hh
    obtain ⟨t, htree⟩ := hex
    have hr := becomes_hold hσ.balanced htree
    refine ⟨⟨hr.balanced, hr.holders.trans (funext fun j => ?_)⟩, hr.follows⟩
    change _ = (tree :: σ.compounds).count j
    rw [hσ.holders, List.count_cons]
    simp only [beq_iff_eq]
  | @letGo tree ht =>
    obtain ⟨t, htree, -⟩ := hσ.exists_tree ht
    have hr := becomes_letGo hσ.balanced htree
    refine ⟨⟨hr.balanced, hr.holders.trans (funext fun j => ?_)⟩, hr.follows⟩
    change _ = (σ.compounds.erase tree).count j
    rw [hσ.holders, List.count_erase]
    simp only [beq_iff_eq]

theorem Reachable.sound (hσ : Reachable d σ) : σ.Sound := by
  induction hσ with
  | start => exact sound_start d
  | step _ h ih => exact (step_sound ih h).1

theorem Reachable.anchored (hσ : Reachable d σ) {tree : Nat} (ht : tree ∈ σ.compounds) :
    σ.store.Anchored σ.attributes tree := by
  refine .inl ?_
  rw [hσ.sound.holders]
  exact List.count_pos_iff.2 ht

/-- At every moment the tables hold just what is live, and attributes keep their nodes. What users
do without getting an attribute leaves all tables as they were. When all attributes have ended the
tables are empty, and they all end when users let everything go. -/
theorem attributes_balance (hσ : Reachable d σ) :
    Tallied σ.live σ.store ∧
    (∀ τ, Step σ τ → ∀ h ∈ σ.live, h ∈ τ.live → τ.store.node? h = σ.store.node? h) ∧
    (∀ (α : Type) (x : Live α) (given : α → List Handle), Client σ.loans [] x given →
      given (x.run σ.store).1 = [] →
        ∀ tree, ((σ.after x given).store.entries tree).Perm (σ.store.entries tree)) ∧
    (σ.live = [] → ∀ tree, σ.store.entries tree = []) ∧
    (σ.attributes = [] → σ.compounds = [] → Grounded σ.store →
      ∀ tree, σ.store.entries tree = []) := by
  have hs := hσ.sound
  have hc := hs.balanced.toCounted
  refine ⟨tallied_of_counted hc, fun τ hτ h hh hh' => ?_, fun α x given hx hnone tree => ?_,
    entries_eq_nil hc, fun ha hcomp hg => ?_⟩
  · obtain ⟨hτs, hf⟩ := step_sound hs hτ
    exact hc.node?_follows hτs.balanced.toCounted hf hh hh'
  · have ho := hs.outcome hx
    have hb := ho.balanced
    rw [hnone] at hb
    exact perm_entries hc hb.toCounted ho.later tree
  · have hb := hs.balanced
    rw [ha] at hb hc
    have hh (tree : Nat) : σ.store.holders tree = 0 := by rw [hs.holders, hcomp]; rfl
    exact entries_eq_nil hc (hb.stacked_eq_nil hh hg)

def covered : Session :=
  let σ := (start .empty).openTree (.own (.json (.object [("a", .null)])))
  ((σ.openTree (.overlay [] [])).after (Live.root 0) fun h => [h]).stack 1 ⟨0, 0⟩

def used : Session :=
  covered.after (Live.atRoot 1 fun h => Live.access.childNamed h "a") given?

theorem reachable_used : Reachable .empty used := by
  have hcovered : Reachable .empty covered := by
    refine .step ?_ (.stack (by decide) (by decide) ⟨[], [], rfl⟩)
    refine .step (.step (.step .start (.openContent _)) .openOverlay) (.client ?_)
    exact (Client.root 0).lend (List.cons_subset.2 ⟨.tail _ (.head _), List.nil_subset _⟩)
  have hmember : Client [.tree 1] [] (Live.atRoot 1 fun h => Live.access.childNamed h "a") given? :=
    .atRoot fun h => (Client.childNamed h "a").lend (List.nil_subset _)
  exact .step hcovered (.client (hmember.lend (List.cons_subset.2 ⟨.head _, List.nil_subset _⟩)))

theorem attributes_balance_used :
    Reachable .empty used ∧ used.live = [⟨1, 1⟩, ⟨0, 0⟩] ∧
      Tallied [⟨1, 1⟩, ⟨0, 0⟩] used.store :=
  ⟨reachable_used, by decide, (attributes_balance reachable_used).1⟩

end Session

end AttributeTrees.Store
