import AttributeTrees.Proofs.Access.Simulation
import AttributeTrees.Proofs.Access.Ways
import AttributeTrees.Proofs.Store.Access
import AttributeTrees.Proofs.Store.Tally
/-!
# Handles that stand for nodes

What is known of a store and stays known as long as only tables change is known again behind each
question about handles. A handle that is handed out stands for the node that was found, unless it
is a file, which is the same as others.
-/
namespace AttributeTrees

namespace Location

def Exact (n : Location) : Prop := n.file? = none

theorem Exact.eq {m n : Location} (hn : n.Exact) (h : (m == n) = true) : m = n := by
  cases n with
  | file node => cases hn
  | document q =>
    cases m with
    | document p => exact congrArg document (beq_iff_eq (α := Document.Place).1 h)
    | _ => cases h
  | stacked q =>
    cases m with
    | stacked p => exact congrArg stacked (beq_iff_eq (α := Path).1 h)
    | _ => cases h

end Location

namespace Access

/-- Nodes that are the same as none but themselves lead to such nodes only. -/
structure Precise (a : Access Id Location) : Prop where
  childAt : ∀ {n m : Location} {i}, n.Exact → a.childAt n i = some m → m.Exact
  childNamed : ∀ {n m : Location} {name}, n.Exact → a.childNamed n name = some m → m.Exact

theorem Precise.resolve {a : Access Id Location} (ha : a.Precise) {n m : Location} (hn : n.Exact)
    {p : Path} {tags : List String} (h : a.resolve n p tags = some m) : m.Exact :=
  a.follow_induction ha.childAt ha.childNamed hn h

end Access

namespace Store

open Access (Tells Echoes Mirrors run_bind_of_run)

variable {α : Type} {s s' : Store} {held held' : List Handle} {tree : Nat} {h : Handle}
  {n : Location} {n? : Option Location}

/-- What is known with handles held stays known as long as only tables change. -/
structure Knowledge (K : List Handle → Store → Prop) : Prop where
  balanced : ∀ {held s}, K held s → s.Balanced held
  kept : ∀ {held held' s s'}, K held s → s.Later s' → (∀ tree, s'.body? tree = s.body? tree) →
    s'.Balanced held' → K held' s'

variable {K : List Handle → Store → Prop}

namespace Knowledge

theorem node? (hK : Knowledge K) (hs : K held s) (hs' : K held' s') (hl : s.Later s')
    (hn : s.node? h = some n) (hh : h ∈ held') : s'.node? h = some n := by
  have hc := (hK.balanced hs).toCounted
  rw [hc.node?_follows (hK.balanced hs').toCounted hl.toFollows (hc.mem_iff.2 ⟨n, hn⟩)
    (List.mem_append_left _ hh), hn]

theorem taken (hK : Knowledge K) (hs : K held s) (ha : s.Anchored held tree) (n : Location) :
    let r := (Live.use tree n).run s
    K (r.1 :: held) r.2 ∧ s.Later r.2 := by
  obtain ⟨t, ht⟩ := ha.exists_tree (hK.balanced hs).toCounted
  obtain ⟨hb, hl, -, -⟩ := (hK.balanced hs).use ht n
  refine ⟨hK.kept hs hl (fun j => ?_) hb, hl⟩
  rw [run_use ht]
  exact body?_retable ht _ j

theorem use (hK : Knowledge K) (hs : K held s) (ha : s.Anchored held tree) (hn : n.Exact) :
    ∃ c s', (Live.use tree n).run s = (c, s') ∧ K (c :: held) s' ∧ s.Later s' ∧ c.tree = tree ∧
      s'.node? c = some n := by
  obtain ⟨t, ht⟩ := ha.exists_tree (hK.balanced hs).toCounted
  obtain ⟨-, hl, htree, m, hm, hmn⟩ := (hK.balanced hs).use ht n
  rw [hn.eq hmn] at hm
  exact ⟨_, _, rfl, (hK.taken hs ha n).1, hl, htree, hm⟩

theorem release (hK : Knowledge K) (hs : K (h :: held) s) (ha : s.Anchored held h.tree) :
    Tells (K held) s (Live.release h) () := by
  have hb := hK.balanced hs
  obtain ⟨hb', hl⟩ := hb.release ha
  obtain ⟨t, ht⟩ := exists_tree hb.toCounted List.mem_cons_self
  have hbody (j : Nat) : ((Live.release h).run s).2.body? j = s.body? j := by
    rw [run_release hb.toCounted ha]
    exact body?_retable ht _ j
  exact ⟨_, rfl, hK.kept hs hl hbody hb', hl⟩

end Knowledge

def Hands (K : List Handle → Store → Prop) (held : List Handle) (s : Store) (tree : Nat)
    (x : Live (Option Handle)) : Option Location → Prop
  | none => Tells (K held) s x none
  | some n => ∃ c s', x.run s = (some c, s') ∧ K (c :: held) s' ∧ s.Later s' ∧ c.tree = tree ∧
      s'.node? c = some n

theorem tells_ofNode {b a : α} {f : Location → Live α} {K : Store → Prop} (hn : s.node? h = some n)
    (hf : Tells K s (f n) a) : Tells K s (ofNode h b f) a := by
  obtain ⟨s', hrun, hs'⟩ := hf
  exact ⟨s', (run_ofNode_some hn).trans hrun, hs'⟩

theorem hands_found (hK : Knowledge K) (hs : K held s) {f : Location → Live (Option Location)}
    (hn : s.node? h = some n) (hf : Tells (K held) s (f n) n?) (he : ∀ m ∈ n?, m.Exact) :
    Hands K held s h.tree (ofNode h none fun n => do adopt h.tree (← f n)) n? := by
  obtain ⟨s', hrun, hs', hl⟩ := hf
  have hrun' : (ofNode h none fun n => do adopt h.tree (← f n)).run s =
      (adopt h.tree n?).run s' := (run_ofNode_some hn).trans (run_bind_of_run hrun _)
  cases n? with
  | none => exact ⟨s', hrun', hs', hl⟩
  | some m =>
    have ha : s.Anchored held h.tree := (hK.balanced hs).toCounted.anchored hn
    obtain ⟨c, t, huse, ht, hlt, hc⟩ := hK.use hs' (ha.later hl) (he m rfl)
    refine ⟨c, t, ?_, ht, hl.trans hlt, hc⟩
    rw [hrun', adopt, StateT.run_map, huse]
    rfl

section
variable {nodes : Nodes} {a : Access Id Location}

theorem hands_childAt (hK : Knowledge K) (hs : K held s) (hn : s.node? h = some n)
    (he : Echoes (K held) s (nodes h.tree) a) (ha : a.Precise) (hx : n.Exact) (i : Nat) :
    Hands K held s h.tree ((handles nodes).childAt h i) (a.childAt n i) :=
  hands_found hK hs hn (he.childAt n i) fun _ hm => ha.childAt hx hm

theorem hands_childNamed (hK : Knowledge K) (hs : K held s) (hn : s.node? h = some n)
    (he : Echoes (K held) s (nodes h.tree) a) (ha : a.Precise) (hx : n.Exact) (name : String) :
    Hands K held s h.tree ((handles nodes).childNamed h name) (a.childNamed n name) :=
  hands_found hK hs hn (he.childNamed n name) fun _ hm => ha.childNamed hx hm

theorem hands_find (hK : Knowledge K) (hs : K held s) (hn : s.node? h = some n)
    (hm : Mirrors (K held) (nodes h.tree) a) (ha : a.Precise) (hx : n.Exact) (p : Path)
    (tags : List String) : Hands K held s h.tree (find nodes h p tags) (a.resolve n p tags) :=
  hands_found hK hs hn (hm.resolve hs n p tags) fun _ hm => ha.resolve hx hm

theorem tells_segment (hn : s.node? h = some n)
    (he : Echoes (K held) s (nodes h.tree) a) (i : Nat) :
    Tells (K held) s ((handles nodes).segment h i) (a.segment n i) := by
  apply (tells_ofNode hn (he.name n)).bind
  intro s' hs' _
  change Tells _ s' _ (match a.name n with
    | some (name : String) => if name.isEmpty then toString i else name
    | none => toString i : String)
  generalize a.name n = name
  cases name with
  | some name => exact .pure hs' _
  | none => exact .pure hs' _

end

theorem echoes_own {K : Store → Prop} (hs : K s) {c : Content}
    (hc : s.body? tree = some (.own c)) (height : Nat) :
    Echoes K s (nodesUpTo (height + 1) tree) (c.access s.disk) := by
  refine Echoes.choose ?_ (Access.mirrors_lift (c.access s.disk) s hs)
  rw [StateT.run_bind, StateT.run_get, pure_bind, hc]
  rfl

theorem echoes_nodes {K : Store → Prop}
    {a : Access Id Location} (h : Echoes K s (nodesUpTo s.trees.length tree) a) :
    Echoes K s (Live.nodes tree) a :=
  Echoes.choose rfl h

theorem exists_height {b : Body} (hb : s.body? tree = some b) :
    ∃ height, s.trees.length = height + 1 := by
  obtain ⟨t, ht, -⟩ := Option.map_eq_some_iff.1 hb
  exact Nat.exists_eq_succ_of_ne_zero (Nat.ne_zero_of_lt (List.getElem?_eq_some_iff.1 ht).1)

theorem precise_access (c : Content) (d : Disk) : (c.access d).Precise := by
  have hdocument {δ : Type} (f : Document.Form δ) (doc : δ) :
      ((Document.access f doc).disguise .document Location.place?).Precise := by
    refine ⟨fun {n m i} _ h => ?_, fun {n m name} _ h => ?_⟩
    all_goals
      simp only [Access.disguise] at h
      cases hp : n.place? with
      | none =>
        rw [hp] at h
        cases h
      | some q =>
        rw [hp] at h
        obtain ⟨r, -, rfl⟩ := Option.map_eq_some_iff.1 h
        rfl
  cases c with
  | json doc => exact hdocument _ doc
  | yaml doc => exact hdocument _ doc
  | sketch root => exact hdocument _ root
  | files path =>
    -- Only files lead to files.
    refine ⟨fun {n m i} hn h => ?_, fun {n m name} hn h => ?_⟩
    all_goals
      simp only [Content.access, Access.disguise] at h
      rw [show n.file? = none from hn] at h
      cases h
  | empty =>
    refine ⟨fun _ h => ?_, fun _ h => ?_⟩
    · cases h
    · cases h

def Since (before : Store) (held : List Handle) (s : Store) : Prop :=
  s.Balanced held ∧ before.Later s

theorem knowledge_since (before : Store) : Knowledge (Since before) where
  balanced h := h.1
  kept h hl _ hb := ⟨hb, h.2.trans hl⟩

theorem mirrors_since {c : Content} {before : Store} (hc : before.body? tree = some (.own c))
    (held : List Handle) :
    Mirrors (Since before held) (Live.nodes tree) (c.access before.disk) := by
  intro s hs
  have hcs := hs.2.body?_own hc
  obtain ⟨height, hheight⟩ := exists_height hcs
  refine echoes_nodes ?_
  rw [hheight, ← hs.2.disk]
  exact echoes_own hs hcs height

end Store

end AttributeTrees
