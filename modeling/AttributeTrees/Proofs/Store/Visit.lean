import AttributeTrees.Proofs.Access.Answers
import AttributeTrees.Proofs.Document.Depiction
import AttributeTrees.Proofs.Store.Access
import AttributeTrees.Proofs.Store.Tally
/-!
# Visits of documents

A tree that is a document by itself answers from the document. A visit of it hands over what the
document shows, although every child on the way is a handle that is taken and given back.
-/
namespace AttributeTrees.Store

open Access (Says Answers)
open Document (Depiction Form Place)
open Visit (Tree Visitor)

variable {β δ σ : Type} {f : Form δ} {doc : δ} {s s' : Store} {held : List Handle} {h : Handle}
  {place : Place} {tree : Nat}

def Holds (s : Store) (tree : Nat) (f : Form δ) (doc : δ) : Prop :=
  ∃ c, s.body? tree = some (.own c) ∧
    c.access s.disk = (Document.access f doc).disguise .document Location.place? ∧
    c.root s.disk = .document [] ∧ c.size = f.size doc

def Stands (f : Form δ) (doc : δ) (s : Store) (h : Handle) (place : Place) : Prop :=
  Holds s h.tree f doc ∧ s.node? h = some (.document place)

theorem Holds.later (hs : Holds s tree f doc) (hl : s.Later s') : Holds s' tree f doc := by
  obtain ⟨c, hc, h⟩ := hs
  exact ⟨c, hl.body?_own hc, hl.disk ▸ h⟩

theorem Stands.later (hs : Stands f doc s h place) {held' : List Handle} (hc : s.Counted held)
    (hc' : s'.Counted held') (hl : s.Later s') (hh : h ∈ held') : Stands f doc s' h place := by
  refine ⟨hs.1.later hl, ?_⟩
  rw [hc.node?_follows hc' hl.toFollows (hc.mem_iff.2 ⟨_, hs.2⟩) (List.mem_append_left _ hh)]
  exact hs.2

theorem run_nodes {c : Content} (hc : s.body? tree = some (.own c))
    (q : Access Live Location → Live β) (hq : ∀ pick, q (.choose pick) = pick >>= q) :
    (q (Live.nodes tree)).run s = (q (Access.lift (c.access s.disk))).run s := by
  obtain ⟨t, ht, -⟩ := Option.map_eq_some_iff.1 hc
  obtain ⟨height, hheight⟩ := Nat.exists_eq_add_of_lt
    (Nat.zero_lt_of_lt (List.getElem?_eq_some_iff.1 ht).1)
  rw [Live.nodes, hq]
  change (q (nodesUpTo s.trees.length tree)).run s = _
  rw [hheight, Nat.zero_add, nodesUpTo, hq, StateT.run_bind, StateT.run_bind, StateT.run_get,
    pure_bind, hc]
  rfl

theorem run_own {c : Content} {n : Location} (hc : s.body? h.tree = some (.own c))
    (hn : s.node? h = some n) (b : β) (q : Access Live Location → Location → Live β)
    (hq : ∀ pick n, q (.choose pick) n = pick >>= (q · n)) :
    (ofNode h b (q (Live.nodes h.tree))).run s = (q (Access.lift (c.access s.disk)) n).run s := by
  rw [← run_nodes hc (q · n) fun pick => hq pick n]
  exact run_ofNode_some hn

theorem answers_own {c : Content} {n : Location} (hc : s.body? h.tree = some (.own c))
    (hn : s.node? h = some n) : Answers Live.access h (c.access s.disk) n s where
  kind := run_own hc hn Kind.unknown (fun a n => a.kind n) fun _ _ => rfl
  isLink := run_own hc hn false (fun a n => a.isLink n) fun _ _ => rfl
  isList := run_own hc hn false (fun a n => a.isList n) fun _ _ => rfl
  childCount := run_own hc hn 0 (fun a n => a.childCount n) fun _ _ => rfl
  valueCount := run_own hc hn 0 (fun a n => a.valueCount n) fun _ _ => rfl
  fetch offset t slots :=
    run_own hc hn (0, slots) (fun a n => a.fetch n offset t slots) fun _ _ => rfl

theorem Stands.run_ofNode (hs : Stands f doc s h place) (b : β)
    (q : Access Live Location → Location → Live β)
    (hq : ∀ pick n, q (.choose pick) n = pick >>= (q · n)) :
    (ofNode h b (q (Live.nodes h.tree))).run s =
      (q (Access.lift ((Document.access f doc).disguise .document Location.place?))
        (.document place)).run s := by
  obtain ⟨⟨c, hc, ha, -⟩, hn⟩ := hs
  rw [← ha]
  exact run_own hc hn b q hq

theorem Stands.answers (hs : Stands f doc s h place) :
    Answers Live.access h (Document.access f doc) place s := by
  obtain ⟨⟨c, hc, ha, -⟩, hn⟩ := hs
  have hanswers := answers_own hc hn
  rw [ha] at hanswers
  exact ⟨hanswers.kind, hanswers.isLink, hanswers.isList, hanswers.childCount,
    hanswers.valueCount, hanswers.fetch⟩

theorem Stands.answers_part {v : δ} (hs : Stands f doc s h place)
    (hv : Document.at? f doc place = some v) :
    Answers Live.access h (Document.access f v) [] s where
  kind := by simpa [Document.access, hv] using hs.answers.kind
  isLink := by simpa [Document.access, hv] using hs.answers.isLink
  isList := by simpa [Document.access, hv] using hs.answers.isList
  childCount := by simpa [Document.access, hv] using hs.answers.childCount
  valueCount := by simpa [Document.access, hv] using hs.answers.valueCount
  fetch offset t slots := by
    simpa [Document.access, Document.fetch, hv] using hs.answers.fetch offset t slots

theorem Stands.says_name (hs : Stands f doc s h place) :
    Says (Live.access.name h) s (Document.name? f doc place) :=
  hs.run_ofNode none (fun a n => a.name n) fun _ _ => rfl

theorem Stands.run_childAt (hs : Stands f doc s h place) (i : Nat) :
    (Live.access.childAt h i).run s =
      (adopt h.tree ((Document.childAt? f doc place i).map .document)).run s :=
  hs.run_ofNode none (fun a n => do adopt h.tree (← a.childAt n i)) fun _ _ => rfl

theorem Holds.use (hh : Holds s tree f doc) (hs : s.Balanced held) (ha : s.Anchored held tree)
    (place : Place) : ∃ c s', (Live.use tree (.document place)).run s = (c, s') ∧
      s'.Balanced (c :: held) ∧ s.Later s' ∧ s'.Anchored held c.tree ∧ Stands f doc s' c place := by
  obtain ⟨t, ht⟩ := ha.exists_tree hs.toCounted
  obtain ⟨hb, hl, htree, m, hm, hmn⟩ := hs.use ht (.document place)
  have hnode : m = .document place := by
    cases m with
    | document q => exact congrArg Location.document (eq_of_beq (α := Place) hmn)
    | file node => cases hmn
    | stacked p => cases hmn
  rw [hnode] at hm
  let r := (Live.use tree (.document place)).run s
  have ha' : r.2.Anchored held r.1.tree := by
    rw [htree]
    exact ha.later hl
  have hh' : r.2.Holds r.1.tree f doc := by
    rw [htree]
    exact hh.later hl
  exact ⟨r.1, r.2, rfl, hb, hl, ha', hh', hm⟩

theorem Stands.childAt (d : Depiction f) {v : δ} {i : Nat} {child : Option String × δ}
    (hs : s.Balanced held) (hh : Stands f doc s h place)
    (hv : Document.at? f doc place = some v) (hc : (d.children v)[i]? = some child) :
    ∃ c s', (Live.access.childAt h i).run s = (some c, s') ∧ s'.Balanced (c :: held) ∧
      s.Later s' ∧ s'.Anchored held c.tree ∧ Stands f doc s' c (place ++ [i]) := by
  obtain ⟨c, s', hrun, h'⟩ := hh.1.use hs (hs.toCounted.anchored hh.2) (place ++ [i])
  refine ⟨c, s', ?_, h'⟩
  rw [hh.run_childAt, d.childAt?_child hv hc]
  change (some <$> Live.use h.tree (.document (place ++ [i]))).run s = _
  rw [StateT.run_map, hrun]
  rfl

variable {vis : Visitor σ} {F : Nat → Handle → σ → Live σ} {G : Nat → Option String × δ → σ → σ}

theorem Stands.visitChildren (d : Depiction f) {v : δ}
    (hF : ∀ i child, (d.children v)[i]? = some child → ∀ held s c st, s.Balanced held → c ∈ held →
      Stands f doc s c (place ++ [i]) → ((F i c st).run s).1 = G i child st)
    (hK : ∀ i c st, Keeps [] (F i c st)) (hv : Document.at? f doc place = some v)
    (hh : h ∈ held) {rest : List (Option String × δ)} {i : Nat} {st : σ}
    (hrest : (d.children v).drop i = rest) (hs : s.Balanced held) (hst : Stands f doc s h place) :
    ((Live.access.visitChildren vis h F rest.length i st).run s).1 =
      Document.each vis G i rest st := by
  induction rest generalizing i st s with
  | nil => rfl
  | cons child rest ih =>
    have hc : (d.children v)[i]? = some child := by
      rw [← List.head?_drop, hrest]
      rfl
    have hnext : (d.children v).drop (i + 1) = rest := by
      rw [← List.tail_drop, hrest]
      rfl
    -- The child's handle is held while the child is visited, and is released behind it.
    obtain ⟨c, s₁, hrun, hb₁, hl₁, ha₁, hst₁⟩ := hst.childAt d hs hv hc
    rw [List.length_cons, Access.visitChildren, StateT.run_bind, hrun, Document.each]
    change ((if vis.wantsMore st then _ else _ : Live σ).run s₁).1 = _
    split
    · have ho := hK i c st (c :: held) s₁ hb₁ (List.forall_mem_nil _) (List.forall_mem_nil _)
      have hval := hF i child hc (c :: held) s₁ c st hb₁ List.mem_cons_self hst₁
      obtain ⟨hb₃, hl₃⟩ := ho.balanced.release (ha₁.later ho.later)
      have hl := (hl₁.trans ho.later).trans hl₃
      rw [StateT.run_bind]
      change ((Live.access.visitChildren vis h F rest.length (i + 1) ((F i c st).run s₁).1).run
        ((Live.release c).run ((F i c st).run s₁).2).2).1 = _
      rw [hval]
      exact ih hnext hb₃ (hst.later hs.toCounted hb₃.toCounted hl hh)
    · rfl

theorem Stands.visitNode (d : Depiction f) (vis : Visitor σ) (depth : Nat) {v : δ} {st : σ}
    (hv : Document.at? f doc place = some v) (hd : f.size v < depth) (hh : h ∈ held)
    (hs : s.Balanced held) (hst : Stands f doc s h place) :
    ((Live.access.visitNode vis depth h st).run s).1 = (d.shown v).hand vis st := by
  induction depth generalizing place v st h held s with
  | zero => cases hd
  | succ depth ih =>
    -- Each question of the visit is answered as the value answers it by itself.
    have ha := hst.answers_part hv
    have hlink : Says (Live.access.isLink h) s false := d.isLink v ▸ ha.isLink
    have hlist : Says (Live.access.isList h) s (f.isList v) := ha.isList
    have hcount : Says (Live.access.childCount h) s (d.children v).length :=
      d.childCount v ▸ ha.childCount
    have hkind : Says (Live.access.kind h) s (f.kind v) := ha.kind
    have hsmall {i : Nat} {child : Option String × δ} (hc : (d.children v)[i]? = some child) :
        f.size child.2 < depth :=
      Nat.lt_of_lt_of_le (d.smaller v child (List.mem_of_getElem? hc)) (Nat.le_of_lt_succ hd)
    rw [Access.visitNode, hlink.run_bind]
    change (StateT.run (Live.access.isList h >>= _) s).1 = _
    rw [hlist.run_bind]
    cases hL : f.isList v with
    | true =>
      change (StateT.run (Live.access.childCount h >>= _) s).1 = _
      rw [hcount.run_bind, d.list v hL, Tree.hand, ← Document.each_items]
      refine congrArg (vis.receive · .leaveList) ?_
      refine hst.visitChildren d (fun i child hc held s c st hs hmem hst => ?_) (fun i c st => ?_)
        hv hh List.drop_zero hs
      · exact ih (d.at?_child hv hc) (hsmall hc) hmem hs hst
      · exact fair_access.visitNode vis depth c st
    | false =>
      have hstruct : Says (Live.access.isStruct h) s
          (f.childCount v != 0 || f.kind v == .composite) := by
        refine Says.bind (d.childCount v ▸ hcount) ?_
        cases f.childCount v != 0 with
        | true => rfl
        | false => exact hkind.bind rfl
      change (StateT.run (Live.access.isStruct h >>= _) s).1 = _
      rw [hstruct.run_bind]
      cases hS : (f.childCount v != 0 || f.kind v == .composite) with
      | true =>
        change (StateT.run (Live.access.childCount h >>= _) s).1 = _
        have hor : f.childCount v ≠ 0 ∨ f.kind v = .composite := by simpa using hS
        rw [hcount.run_bind, d.struct v hL hor, Tree.hand, ← Document.each_members]
        refine congrArg (vis.receive · .leaveStruct) ?_
        refine hst.visitChildren d (fun i child hc held s c st hs hmem hst => ?_)
          (fun i c st => ?_) hv hh List.drop_zero hs
        · have hlabel : Says (Live.access.segment c i) s (Document.label child.1 i) := by
            refine Says.bind (d.name?_child hv hc ▸ hst.says_name) ?_
            cases child.1 <;> rfl
          rw [hlabel.run_bind]
          refine congrArg (vis.receive · (.leaveAttribute _)) ?_
          exact ih (d.at?_child hv hc) (hsmall hc) hmem hs hst
        · refine Keeps.bind (fair_access.segment c i) fun _ => ?_
          exact Keeps.bind (fair_access.visitNode vis depth c _) fun _ => Keeps.pure _
      | false =>
        obtain ⟨hzero, hscalar⟩ : f.childCount v = 0 ∧ f.kind v ≠ .composite := by simpa using hS
        rw [d.leaf v hL hzero hscalar, Tree.hand]
        change (StateT.run (Live.access.run h >>= _) s).1 = _
        rw [ha.run.run_bind]
        rfl

theorem Holds.size_le (hh : Holds s tree f doc) : f.size doc ≤ s.size := by
  obtain ⟨c, hc, -, -, hsize⟩ := hh
  obtain ⟨t, ht, hb⟩ := Option.map_eq_some_iff.1 hc
  have hmem : t.body.size ∈ s.trees.map fun t => t.body.size :=
    List.mem_map_of_mem (List.mem_of_getElem? ht)
  rw [hb] at hmem
  exact hsize ▸ Document.le_total id (List.foldr (· + ·) s.disk.size) (fun _ _ => rfl) hmem

/-- A visit of a document hands over what it shows, between a start and a finish. -/
theorem Holds.visit (d : Depiction f) (vis : Visitor σ) (st : σ) (hh : Holds s tree f doc)
    (hs : s.Balanced held) (ha : s.Anchored held tree) :
    let q := vis.receive ((d.shown doc).hand vis (vis.receive st .start)) .finish
    ((Live.atRoot tree fun h => Live.access.visit vis h st).run s).1 = (vis.verdict q, q) := by
  obtain ⟨c, hc, -, hroot, -⟩ := id hh
  obtain ⟨h, s', hrun, hb, hl, -, hst⟩ := hh.use hs ha []
  have hr : (Live.root tree).run s = (h, s') := by
    rw [Live.root, StateT.run_bind, StateT.run_get, pure_bind, hc, ← hrun]
    exact congrArg (fun n => (Live.use tree n).run s) hroot
  have hn : ((Live.access.visitNode vis (s'.size + 1) h (vis.receive st .start)).run s').1 = _ :=
    hst.visitNode d vis (s'.size + 1) rfl (Nat.lt_succ_of_le hst.1.size_le) List.mem_cons_self hb
  rw [Live.atRoot, StateT.run_bind, hr]
  change (vis.verdict (vis.receive ((Live.access.visitNode vis (s'.size + 1) h
    (vis.receive st .start)).run s').1 .finish), _) = _
  rw [← hn]
  rfl

end AttributeTrees.Store
