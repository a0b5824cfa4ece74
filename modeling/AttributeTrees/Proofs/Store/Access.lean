import AttributeTrees.Proofs.Access.Fair
/-!
# Access to the trees of a store is fair

A node that a handle stands for keeps its tree alive while something is asked about it, and what an
overlay finds in its sources it gives back when it has its answer. So, whatever trees are stacked on
each other, access to them is fair: each child that is handed out is one more handle, and nothing
else changes but what overlays know about names.
-/
namespace AttributeTrees.Store

variable {α β σ : Type} {s : Store} {held taken : List Handle} {tree : Nat} {h : Handle}
  {nodes : Nodes} {given : α → List Handle}

/-- No answer hands out anything that has to be counted. -/
abbrev Quiet (nodes : Nodes) : Prop := ∀ tree, (nodes tree).Fair fun _ => []

def given? (c : Option Handle) : List Handle := c.elim [] fun h => [h]

theorem trades_adopt (tree : Nat) (n? : Option Location) :
    Trades [.tree tree] [] (adopt tree n?) given? := by
  cases n? with
  | none => exact .pure given? none
  | some n => exact (trades_use tree n).map fun _ => rfl

theorem run_ofNode_some {b : α} {f : Location → Live α} {n : Location} (hn : s.node? h = some n) :
    (ofNode h b f).run s = (f n).run s := by
  rw [ofNode, StateT.run_bind, StateT.run_get, pure_bind, hn]

theorem run_ofNode_none {b : α} {f : Location → Live α} (hn : s.node? h = none) :
    (ofNode h b f).run s = (pure b : Live α).run s := by
  rw [ofNode, StateT.run_bind, StateT.run_get, pure_bind, hn]

theorem trades_ofNode {b : α} {f : Location → Live α} (hb : given b = [])
    (hf : ∀ n, Trades [.tree h.tree] [] (f n) given) : Trades [] [] (ofNode h b f) given := by
  intro held s hs ha hc
  cases hn : s.node? h with
  | some n =>
    rw [run_ofNode_some hn]
    exact hf n held s hs ha (List.forall_mem_singleton.2 (hs.toCounted.anchored hn))
  | none =>
    rw [run_ofNode_none hn]
    exact (hb ▸ Trades.pure given b : Trades [] [] (pure b) given) held s hs ha hc

theorem keeps_ofNode (h : Handle) (b : α) {f : Location → Live α} (hf : ∀ n, Keeps [] (f n)) :
    Keeps [] (ofNode h b f) :=
  trades_ofNode rfl fun n => Trades.lend (hf n) (List.nil_subset _)

theorem trades_found {f : Location → Live (Option Location)} (hf : ∀ n, Keeps [] (f n)) :
    Trades [] [] (ofNode h none fun n => do adopt h.tree (← f n)) given? :=
  trades_ofNode rfl fun n => Keeps.bind (hf n) fun n? => trades_adopt h.tree n?

theorem trades_find (hn : Quiet nodes) (h : Handle) (p : Path) (tags : List String) :
    Trades [] [] (find nodes h p tags) given? :=
  trades_found fun n => Access.keeps_option.1 ((hn h.tree).resolve n p tags)

theorem fair_handles (hn : Quiet nodes) : (handles nodes).Fair fun h => [h] where
  name h := keeps_ofNode h none (hn h.tree).name
  preview h := keeps_ofNode h none (hn h.tree).preview
  kind h := keeps_ofNode h Kind.unknown (hn h.tree).kind
  isImmutable h := keeps_ofNode h false (hn h.tree).isImmutable
  isLink h := keeps_ofNode h false (hn h.tree).isLink
  isList h := keeps_ofNode h false (hn h.tree).isList
  childCount h := keeps_ofNode h 0 (hn h.tree).childCount
  childAt h i := trades_found fun n => Access.keeps_option.1 ((hn h.tree).childAt n i)
  childNamed h s := trades_found fun n => Access.keeps_option.1 ((hn h.tree).childNamed n s)
  valueCount h := keeps_ofNode h 0 (hn h.tree).valueCount
  fetch h offset t slots :=
    keeps_ofNode h (0, slots) fun n => (hn h.tree).fetch n offset t slots
  release := trades_release
  size _ := .get fun s => Keeps.pure s.size

theorem keeps_sources (tree : Nat) : Keeps [] (sources tree) := .get fun _ => Keeps.pure _

theorem trades_firstWith (hn : Quiet nodes) (p : Path) (sources : List Handle) :
    Trades [] [] (firstWith nodes p sources) given? := by
  induction sources with
  | nil => exact .pure given? none
  | cons source rest ih =>
    refine Trades.bind (trades_find hn source p []) fun found => ?_
    cases found with
    | some h => exact .pure given? (some h)
    | none => exact ih

theorem trades_allWith (hn : Quiet nodes) (p : Path) (sources : List Handle) :
    Trades [] [] (allWith nodes p sources) id := by
  induction sources with
  | nil => exact .pure id []
  | cons source rest ih =>
    refine Trades.gain (trades_find hn source p []) fun found => Trades.gain ih fun more => ?_
    refine (Trades.pure id (found.toList ++ more)).perm ?_
    rw [List.append_nil]
    have hf : given? found = found.toList := by cases found <;> rfl
    exact hf ▸ List.perm_append_comm

theorem keeps_fromFirst (hn : Quiet nodes) (tree : Nat) (p : Path) (b : α) {f : Handle → Live α}
    (hf : ∀ h, Keeps [] (f h)) : Keeps [] (fromFirst nodes tree p b f) := by
  refine Keeps.bind (keeps_sources tree) fun sources => ?_
  refine Trades.bind (trades_firstWith hn p sources) fun found => ?_
  cases found with
  | some h =>
    exact Trades.gain (hf h) fun _ => (trades_release h).bind fun _ => Keeps.pure _
  | none => exact Keeps.pure b

theorem trades_collectNames (hn : Quiet nodes) (found : List Handle) (names : List String) :
    Trades [] found (collectNames nodes found names) fun _ => [] := by
  have ha := fair_handles hn
  induction found generalizing names with
  | nil => exact Keeps.pure names
  | cons h rest ih =>
    refine Trades.gain (ha.foldChildren h (fun i child names => ?_) names) fun names => ?_
    · exact Keeps.bind (ha.segment child i) fun _ => Keeps.pure _
    · exact (trades_release h).spend fun _ => ih names

theorem unlisted_note (p : Path) (names : List String) (b : Body) :
    unlisted (b.note p names) = unlisted b := by
  cases b <;> rfl

theorem sources_note (p : Path) (names : List String) (b : Body) :
    (b.note p names).sources = b.sources := by
  cases b <;> rfl

theorem keeps_note (tree : Nat) (p : Path) (names : List String) :
    Keeps [] (modify fun s => s.modifyTree tree fun t =>
      { t with body := t.body.note p names }) := by
  intro held s hs _ _
  cases ht : s.trees[tree]? with
  | none =>
    have hself : (s.modifyTree tree fun t => { t with body := t.body.note p names }) = s := by
      unfold modifyTree
      rw [List.modify_eq_self (List.getElem?_eq_none_iff.1 ht)]
    change Outcome held s _ ((), s.modifyTree tree _)
    rw [hself]
    exact ⟨hs, .refl s, nofun⟩
  | some t =>
    have hsame : (t.body.note p names).sources = t.body.sources := sources_note p names t.body
    refine ⟨hs.modifyTree ht rfl (hsame ▸ .refl _) ?_, ?_, nofun⟩
    · have hk := hs.kept t (List.mem_of_getElem? ht)
      exact hk.imp_left hsame.trans
    · refine later_modifyTree ht ?_ (Nat.le_refl _) fun _ _ => .inl rfl
      exact congrArg (·, t.holders) (unlisted_note p names t.body)

theorem keeps_childNames (hn : Quiet nodes) (tree : Nat) (p : Path) :
    Keeps [] (childNames nodes tree p) := by
  refine .get fun s => ?_
  split
  · exact Keeps.pure _
  · refine Keeps.bind (keeps_sources tree) fun sources => ?_
    refine Trades.bind (trades_allWith hn p sources) fun found => ?_
    refine Trades.bind (trades_collectNames hn found []) fun names => ?_
    exact Keeps.bind (keeps_note tree p names) fun _ => Keeps.pure names

theorem fair_overlay (hn : Quiet nodes) (tree : Nat) : (overlay nodes tree).Fair fun _ => [] :=
  have ha := fair_handles hn
  have hnames := keeps_childNames hn tree
  { name := fun _ => Keeps.pure _
    preview := fun p => keeps_fromFirst hn tree p none ha.preview
    kind := fun p => keeps_fromFirst hn tree p Kind.unknown ha.kind
    isImmutable := fun p => keeps_fromFirst hn tree p false ha.isImmutable
    isLink := fun p => keeps_fromFirst hn tree p false ha.isLink
    isList := fun _ => Keeps.pure false
    childCount := fun p => Keeps.bind (hnames p) fun _ => Keeps.pure _
    childAt := fun p _ => Access.keeps_option.2 <| Keeps.bind (hnames p) fun _ => Keeps.pure _
    childNamed := fun p _ => Access.keeps_option.2 <| Keeps.bind (hnames p) fun _ => Keeps.pure _
    valueCount := fun p => keeps_fromFirst hn tree p 0 ha.valueCount
    fetch := fun p offset t slots =>
      keeps_fromFirst hn tree p (0, slots) fun h => ha.fetch h offset t slots
    release := fun _ => Keeps.pure ()
    size := fun _ => .get fun s => Keeps.pure s.size }

theorem quiet_nodesUpTo (height : Nat) : Quiet (nodesUpTo height) := by
  induction height with
  | zero => exact fun _ => Access.fair_nothing
  | succ height ih =>
    intro tree
    refine Access.fair_choose fun s => ?_
    rw [StateT.run_bind, StateT.run_get, pure_bind]
    split
    · exact ⟨rfl, (fair_overlay ih tree).disguise _ _⟩
    · exact ⟨rfl, Access.fair_lift _⟩
    · exact ⟨rfl, Access.fair_nothing⟩

theorem quiet_nodes : Quiet Live.nodes := fun tree =>
  Access.fair_choose fun s => ⟨rfl, quiet_nodesUpTo s.trees.length tree⟩

/-- Asking about nodes by their handles hands out the handles of children and nothing else. -/
theorem fair_access : Live.access.Fair fun h => [h] := fair_handles quiet_nodes

theorem trades_liveFind (h : Handle) (p : Path) (tags : List String) :
    Trades [] [] (Live.find h p tags) given? :=
  trades_find quiet_nodes h p tags

theorem keeps_valueAt (h : Handle) (p : Path) (tags : List String) (t : Element) :
    Keeps [] (Live.valueAt h p tags t) := by
  refine Trades.bind (trades_liveFind h p tags) fun found => ?_
  cases found with
  | some n =>
    exact Trades.gain (fair_access.first n t) fun _ => (trades_release n).bind fun _ => Keeps.pure _
  | none => exact Keeps.pure _

theorem keeps_hasValue (h : Handle) (p : Path) (tags : List String) :
    Keeps [] (Live.hasValue h p tags) := by
  refine Trades.bind (trades_liveFind h p tags) fun found => ?_
  cases found with
  | some n =>
    exact Trades.gain (fair_access.valueCount n) fun _ =>
      (trades_release n).bind fun _ => Keeps.pure _
  | none => exact Keeps.pure _

end AttributeTrees.Store
