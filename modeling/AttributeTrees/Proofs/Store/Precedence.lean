import AttributeTrees.Proofs.Document.Leading
import AttributeTrees.Proofs.Store.Merging
import AttributeTrees.Proofs.Store.Stopping
/-!
# Where the children of an overlay come from

An overlay on documents lists a child where one of them lists it, and answers for it from the
uppermost document in which its name leads on, if only by an index. Main statement: a child that is
handed out is listed by a source, the sources that list it have it, and the first that has it
answers for it.
-/
namespace AttributeTrees.Store

open Json (Value)

variable {s : Store} {held sources upper lower : List Handle} {tree : Nat} {source h : Handle}
  {view : Nat → Access Id Location} {d : Disk} {p : Path} {c : Content} {m n child : Location}
  {name : String} {S : Sight} {rank : Nat → Nat} {listings : List (Path × List String)}

def reply (s : Store) (h : Handle) : Reply where
  kind := ((Live.access.kind h).run s).1
  valueCount := ((Live.access.valueCount h).run s).1
  preview := ((Live.access.preview h).run s).1
  fetch offset t slots := ((Live.access.fetch h offset t slots).run s).1

structure Reaches (s : Store) (source : Handle) (p : Path) (c : Content) (m : Location) : Prop where
  body : s.body? source.tree = some (.own c)
  way : ∃ n, s.node? source = some n ∧ (c.access s.disk).resolve n p [] = some m

def Lists (s : Store) (source : Handle) (p : Path) (name : String) (c : Content)
    (child : Location) : Prop :=
  ∃ m, s.Reaches source p c m ∧ (c.access s.disk).Lists m name child

def Leads (s : Store) (source : Handle) (p : Path) (name : String) (c : Content)
    (child : Location) : Prop :=
  ∃ m, s.Reaches source p c m ∧ (c.access s.disk).Leads m name (c.indexed s.disk m) child

/-- A child without a name, where children are not found by index. -/
def Hidden (s : Store) (source : Handle) (p : Path) (c : Content) (child : Location) : Prop :=
  ∃ m, s.Reaches source p c m ∧ c.indexed s.disk m = false ∧
    ((c.access s.disk).name child = none ∨ (c.access s.disk).name child = some "")

theorem reply_of_node (hs : Steady S rank held s) (hn : s.node? h = some n) :
    s.reply h = (S.access h.tree).reply n := by
  have hecho := mirrors_nodes S rank h.tree held s hs
  apply Reply.ext
  · exact (tells_ofNode (b := Kind.unknown) hn (hecho.kind n)).answer
  · exact (tells_ofNode (b := 0) hn (hecho.valueCount n)).answer
  · exact (tells_ofNode (b := none) hn (hecho.preview n)).answer
  · funext offset t slots
    exact (tells_ofNode (f := fun n => (Live.nodes h.tree).fetch n offset t slots)
      (b := (0, slots)) hn (hecho.fetch n offset t slots)).answer

theorem name_of_node (hs : Steady S rank held s) (hn : s.node? h = some n) :
    ((Live.access.name h).run s).1 = (S.access h.tree).name n :=
  (tells_ofNode (b := none) hn ((mirrors_nodes S rank h.tree held s hs).name n)).answer

theorem IsDocument.exists_own {tree : Nat} (h : s.IsDocument tree) :
    ∃ c, s.body? tree = some (.own c) := by
  rcases h with ⟨document, hbody⟩ | ⟨document, hbody⟩
  · exact ⟨_, hbody⟩
  · exact ⟨_, hbody⟩

theorem Lists.body (h : s.Lists source p name c child) : s.body? source.tree = some (.own c) := by
  obtain ⟨m, hm, -⟩ := h
  exact hm.body

theorem lists_of_mem_segments {l : Layer} (h : name ∈ l.segments view) :
    ∃ child, (view l.tree).Lists l.node name child := by
  obtain ⟨⟨i, child⟩, hmem, hsegment⟩ := List.mem_map.1 h
  obtain ⟨j, -, hj⟩ := List.mem_filterMap.1 hmem
  obtain ⟨other, hchild, he⟩ := Option.map_eq_some_iff.1 hj
  cases he
  exact ⟨child, i, hchild, hsegment⟩

def layerAt (view : Nat → Access Id Location) (s : Store) (p : Path) (source : Handle) :
    Option Layer :=
  ((s.node? source).map (Layer.mk source.tree)).bind (Layer.reach view p)

theorem topmost_layers (hsrc : sources = upper ++ source :: lower)
    (hupper : ∀ above ∈ upper, layerAt view s p above = none) {l : Layer}
    (hl : layerAt view s p source = some l) {α : Type} (default : α)
    (f : Access Id Location → Location → α) :
    Layer.topmost view (s.layers sources) p default f = f (view l.tree) l.node := by
  have hhead : ((s.layers sources).filterMap (Layer.reach view p)).head? = some l := by
    rw [layers, List.filterMap_filterMap, List.head?_filterMap]
    change sources.findSome? (layerAt view s p) = _
    rw [hsrc, List.findSome?_append, List.findSome?_eq_none_iff.2 hupper, Option.none_or,
      List.findSome?_cons, hl]
  rw [Layer.topmost, hhead]

theorem layerAt_eq_some_iff (hs : Steady S rank held s)
    (hbody : s.body? source.tree = some (.own c)) {l : Layer} :
    layerAt S.access s p source = some l ↔
      l.tree = source.tree ∧ s.Reaches source p c l.node := by
  unfold layerAt Layer.reach
  simp only [Option.bind_eq_some_iff, Option.map_eq_some_iff]
  constructor
  · rintro ⟨-, ⟨n, hn, rfl⟩, m, hm, rfl⟩
    rw [hs.shows.own hbody] at hm
    exact ⟨rfl, hbody, n, hn, hm⟩
  · rintro ⟨htree, -, n, hn, hm⟩
    refine ⟨_, ⟨n, hn, rfl⟩, l.node, ?_, ?_⟩
    · rw [hs.shows.own hbody]
      exact hm
    · rw [← htree]

theorem resolve_push (a : Access Id Location) (n : Location) (p : Path) (name : String) :
    a.resolve n (p.push name) [] =
      Option.bind (a.resolve n p []) fun m => a.step m name [] := by
  change a.follow [] n (p.segments ++ [name]) = _
  rw [a.follow_append]
  congr 1
  funext m
  rw [a.follow_cons]
  cases a.step m name [] <;> rfl

theorem reaches_push (hdoc : s.IsDocument source.tree) :
    s.Reaches source (p.push name) c child ↔ s.Leads source p name c child := by
  have hform (hbody : s.body? source.tree = some (.own c)) :
      (∃ document, c = .json document) ∨ ∃ document, c = .yaml document := by
    rcases hdoc with ⟨document, hdoc⟩ | ⟨document, hdoc⟩
    · cases hbody.symm.trans hdoc
      exact .inl ⟨document, rfl⟩
    · cases hbody.symm.trans hdoc
      exact .inr ⟨document, rfl⟩
  constructor
  · rintro ⟨hbody, n, hn, hway⟩
    rw [resolve_push] at hway
    obtain ⟨m, hm, hstep⟩ := Option.bind_eq_some_iff.1 hway
    exact ⟨m, ⟨hbody, n, hn, hm⟩, (Content.step_eq_some_iff (hform hbody)).1 hstep⟩
  · rintro ⟨m, ⟨hbody, n, hn, hm⟩, hleads⟩
    refine ⟨hbody, n, hn, ?_⟩
    rw [resolve_push]
    exact Option.bind_eq_some_iff.2 ⟨m, hm, (Content.step_eq_some_iff (hform hbody)).2 hleads⟩

theorem Lists.leads (h : s.Lists source p name c child) (hc : (c.access s.disk).Countable) :
    (∃ other, s.Leads source p name c other ∧ s.Lists source p name c other) ∨
      s.Hidden source p c child := by
  obtain ⟨m, hm, hlists⟩ := h
  rcases Access.Lists.leads hlists hc (c.indexed s.disk m) with ⟨other, hleads, hother⟩ | hhidden
  · exact .inl ⟨other, ⟨m, hm, hleads⟩, m, hm, hother⟩
  · exact .inr ⟨m, hm, hhidden⟩

theorem exists_lists (hs : Steady S rank held s) (hdoc : ∀ source ∈ sources,
      ∃ c, s.body? source.tree = some (.own c))
    (h : name ∈ Layer.merged S.access (s.layers sources) p) :
    ∃ source ∈ sources, ∃ c child, s.Lists source p name c child := by
  obtain ⟨l, hl, m, hm, hname⟩ := Layer.mem_merged.1 h
  obtain ⟨source, hsource, htree, hn⟩ := mem_layers hl
  obtain ⟨c, hbody⟩ := hdoc source hsource
  obtain ⟨t, n⟩ := l
  obtain rfl : t = source.tree := htree
  have hlayer : layerAt S.access s p source = some m := by
    rw [layerAt, hn]
    exact hm
  obtain ⟨hmtree, hreaches⟩ := (layerAt_eq_some_iff hs hbody).1 hlayer
  obtain ⟨child, hlists⟩ := lists_of_mem_segments hname
  rw [hmtree, hs.shows.own hbody] at hlists
  exact ⟨source, hsource, c, child, m.node, hreaches, hlists⟩

theorem reply_stack (hs : Steady S rank held s) (hsrc : sources = upper ++ source :: lower)
    (hupper : ∀ above ∈ upper, layerAt S.access s p above = none)
    (hbody : s.body? source.tree = some (.own c)) (hm : s.Reaches source p c m)
    (names : Path → List String) : (Layer.stack S.access (s.layers sources) names).reply p =
      (c.access s.disk).reply m := by
  have hlayer : layerAt S.access s p source = some ⟨source.tree, m⟩ :=
    (layerAt_eq_some_iff hs hbody).2 ⟨rfl, hm⟩
  have htop {α : Type} (default : α) (f : Access Id Location → Location → α) :
      Layer.topmost S.access (s.layers sources) p default f = f (c.access s.disk) m := by
    rw [topmost_layers hsrc hupper hlayer, hs.shows.own hbody]
  apply Reply.ext
  · exact htop Kind.unknown (·.kind)
  · exact htop 0 (·.valueCount)
  · exact htop none (·.preview)
  · funext offset t slots
    exact htop (0, slots) fun a n => a.fetch n offset t slots

theorem layerAt_push_eq_none (hs : Steady S rank held s) (hdoc : s.IsDocument source.tree)
    (h : ∀ c child, ¬ s.Leads source p name c child) :
    layerAt S.access s (p.push name) source = none := by
  obtain ⟨c, hbody⟩ := hdoc.exists_own
  rw [Option.eq_none_iff_forall_ne_some]
  intro l hl
  obtain ⟨-, hreaches⟩ := (layerAt_eq_some_iff hs hbody).1 hl
  exact h c l.node ((reaches_push hdoc).1 hreaches)

/-- The name of a child that an overlay lists is listed by a source. A source that lists it has a
child for it, unless the child is hidden. The first source that has one answers for the child of
the overlay. -/
theorem child_from_source {σ : Session} {stale : Nat → Path → Prop} (hσ : Session.Course d σ stale)
    (hb : σ.store.body? h.tree = some (.overlay sources listings))
    (hdoc : ∀ source ∈ sources, σ.store.IsDocument source.tree)
    (hcount : ∀ source ∈ sources, ∀ c, σ.store.body? source.tree = some (.own c) →
      (c.access σ.store.disk).Countable)
    (hn : σ.store.node? h = some (.stacked p)) {i : Nat}
    (hi : i < ((Live.access.childCount h).run σ.store).1) :
    ∃ g s' name, (Live.access.childAt h i).run σ.store = (some g, s') ∧
      ((Live.access.name g).run s').1 = some name ∧
      (∃ source ∈ sources, ∃ c child, σ.store.Lists source p name c child) ∧
      (∀ source ∈ sources, ∀ c child, σ.store.Lists source p name c child →
        (∃ other, σ.store.Leads source p name c other ∧ σ.store.Lists source p name c other) ∨
          σ.store.Hidden source p c child) ∧
      ∀ upper source lower, sources = upper ++ source :: lower →
        (∀ above ∈ upper, ∀ c child, ¬ σ.store.Leads above p name c child) →
        ∀ c child, σ.store.Leads source p name c child →
          s'.reply g = (c.access σ.store.disk).reply child := by
  obtain ⟨S, rank, hf⟩ := hσ.exists_faithful
  have hs := hf.steady
  have hown := fun source hsource => (hdoc source hsource).exists_own
  -- documents do not change, so the list that the overlay keeps is what they list now
  have hnames : S.names h.tree p = Layer.merged S.access (σ.store.layers sources) p :=
    hf.fresh hb p (not_stale hf hb hown p)
  rw [answer_childCount hs hb hn] at hi
  obtain ⟨name, hname⟩ : ∃ name, (S.names h.tree p)[i]? = some name :=
    ⟨_, List.getElem?_eq_getElem hi⟩
  have hhands := hands_childAt_stacked hs hb hn i
  rw [hname] at hhands
  obtain ⟨g, s', hrun, hs', -, htree, hgn⟩ := hhands
  have haccess := hs.shows.overlay hb
  refine ⟨g, s', name, hrun, ?_, ?_, ?_, ?_⟩
  · rw [name_of_node hs' hgn, htree, haccess]
    exact Path.last?_push p name
  · exact exists_lists hs hown (hnames ▸ List.mem_of_getElem? hname)
  · intro source hsource c child hlists
    exact hlists.leads (hcount source hsource c hlists.body)
  · intro upper source lower hsrc hupper c child hleads
    have hsource : source ∈ sources := by simp [hsrc]
    have hreaches := (reaches_push (hdoc source hsource)).2 hleads
    have hnone : ∀ above ∈ upper, layerAt S.access σ.store (p.push name) above = none := by
      intro above habove
      have hmem : above ∈ sources := by simp [hsrc, habove]
      exact layerAt_push_eq_none hs (hdoc above hmem) (hupper above habove)
    rw [reply_of_node hs' hgn, htree, haccess]
    exact reply_stack hs hsrc hnone hreaches.body hreaches (S.names h.tree)

def numbered : Value := .object [("0", .string "zero")]

def lettered : Value := .object [("x", .whole ⟨1, by decide⟩)]

def numberedBelow : Session :=
  (overlaid numbered lettered).after (Live.root 2) fun h => [h]

theorem course_numberedBelow : ∃ stale, Session.Course .empty numberedBelow stale := by
  obtain ⟨stale, hσ⟩ := course_overlaid numbered lettered
  exact ⟨stale, hσ.ask (@Session.Inquiry.root _ 2 (by decide))⟩

theorem countable_member (key : String) {v : Value} (hv : v.children = []) (d : Disk) :
    ((Content.json (.object [(key, v)])).access d).Countable := by
  intro n i child hchild
  cases n with
  | document place =>
    obtain ⟨q, hq, -⟩ := Option.map_eq_some_iff.1 hchild
    obtain ⟨w, hw, hsome⟩ := Option.bind_eq_some_iff.1 hq
    have hone : Value.form.childCount w ≤ 1 := by
      match place with
      | [] =>
        cases hw
        exact Nat.le_refl 1
      | [0] =>
        cases hw
        simp [Value.depiction.childCount, Value.depiction, hv]
      | 0 :: j :: rest =>
        have hnone : Value.form.child? v j = none := by
          simp [Value.depiction.child?, Value.depiction, hv]
        have hbelow : Document.at? Value.form v (j :: rest) = some w := hw
        rw [Document.at?, hnone] at hbelow
        cases hbelow
      | (k + 1) :: rest => cases hw
    have hi : i < Value.form.childCount w := by
      by_contra hnot
      rw [if_neg hnot] at hsome
      cases hsome
    exact Nat.le_trans (Nat.le_of_lt_succ (Nat.lt_of_lt_of_le hi hone)) (Nat.zero_le _)
  | _ => cases hchild

theorem only_child {key : String} {v : Value} {d : Disk} {i : Nat} {child : Location}
    (h : ((Content.json (.object [(key, v)])).access d).childAt (.document []) i = some child) :
    i = 0 ∧ child = .document [0] := by
  cases i with
  | zero => exact ⟨rfl, (Option.some.inj h).symm⟩
  | succ i => cases h

theorem child_from_source_lettered :
    ((Live.access.childCount ⟨2, 0⟩).run numberedBelow.store).1 = 2 ∧
    ∃ s', (Live.access.childAt ⟨2, 0⟩ 1).run numberedBelow.store = (some ⟨2, 1⟩, s') ∧
      ((Live.access.name ⟨2, 1⟩).run s').1 = some "0" ∧
      s'.reply ⟨2, 1⟩ = ((Content.json lettered).access .empty).reply (.document [0]) := by
  obtain ⟨stale, hσ⟩ := course_numberedBelow
  have hlower : numberedBelow.store.body? 0 = some (.own (.json numbered)) := rfl
  have hupper : numberedBelow.store.body? 1 = some (.own (.json lettered)) := rfl
  have hdoc : ∀ source ∈ [(⟨1, 0⟩ : Handle), ⟨0, 0⟩],
      numberedBelow.store.IsDocument source.tree := by
    simp only [List.forall_mem_cons]
    exact ⟨.inl ⟨_, hupper⟩, .inl ⟨_, hlower⟩, nofun⟩
  have hcount : ∀ source ∈ [(⟨1, 0⟩ : Handle), ⟨0, 0⟩], ∀ c,
      numberedBelow.store.body? source.tree = some (.own c) →
        (c.access numberedBelow.store.disk).Countable := by
    simp only [List.forall_mem_cons]
    refine ⟨fun c hc => ?_, fun c hc => ?_, nofun⟩
    · cases hupper.symm.trans hc
      exact countable_member "x" rfl _
    · cases hlower.symm.trans hc
      exact countable_member "0" rfl _
  have hb : numberedBelow.store.body? 2 = some (.overlay [⟨1, 0⟩, ⟨0, 0⟩] []) := rfl
  have hn : numberedBelow.store.node? ⟨2, 0⟩ = some (.stacked Path.here) := rfl
  obtain ⟨g, s', name, hrun, hname, -, -, hreply⟩ :=
    child_from_source hσ (h := ⟨2, 0⟩) hb hdoc hcount hn (i := 1) (by decide)
  cases hrun
  obtain rfl : "0" = name := Option.some.inj (.trans rfl hname)
  have hleads : numberedBelow.store.Leads ⟨1, 0⟩ Path.here "0" (.json lettered)
      (.document [0]) := by
    refine ⟨.document [], ⟨hupper, .document [], rfl, rfl⟩, 0, rfl, .inr ⟨?_, rfl, rfl⟩⟩
    rintro j ⟨child, hchild, hown⟩
    obtain ⟨rfl, rfl⟩ := only_child hchild
    exact absurd (show some "x" = some "0" from hown) (by decide)
  exact ⟨by decide, _, rfl, rfl, hreply [] ⟨1, 0⟩ [⟨0, 0⟩] rfl nofun _ _ hleads⟩

/-- Only the lower document lists the name, but it is the index of the member above that answers. -/
theorem not_child_from_source : ∃ stale, Session.Course .empty numberedBelow stale ∧
    numberedBelow.store.body? 2 = some (.overlay [⟨1, 0⟩, ⟨0, 0⟩] []) ∧
    numberedBelow.store.node? ⟨2, 0⟩ = some (.stacked Path.here) ∧
    ∃ s', (Live.access.childAt ⟨2, 0⟩ 1).run numberedBelow.store = (some ⟨2, 1⟩, s') ∧
      ((Live.access.name ⟨2, 1⟩).run s').1 = some "0" ∧
      (∃ c child, numberedBelow.store.Lists ⟨0, 0⟩ Path.here "0" c child) ∧
      ¬ ∃ source ∈ [(⟨1, 0⟩ : Handle), ⟨0, 0⟩], ∃ c child,
        numberedBelow.store.Lists source Path.here "0" c child ∧
          s'.reply ⟨2, 1⟩ = (c.access numberedBelow.store.disk).reply child := by
  obtain ⟨stale, hσ⟩ := course_numberedBelow
  have hlower : numberedBelow.store.body? 0 = some (.own (.json numbered)) := rfl
  have hupper : numberedBelow.store.body? 1 = some (.own (.json lettered)) := rfl
  refine ⟨stale, hσ, rfl, rfl, _, rfl, rfl, ?_, ?_⟩
  · have hroot : numberedBelow.store.Reaches ⟨0, 0⟩ Path.here (.json numbered) (.document []) :=
      ⟨hlower, .document [], rfl, rfl⟩
    exact ⟨.json numbered, .document [0], .document [], hroot, 0, rfl, rfl⟩
  · rintro ⟨source, hsource, c, child, ⟨m, ⟨hbody, n, hn, hway⟩, i, hchild, hsegment⟩, hreply⟩
    simp only [List.mem_cons, List.not_mem_nil, or_false] at hsource
    rcases hsource with rfl | rfl
    · cases hupper.symm.trans hbody
      cases hn
      cases hway
      obtain ⟨rfl, rfl⟩ := only_child hchild
      exact absurd (show "x" = "0" from hsegment) (by decide)
    · cases hlower.symm.trans hbody
      cases hn
      cases hway
      obtain ⟨rfl, rfl⟩ := only_child hchild
      exact absurd (congrArg Reply.kind hreply) (by decide)

end AttributeTrees.Store
