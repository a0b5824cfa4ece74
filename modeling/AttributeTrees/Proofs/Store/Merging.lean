import AttributeTrees.Proofs.Json.Merging
import AttributeTrees.Proofs.Store.Listings
import AttributeTrees.Proofs.Store.Reports
/-!
# Overlays of JSON documents

An overlay on the roots of JSON documents that merge. A path is listed level by level where one of
the documents has it, and the uppermost of these answers there. Main statement: a report of the
overlay has each path of the documents once, and each is answered as in a report of that document.
-/
namespace AttributeTrees

@[ext]
structure Reply where
  kind : Kind
  valueCount : Nat
  preview : Option String
  fetch : Nat → (t : Element) → List t.Value → Nat × List t.Value

def Access.reply {ν : Type} (a : Access Id ν) (n : ν) : Reply where
  kind := a.kind n
  valueCount := a.valueCount n
  preview := a.preview n
  fetch := a.fetch n

namespace Store

open Access (Tells Echoes Mirrors)
open Document (Place at?)
open Json (Value)

variable {s : Store} {held sources upper lower : List Handle} {tree : Nat} {h : Handle}
  {doc : Handle → Value} {view : Nat → Access Id Location} {d : Disk} {p : Path} {q : Place}
  {S : Sight} {rank : Nat → Nat} {listings : List (Path × List String)}

def roots (sources : List Handle) : List Layer :=
  sources.map fun h => ⟨h.tree, .document []⟩

theorem segment_json {doc v : Value} (hv : at? Value.form doc q = some v) {i : Nat}
    {c : Option String × Value} (hc : v.children[i]? = some c) :
    ((Content.json doc).access d).segment (.document (q ++ [i])) i =
      Value.form.segment v c.1 i := by
  have hlabel : ((Content.json doc).access d).segment (.document (q ++ [i])) i =
      Document.label c.1 i := by
    refine ((Document.access Value.form doc).segment_disguise place?_document _ i).trans ?_
    exact Value.depiction.segment_access hv hc
  rw [hlabel]
  cases v with
  | array items =>
    simp only [Value.children, List.getElem?_map, Option.map_eq_some_iff] at hc
    obtain ⟨w, -, rfl⟩ := hc
    rfl
  | _ => rfl

theorem children_json {doc v : Value} (hv : at? Value.form doc q = some v) :
    ((Content.json doc).access d).children (.document q) =
      (List.range' 0 v.children.length).map fun i => (i, .document (q ++ [i])) := by
  refine ((Document.access Value.form doc).children_disguise place?_document q).trans ?_
  rw [Value.depiction.children_access hv, List.map_map]
  rfl

section
variable (hm : Value.Mergeable (sources.map doc))
include hm

theorem resolve_root (hh : h ∈ sources) {g : Handle} (hg : g ∈ sources)
    (hp : (doc g).Has p.segments) :
    (Document.access Value.form (doc h)).resolve [] p [] = some q ↔
      (at? Value.form (doc h) q).isSome ∧ Value.depiction.way (doc h) q = p.segments :=
  hm.resolve_iff (List.mem_map_of_mem hh) (List.mem_map_of_mem hg) hp

end

section
variable (hview : ∀ h ∈ sources, view h.tree = (Content.json (doc h)).access d)
include hview

theorem reach_root (hh : h ∈ sources) (p : Path) :
    Layer.reach view p ⟨h.tree, .document []⟩ =
      Option.map (fun q => ⟨h.tree, .document q⟩)
        ((Document.access Value.form (doc h)).resolve [] p []) := by
  rw [Layer.reach, hview h hh, resolve_json, Option.map_map]
  rfl

theorem mem_segments (hh : h ∈ sources) {v : Value} (hv : at? Value.form (doc h) q = some v)
    {name : String} : name ∈ Layer.segments view ⟨h.tree, .document q⟩ ↔
      ∃ i c, v.children[i]? = some c ∧ Value.form.segment v c.1 i = name := by
  simp only [Layer.segments, hview h hh, children_json hv, List.map_map, List.mem_map]
  constructor
  · rintro ⟨i, hi, rfl⟩
    have hlt : i < v.children.length := by simpa using hi
    exact ⟨i, v.children[i], List.getElem?_eq_getElem hlt, (segment_json hv (by simp [hlt])).symm⟩
  · rintro ⟨i, c, hc, rfl⟩
    have hlt := (List.getElem?_eq_some_iff.1 hc).1
    exact ⟨i, by simpa using hlt, segment_json hv hc⟩

variable (hm : Value.Mergeable (sources.map doc))
include hm

theorem mem_merged_roots {way : List String} {name : String}
    (hway : ∃ g ∈ sources, (doc g).Has way) :
    name ∈ Layer.merged view (roots sources) ⟨way⟩ ↔
      ∃ h ∈ sources, (doc h).Has (way ++ [name]) := by
  obtain ⟨g, hg, hgway⟩ := hway
  rw [Layer.mem_merged]
  constructor
  · rintro ⟨l, hl, m, hlm, hname⟩
    obtain ⟨h, hh, rfl⟩ := List.mem_map.1 hl
    rw [reach_root hview hh] at hlm
    obtain ⟨q, hq, rfl⟩ := Option.map_eq_some_iff.1 hlm
    obtain ⟨hsome, hwayq⟩ := (resolve_root hm hh hg hgway).1 hq
    obtain ⟨v, hv⟩ := Option.isSome_iff_exists.1 hsome
    obtain ⟨i, c, hc, hseg⟩ := (mem_segments hview hh hv).1 hname
    exact ⟨h, hh, Value.has_append_singleton.2 ⟨q, v, i, c, hv, hwayq, hc, hseg⟩⟩
  · rintro ⟨h, hh, hhas⟩
    obtain ⟨q, v, i, c, hv, hwayq, hc, hseg⟩ := Value.has_append_singleton.1 hhas
    have hsome : (at? Value.form (doc h) q).isSome := by simp [hv]
    refine ⟨⟨h.tree, .document []⟩, List.mem_map_of_mem hh, ⟨h.tree, .document q⟩, ?_, ?_⟩
    · rw [reach_root hview hh, (resolve_root hm hh hg hgway).2 ⟨hsome, hwayq⟩]
      rfl
    · exact (mem_segments hview hh hv).2 ⟨i, c, hc, hseg⟩

theorem listed_roots (hne : sources ≠ []) (way : List String) :
    Layer.Listed (Layer.merged view (roots sources)) Path.here way ↔
      ∃ h ∈ sources, (doc h).Has way := by
  induction way using List.reverseRecOn with
  | nil =>
    obtain ⟨h, hh⟩ := List.exists_mem_of_ne_nil sources hne
    exact iff_of_true trivial ⟨h, hh, Value.has_nil _⟩
  | append_singleton way name ih =>
    rw [Layer.listed_append, ih]
    constructor
    · rintro ⟨hway, hname, -⟩
      exact (mem_merged_roots hview hm hway).1 hname
    · rintro ⟨h, hh, hhas⟩
      obtain ⟨q, v, i, c, hv, hwayq, -⟩ := Value.has_append_singleton.1 hhas
      have hway : ∃ g ∈ sources, (doc g).Has way := ⟨h, hh, q, by simp [hv], hwayq⟩
      exact ⟨hway, (mem_merged_roots hview hm hway).2 ⟨h, hh, hhas⟩, trivial⟩

theorem topmost_roots (hsrc : sources = upper ++ h :: lower)
    (hupper : ∀ g ∈ upper, ¬ (doc g).Has p.segments)
    (hq : (at? Value.form (doc h) q).isSome) (hway : Value.depiction.way (doc h) q = p.segments)
    {α : Type} (default : α) (f : Access Id Location → Location → α) :
    Layer.topmost view (roots sources) p default f =
      f ((Content.json (doc h)).access d) (.document q) := by
  have hh : h ∈ sources := by simp [hsrc]
  have hhas : (doc h).Has p.segments := ⟨q, hq, hway⟩
  have hnone : (roots upper).filterMap (Layer.reach view p) = [] := by
    rw [List.filterMap_eq_nil_iff]
    intro l hl
    obtain ⟨g, hg, rfl⟩ := List.mem_map.1 hl
    have hgs : g ∈ sources := by simp [hsrc, hg]
    rw [reach_root hview hgs, Option.map_eq_none_iff, Option.eq_none_iff_forall_ne_some]
    intro r hr
    exact hupper g hg ⟨r, (resolve_root hm hgs hh hhas).1 hr⟩
  have hroots : roots sources = roots upper ++ ⟨h.tree, .document []⟩ :: roots lower := by
    simp [roots, hsrc]
  have hresolve := (resolve_root hm hh hh hhas).2 ⟨hq, hway⟩
  rw [Layer.topmost, hroots, List.filterMap_append, hnone, List.nil_append, List.filterMap_cons,
    reach_root hview hh, hresolve]
  change f (view h.tree) _ = _
  rw [hview h hh]

theorem reply_roots (hsrc : sources = upper ++ h :: lower)
    (hupper : ∀ g ∈ upper, ¬ (doc g).Has p.segments)
    (hq : (at? Value.form (doc h) q).isSome) (hway : Value.depiction.way (doc h) q = p.segments)
    (names : Path → List String) : (Layer.stack view (roots sources) names).reply p =
      ((Content.json (doc h)).access d).reply (.document q) := by
  have htop {α : Type} (default : α) (f : Access Id Location → Location → α) :=
    topmost_roots hview hm hsrc hupper hq hway default f
  apply Reply.ext
  · exact htop Kind.unknown (·.kind)
  · exact htop 0 (·.valueCount)
  · exact htop none (·.preview)
  · funext offset t slots
    exact htop (0, slots) fun a n => a.fetch n offset t slots

omit hm in
theorem isLink_roots (p : Path) :
    Layer.topmost view (roots sources) p false (·.isLink) = false := by
  unfold Layer.topmost
  cases hhead : ((roots sources).filterMap (Layer.reach view p)).head? with
  | none => rfl
  | some l =>
    obtain ⟨l₀, hl₀, hreach⟩ := List.mem_filterMap.1 (List.mem_of_head? hhead)
    obtain ⟨h, hh, rfl⟩ := List.mem_map.1 hl₀
    rw [reach_root hview hh] at hreach
    obtain ⟨q, -, rfl⟩ := Option.map_eq_some_iff.1 hreach
    change (view h.tree).isLink _ = false
    rw [hview h hh]
    change ((at? Value.form (doc h) q).map Value.form.isLink).getD false = false
    cases at? Value.form (doc h) q <;> rfl

end

/-- The calls of a report that goes everywhere. -/
def reported (s : Store) (tree : Nat) : List Call :=
  ((Live.atRoot tree fun h =>
    Live.access.report (traced fun _ _ st => pure (true, st)) h ((), [])).run s).1.2

def Call.reply (c : Call) : Reply where
  kind := ((Live.access.kind c.handle).run c.store).1
  valueCount := ((Live.access.valueCount c.handle).run c.store).1
  preview := ((Live.access.preview c.handle).run c.store).1
  fetch offset t slots := ((Live.access.fetch c.handle offset t slots).run c.store).1

theorem patient_pure (K : List Handle → Store → Prop) (tree : Nat) (base : List Handle) :
    Patient K tree base (fun _ => []) (fun _ _ => True) fun _ _ (st : Unit) => pure (true, st) where
  later _ _ := trivial
  call _ _ hs _ := ⟨(), _, rfl, hs, .refl _, trivial⟩

theorem noted_reported (hs : Steady S rank held s) (ha : 0 < s.holders tree) {b : Body}
    (hb : s.body? tree = some b) (hx : (b.root s.disk).Exact) :
    ∃ s₁ held', Steady S rank held' s₁ ∧ s.Later s₁ ∧
      Noted (Steady S rank) tree (s.reported tree)
        ((S.access tree).rows (s₁.size + 1) (b.root s.disk) Path.here) := by
  obtain ⟨st, calls, s₁, s', hrun, -, -, -, ⟨held', hs₁⟩, hl₁, hcalls⟩ :=
    (patient_pure (Steady S rank) tree held).report (knowledge_steady S rank)
      (hs.shows.precise tree) (mirrors_nodes S rank tree) hb hx (fun _ => .inl ha) hs trivial
  refine ⟨s₁, held', hs₁, hl₁, ?_⟩
  rw [reported, hrun]
  exact hcalls

theorem Noted.exists_row {calls : List Call} {rows : List (Location × Path)}
    (hcalls : Noted (Steady S rank) tree calls rows) {c : Call} (hc : c ∈ calls) :
    ∃ r ∈ rows, r.2 = c.path ∧ c.reply = (S.access tree).reply r.1 := by
  have hrow : c.row ∈ calls.map Call.row := List.mem_map_of_mem hc
  rw [hcalls.rows] at hrow
  obtain ⟨r, hr, he⟩ := List.mem_map.1 hrow
  obtain ⟨hnode, hpath⟩ := Prod.mk.inj he
  obtain ⟨htree, held, -, hs⟩ := hcalls.known c hc
  subst htree
  have hecho := mirrors_nodes S rank c.handle.tree held c.store hs
  refine ⟨r, hr, hpath, Reply.ext ?_ ?_ ?_ ?_⟩
  · exact (tells_ofNode (b := Kind.unknown) hnode.symm (hecho.kind r.1)).answer
  · exact (tells_ofNode (b := 0) hnode.symm (hecho.valueCount r.1)).answer
  · exact (tells_ofNode (b := none) hnode.symm (hecho.preview r.1)).answer
  · funext offset t slots
    have hfetch := hecho.fetch r.1 offset t slots
    exact (tells_ofNode (f := fun n => (Live.nodes c.handle.tree).fetch n offset t slots)
      (b := (0, slots)) hnode.symm hfetch).answer

theorem layers_roots (hn : ∀ h ∈ sources, s.node? h = some (.document [])) :
    s.layers sources = roots sources := by
  rw [layers, roots, ← List.filterMap_eq_map]
  apply List.filterMap_congr
  intro h hh
  rw [hn h hh]
  rfl

theorem not_stale {σ : Session} {stale : Nat → Path → Prop}
    (hf : Session.Faithful σ stale S rank)
    (hb : σ.store.body? tree = some (.overlay sources listings))
    (hown : ∀ h ∈ sources, ∃ c, σ.store.body? h.tree = some (.own c)) (p : Path) :
    ¬ stale tree p := by
  intro hp
  obtain ⟨j, habove, srcs, noted, hj⟩ := hf.beneath hp
  obtain ⟨i, ⟨b, hb', g, hg, rfl⟩, hrest⟩ := Relation.TransGen.head'_iff.1 habove
  cases hb.symm.trans hb'
  obtain ⟨c, hc⟩ := hown g hg
  rcases Relation.reflTransGen_iff_eq_or_transGen.1 hrest with rfl | hgj
  · cases hc.symm.trans hj
  · exact Session.not_above hc rfl hgj

theorem reported_json {doc : Value} (hs : Steady S rank held s) (ha : 0 < s.holders tree)
    (hb : s.body? tree = some (.own (.json doc))) :
    (∀ p, p ∈ (s.reported tree).map (·.path) ↔ doc.Has p.segments) ∧
    ∀ c ∈ s.reported tree, ∃ q, (at? Value.form doc q).isSome ∧
      Value.depiction.way doc q = c.path.segments ∧
      c.reply = ((Content.json doc).access s.disk).reply (.document q) := by
  obtain ⟨s₁, held', hs₁, hl₁, hcalls⟩ := noted_reported hs ha hb rfl
  have hsize : doc.size < s₁.size + 1 := by
    have hh : Holds s₁ tree Value.form doc := ⟨.json doc, hl₁.body?_own hb, rfl, rfl, rfl⟩
    exact Nat.lt_succ_of_le hh.size_le
  have haccess : S.access tree = (Content.json doc).access s.disk := hs.shows.own hb
  rw [show (Body.own (.json doc)).root s.disk = .document [] from rfl, haccess, rows_json] at hcalls
  have hspots (q : Place) : q ∈ Value.depiction.spots (s₁.size + 1) doc ↔ _ :=
    Value.depiction.mem_spots hsize
  refine ⟨fun p => ?_, fun c hc => ?_⟩
  · rw [hcalls.paths, List.map_map]
    simp only [List.mem_map, hspots]
    constructor
    · rintro ⟨q, hq, rfl⟩
      exact ⟨q, hq, rfl⟩
    · rintro ⟨q, hq, hway⟩
      exact ⟨q, hq, congrArg Path.mk hway⟩
  · obtain ⟨r, hr, hpath, hreply⟩ := hcalls.exists_row hc
    obtain ⟨q, hq, rfl⟩ := List.mem_map.1 hr
    exact ⟨q, (hspots q).1 hq, congrArg Path.segments hpath, haccess ▸ hreply⟩

theorem reported_overlay (hs : Steady S rank held s) (ha : 0 < s.holders tree)
    (hb : s.body? tree = some (.overlay sources listings))
    (hn : ∀ p, (S.names tree p).Nodup ∧ "" ∉ S.names tree p)
    (hlink : ∀ p, Layer.topmost S.access (s.layers sources) p false (·.isLink) = false) :
    ((s.reported tree).map (·.path)).Nodup ∧
    (∀ p, p ∈ (s.reported tree).map (·.path) ↔
      p.segments.length ≤ s.size ∧ Layer.Listed (S.names tree) Path.here p.segments) ∧
    ∀ e ∈ s.reported tree,
      e.reply = (Layer.stack S.access (s.layers sources) (S.names tree)).reply e.path := by
  obtain ⟨s₁, held', hs₁, hl₁, hcalls⟩ := noted_reported hs ha hb rfl
  have hsize : s₁.size = s.size := hl₁.size
  let stack := Layer.stack S.access (s.layers sources) (S.names tree)
  have haccess : S.access tree = stack.disguise .stacked Location.stacked? := hs.shows.overlay hb
  have hrows : (S.access tree).rows (s₁.size + 1) (.stacked Path.here) Path.here =
      (Layer.paths (S.names tree) (s.size + 1) Path.here).map fun q => (.stacked q, q) := by
    rw [haccess, hsize]
    refine (stack.rows_disguise stacked?_stacked _ _ _).trans ?_
    rw [Layer.rows_stack (fun p => (hn p).2) hlink, List.map_map]
    rfl
  rw [show (Body.overlay sources listings).root s.disk = .stacked Path.here from rfl, hrows]
    at hcalls
  have hpaths : (s.reported tree).map (·.path) =
      Layer.paths (S.names tree) (s.size + 1) Path.here := by
    rw [hcalls.paths, List.map_map]
    exact List.map_id _
  refine ⟨?_, fun p => ?_, fun e he => ?_⟩
  · rw [hpaths]
    exact Layer.nodup_paths (fun p => (hn p).1) _ _
  · rw [hpaths, Layer.mem_paths]
    constructor
    · rintro ⟨way, hlen, hlisted, rfl⟩
      exact ⟨Nat.le_of_lt_succ hlen, hlisted⟩
    · rintro ⟨hlen, hlisted⟩
      exact ⟨p.segments, Nat.lt_succ_of_le hlen, hlisted, rfl⟩
  · obtain ⟨r, hr, hpath, hreply⟩ := hcalls.exists_row he
    obtain ⟨q, -, rfl⟩ := List.mem_map.1 hr
    cases hpath
    rw [hreply, haccess]
    rfl

/-- A report of an overlay on JSON documents that merge has each path of the documents once. It is
answered there as in a report of the uppermost document that has the path: the one stacked last. -/
theorem report_merges {σ : Session} {stale : Nat → Path → Prop} {d : Disk}
    (hσ : Session.Course d σ stale)
    (hb : σ.store.body? tree = some (.overlay sources listings)) (hne : sources ≠ [])
    (hdoc : ∀ h ∈ sources, σ.store.node? h = some (.document []) ∧
      σ.store.body? h.tree = some (.own (.json (doc h))))
    (hm : Value.Mergeable (sources.map doc)) :
    let paths (tree : Nat) := (σ.store.reported tree).map (·.path)
    (paths tree).Nodup ∧
    (∀ p, p ∈ paths tree ↔ ∃ h ∈ sources, p ∈ paths h.tree) ∧
    ∀ upper h lower, sources = upper ++ h :: lower → ∀ c ∈ σ.store.reported h.tree,
      (∀ g ∈ upper, c.path ∉ paths g.tree) →
        ∀ e ∈ σ.store.reported tree, e.path = c.path → e.reply = c.reply := by
  obtain ⟨S, rank, hf⟩ := hσ.exists_faithful
  have hs := hf.steady
  have hlayers : σ.store.layers sources = roots sources := layers_roots fun h hh => (hdoc h hh).1
  have hview : ∀ h ∈ sources, S.access h.tree = (Content.json (doc h)).access σ.store.disk :=
    fun h hh => hs.shows.own (hdoc h hh).2
  have hnames : S.names tree = Layer.merged S.access (roots sources) := by
    funext p
    rw [← hlayers]
    exact hf.fresh hb p (not_stale hf hb (fun h hh => ⟨_, (hdoc h hh).2⟩) p)
  have hheld {tree : Nat} {b : Body} (hb : σ.store.body? tree = some b) :
      0 < σ.store.holders tree := by
    rw [hσ.reachable.sound.holders]
    exact List.count_pos_iff.2 (hf.compounds hb)
  have hjson (h : Handle) (hh : h ∈ sources) := reported_json hs (hheld (hdoc h hh).2) (hdoc h hh).2
  have hproper (p : Path) : (S.names tree p).Nodup ∧ "" ∉ S.names tree p := by
    rw [hnames]
    exact ⟨Layer.nodup_merged _ _ p, Layer.not_mem_merged _ _ p⟩
  obtain ⟨hnodup, hpaths, hreplies⟩ :=
    reported_overlay hs (hheld hb) hb hproper (hlayers ▸ isLink_roots hview)
  intro paths
  refine ⟨hnodup, fun p => ?_, ?_⟩
  · rw [hpaths, hnames, listed_roots hview hm hne]
    constructor
    · rintro ⟨-, h, hh, hhas⟩
      exact ⟨h, hh, ((hjson h hh).1 p).2 hhas⟩
    · rintro ⟨h, hh, hp⟩
      have hhas := ((hjson h hh).1 p).1 hp
      have hholds : Holds σ.store h.tree Value.form (doc h) := ⟨_, (hdoc h hh).2, rfl, rfl, rfl⟩
      exact ⟨hhas.length_le.trans hholds.size_le, h, hh, hhas⟩
  · intro upper h lower hsrc c hc hupper e he hpath
    have hh : h ∈ sources := by simp [hsrc]
    obtain ⟨q, hq, hway, hreply⟩ := (hjson h hh).2 c hc
    have hnone : ∀ g ∈ upper, ¬ (doc g).Has c.path.segments := by
      intro g hg hhas
      exact hupper g hg (((hjson g (by simp [hsrc, hg])).1 c.path).2 hhas)
    rw [hreply, hreplies e he, hpath, hlayers]
    exact reply_roots hview hm hsrc hnone hq hway _

def overlaid (lower upper : Value) : Session :=
  let σ := (Session.start .empty).openTree (.own (.json lower))
  let σ := σ.openTree (.own (.json upper))
  let σ := (σ.openTree (.overlay [] [])).after (Live.root 0) fun h => [h]
  let σ := (σ.stack 2 ⟨0, 0⟩).after (Live.root 1) fun h => [h]
  σ.stack 2 ⟨1, 0⟩

theorem course_overlaid (lower upper : Value) :
    ∃ stale, Session.Course .empty (overlaid lower upper) stale := by
  have hσ := ((Session.Course.start (d := .empty)).openContent (.json lower)).openContent
    (.json upper)
  have hfirst := hσ.openOverlay.ask (@Session.Inquiry.root _ 0 (.tail _ (.tail _ (.head _))))
  have hlower := @Session.Course.stack _ _ _ 2 ⟨0, 0⟩ (.document []) hfirst (.head _) rfl rfl
    (.head _) ⟨[], [], rfl⟩ (by decide) (Session.not_above rfl rfl)
  have hsecond := hlower.ask (@Session.Inquiry.root _ 1 (.tail _ (.head _)))
  exact ⟨_, @Session.Course.stack _ _ _ 2 ⟨1, 0⟩ (.document []) hsecond (.head _) rfl rfl
    (.head _) ⟨[⟨0, 0⟩], [], rfl⟩ (by decide) (Session.not_above rfl rfl)⟩

def beneath : Value := .object [("a", .bool true), ("b", .array [.null])]

def onTop : Value := .object [("a", .object [("c", .null)])]

theorem mergeable_onTop : Value.Mergeable [onTop, beneath] where
  storable := by decide
  keyed := by decide
  alike := by decide

def merged : Session :=
  let σ := ((Session.start .empty).openTree (.own (.json beneath))).openTree (.own (.json onTop))
  let σ := (σ.openTree (.overlay [] [])).after (Live.root 0) fun h => [h]
  let σ := (σ.stack 2 ⟨0, 0⟩).after (Live.root 1) fun h => [h]
  σ.stack 2 ⟨1, 0⟩

theorem course_merged : ∃ stale, Session.Course .empty merged stale :=
  course_overlaid beneath onTop

theorem report_merges_onTop :
    let paths (tree : Nat) := (merged.store.reported tree).map (·.path)
    merged.store.body? 2 = some (.overlay [⟨1, 0⟩, ⟨0, 0⟩] []) ∧ (paths 2).Nodup ∧
    (∀ p, p ∈ paths 2 ↔ p ∈ paths 1 ∨ p ∈ paths 0) ∧
    ∀ e ∈ merged.store.reported 2,
      (∀ c ∈ merged.store.reported 1, e.path = c.path → e.reply = c.reply) ∧
      ∀ c ∈ merged.store.reported 0, c.path ∉ paths 1 → e.path = c.path → e.reply = c.reply := by
  intro paths
  obtain ⟨stale, hσ⟩ := course_merged
  let doc (h : Handle) : Value := if h.tree = 1 then onTop else beneath
  have hdoc : ∀ h ∈ [(⟨1, 0⟩ : Handle), ⟨0, 0⟩], merged.store.node? h = some (.document []) ∧
      merged.store.body? h.tree = some (.own (.json (doc h))) := by
    simp only [List.forall_mem_cons]
    exact ⟨⟨rfl, rfl⟩, ⟨rfl, rfl⟩, nofun⟩
  have hb : merged.store.body? 2 = some (.overlay [⟨1, 0⟩, ⟨0, 0⟩] []) := rfl
  obtain ⟨hnodup, hpaths, hreplies⟩ :=
    report_merges hσ hb (List.cons_ne_nil _ _) hdoc mergeable_onTop
  refine ⟨hb, hnodup, fun p => (hpaths p).trans ?_, fun e he => ⟨fun c hc => ?_, ?_⟩⟩
  · simp only [List.mem_cons, List.not_mem_nil, or_false, exists_eq_or_imp, exists_eq_left]
    rfl
  · exact hreplies [] ⟨1, 0⟩ [⟨0, 0⟩] rfl c hc nofun e he
  · intro c hc hnone
    exact hreplies [⟨1, 0⟩] ⟨0, 0⟩ [] rfl c hc (List.forall_mem_singleton.2 hnone) e he

/-- An overlay without sources reports its root, which no document has. -/
theorem not_report_merges :
    let σ := (Session.start .empty).openTree (.overlay [] [])
    (∃ stale, Session.Course .empty σ stale) ∧ σ.store.body? 0 = some (.overlay [] []) ∧
    (σ.store.reported 0).map (·.path) = [Path.here] ∧
    ¬ ∀ p, p ∈ (σ.store.reported 0).map (·.path) ↔
      ∃ h ∈ ([] : List Handle), p ∈ (σ.store.reported h.tree).map (·.path) := by
  intro σ
  have hpaths : (σ.store.reported 0).map (·.path) = [Path.here] := by decide
  refine ⟨⟨_, (Session.Course.start (d := .empty)).openOverlay⟩, rfl, hpaths, fun h => ?_⟩
  rw [hpaths] at h
  obtain ⟨g, hg, -⟩ := (h Path.here).1 (List.mem_singleton_self _)
  cases hg

end Store

end AttributeTrees
