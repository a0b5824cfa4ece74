import AttributeTrees.Proofs.Store.Course
/-!
# What overlays list

An overlay lists the children that its sources list, unless its list is stale. Main statement: at
every point of a course all questions about the children at a path agree on that.
-/
namespace AttributeTrees.Store

open Access (Tells Echoes Mirrors run_bind_of_run)

variable {s : Store} {held : List Handle} {tree : Nat} {h : Handle} {n? : Option Location}
  {sources : List Handle} {listings : List (Path × List String)} {S : Sight} {rank : Nat → Nat}

def namesBelow (source : Handle) (p : Path) : Live (List String) := do
  match ← Live.find source p [] with
  | some h =>
    let names ← Live.access.foldChildren h (fun i child names => do
      return names ++ [← Live.access.segment child i]) []
    Live.release h
    return names
  | none => return []

def union (s : Store) (sources : List Handle) (p : Path) : List String :=
  (sources.flatMap fun source => ((namesBelow source p).run s).1).foldl addName []

def handed (x : Live (Option Handle)) (s : Store) : Option Location :=
  (x.run s).1.bind (x.run s).2.node?

theorem Hands.handed {K : List Handle → Store → Prop} {x : Live (Option Handle)}
    (hx : Hands K held s tree x n?) : handed x s = n? := by
  unfold Store.handed
  cases n? with
  | none =>
    obtain ⟨s', hrun, -⟩ := hx
    rw [hrun]
    rfl
  | some n =>
    obtain ⟨c, s', hrun, -, -, -, hc⟩ := hx
    rw [hrun]
    exact hc

theorem foldl_append_singleton {α : Type} (more names : List α) :
    more.foldl (fun names name => names ++ [name]) names = names ++ more := by
  induction more generalizing names with
  | nil => simp
  | cons name more ih => simp [ih]

theorem tells_namesBelow (hs : Steady S rank held s) (hh : h ∈ s.stacked) {n : Location}
    (hn : s.node? h = some n) (p : Path) :
    Tells (Steady S rank held) s (namesBelow h p)
      ((Layer.reach S.access p ⟨h.tree, n⟩).elim [] (Layer.segments S.access)) := by
  have hK := knowledge_steady S rank
  have hm (held : List Handle) := mirrors_nodes S rank h.tree held
  have hfind := hands_find hK hs hn (hm held) (hs.shows.precise h.tree) (hs.exact hh hn) p []
  unfold Layer.reach
  cases hfound : (S.access h.tree).resolve n p [] with
  | none =>
    rw [hfound] at hfind
    obtain ⟨s₁, hrun₁, hs₁, hl₁⟩ := hfind
    exact ⟨s₁, run_bind_of_run hrun₁ _, hs₁, hl₁⟩
  | some m =>
    rw [hfound] at hfind
    obtain ⟨c, s₁, hrun₁, hs₁, hl₁, hct, hcn⟩ := hfind
    have hx : m.Exact := (hs.shows.precise h.tree).resolve (hs.exact hh hn) hfound
    obtain ⟨s₂, hrun₂, hs₂, hl₂⟩ := tells_segments (fun names name => names ++ [name])
      (hct ▸ hm) hs₁ List.mem_cons_self hcn hx []
    have hanchored : s₂.Anchored held c.tree := by
      refine .inr ⟨h, List.mem_append_right _ ?_, hct.symm⟩
      rwa [hl₂.stacked, hl₁.stacked]
    obtain ⟨s₃, hrun₃, hs₃, hl₃⟩ := hK.release hs₂ hanchored
    rw [foldl_append_singleton, List.nil_append, hct] at hrun₂
    refine ⟨s₃, ?_, hs₃, (hl₁.trans hl₂).trans hl₃⟩
    refine (run_bind_of_run hrun₁ _).trans ((run_bind_of_run hrun₂ _).trans ?_)
    exact run_bind_of_run hrun₃ _

theorem union_eq (hs : Steady S rank held s) (hsub : sources ⊆ s.stacked) (p : Path) :
    s.union sources p = Layer.merged S.access (s.layers sources) p := by
  unfold union Layer.merged
  congr 1
  induction sources with
  | nil => rfl
  | cons source rest ih =>
    obtain ⟨hsource, hrest⟩ := List.cons_subset.1 hsub
    obtain ⟨n, hn⟩ := exists_layer hs.balanced.toCounted hsource
    obtain ⟨s', hrun, -⟩ := tells_namesBelow hs hsource hn p
    rw [List.flatMap_cons, hrun, ih hrest, layers_cons hn, List.filterMap_cons]
    cases Layer.reach S.access p ⟨source.tree, n⟩ <;> rfl

theorem stacked?_stacked (q : Path) : (Location.stacked q).stacked? = some q := rfl

section
variable {p : Path} (hs : Steady S rank held s)
  (hb : s.body? h.tree = some (.overlay sources listings)) (hn : s.node? h = some (.stacked p))
include hs hb hn

theorem answer_childCount :
    ((Live.access.childCount h).run s).1 = (S.names h.tree p).length := by
  have hecho := mirrors_nodes S rank h.tree held s hs
  refine (tells_ofNode (b := 0) hn (hecho.childCount (.stacked p))).answer.trans ?_
  rw [hs.shows.overlay hb]
  rfl

theorem hands_childAt_stacked (i : Nat) : Hands (Steady S rank) held s h.tree
    (Live.access.childAt h i) ((S.names h.tree p)[i]?.map fun name => .stacked (p.push name)) := by
  have hhands := hands_childAt (knowledge_steady S rank) hs hn
    (mirrors_nodes S rank h.tree held s hs) (hs.shows.precise h.tree) rfl i
  rw [hs.shows.overlay hb, Access.childAt_disguise _ stacked?_stacked] at hhands
  change Hands _ _ _ _ _ (Option.map _ ((S.names h.tree p)[i]?.map p.push)) at hhands
  rw [Option.map_map] at hhands
  exact hhands

theorem handed_childAt (i : Nat) : handed (Live.access.childAt h i) s =
    (S.names h.tree p)[i]?.map fun name => .stacked (p.push name) :=
  (hands_childAt_stacked hs hb hn i).handed

theorem handed_childNamed (name : String) : handed (Live.access.childNamed h name) s =
    if name ∈ S.names h.tree p then some (.stacked (p.push name)) else none := by
  have hhands := hands_childNamed (knowledge_steady S rank) hs hn
    (mirrors_nodes S rank h.tree held s hs) (hs.shows.precise h.tree) rfl name
  rw [hs.shows.overlay hb, Access.childNamed_disguise _ stacked?_stacked] at hhands
  refine hhands.handed.trans ?_
  change Option.map _ (if (S.names h.tree p).contains name then some (p.push name) else none) = _
  by_cases h : name ∈ S.names h.tree p <;> simp [h]

theorem handed_find (way : List String) : handed (Live.find h ⟨way⟩ []) s =
    Option.map .stacked
      ((Layer.stack S.access (s.layers sources) (S.names h.tree)).follow [] p way) := by
  have hhands := hands_find (knowledge_steady S rank) hs hn (mirrors_nodes S rank h.tree held)
    (hs.shows.precise h.tree) rfl ⟨way⟩ []
  refine hhands.handed.trans ?_
  rw [hs.shows.overlay hb]
  exact Access.follow_disguise _ stacked?_stacked [] p way

theorem handed_find_append {way : List String}
    (hfound : handed (Live.find h ⟨way⟩ []) s ≠ none) (name : String) :
    handed (Live.find h ⟨way ++ [name]⟩ []) s =
      if name ∈ S.names h.tree ⟨p.segments ++ way⟩ then
        some (.stacked (Path.push ⟨p.segments ++ way⟩ name)) else none := by
  rw [handed_find hs hb hn] at hfound ⊢
  obtain ⟨q, hq⟩ := Option.ne_none_iff_exists'.1 (mt (congrArg (Option.map _)) hfound)
  obtain ⟨-, rfl⟩ := Layer.follow_stack.1 hq
  rw [Access.follow_append, hq, Option.bind_some, Access.follow_cons, Layer.step_stack]
  by_cases hname : name ∈ S.names h.tree ⟨p.segments ++ way⟩
  · rw [if_pos hname, if_pos hname]
    rfl
  · rw [if_neg hname, if_neg hname]
    rfl

end

namespace Session

variable {σ : Session} {stale : Nat → Path → Prop} {d : Disk} {p : Path}

/-- At every point of a course an overlay lists at a path, unless the list is stale, what its
sources list there, each name at its first occurrence: it counts and hands out these children, and
finds them. -/
theorem lists_union (hσ : Course d σ stale)
    (hb : σ.store.body? tree = some (.overlay sources listings)) (hp : ¬ stale tree p)
    (ht : h.tree = tree) (hn : σ.store.node? h = some (.stacked p)) :
    let names := σ.store.union sources p
    ((Live.access.childCount h).run σ.store).1 = names.length ∧
    (∀ i, handed (Live.access.childAt h i) σ.store =
      names[i]?.map fun name => .stacked (p.push name)) ∧
    (∀ name, handed (Live.access.childNamed h name) σ.store =
      if name ∈ names then some (.stacked (p.push name)) else none) ∧
    ∀ g q way, g.tree = tree → σ.store.node? g = some (.stacked q) →
      p.segments = q.segments ++ way →
      handed (Live.find g ⟨way⟩ []) σ.store ≠ none → ∀ name,
        handed (Live.find g ⟨way ++ [name]⟩ []) σ.store =
          if name ∈ names then some (.stacked (p.push name)) else none := by
  obtain ⟨S, rank, hf⟩ := hσ.exists_faithful
  have hs := hf.steady
  intro names
  have hnames : S.names tree p = names := by
    have hsub : sources ⊆ σ.store.stacked := fun _ hg => mem_stacked hb hg
    rw [hf.fresh hb p hp, ← union_eq hs hsub]
  subst ht
  refine ⟨?_, fun i => ?_, fun name => ?_, fun g q way hg hgn hway hfound name => ?_⟩
  · rw [← hnames]
    exact answer_childCount hs hb hn
  · rw [← hnames]
    exact handed_childAt hs hb hn i
  · rw [← hnames]
    exact handed_childNamed hs hb hn name
  · have hp' : p = ⟨q.segments ++ way⟩ := congrArg Path.mk hway
    rw [← hnames, hp', ← hg]
    exact handed_find_append hs (hg ▸ hb) hgn hfound name

theorem not_above {o : Nat} {b : Body} (hb : s.body? o = some b) (hsrc : b.sources = []) :
    ¬ s.Above o tree := by
  intro habove
  obtain ⟨j, ⟨c, hc, g, hg, -⟩, -⟩ := Relation.TransGen.head'_iff.1 habove
  cases hb.symm.trans hc
  rw [hsrc] at hg
  cases hg

def opened : Session :=
  let σ := (start .empty).openTree (.own (.json (.object [("a", .null)])))
  let σ := (σ.openTree (.own (.json (.object [("b", .null)])))).openTree (.overlay [] [])
  let σ := (σ.openTree (.overlay [] [])).after (Live.root 2) fun h => [h]
  σ.stack 3 ⟨2, 0⟩

def outdated : Session :=
  let σ := (opened.after (Live.root 0) fun h => [h]).stack 2 ⟨0, 0⟩
  let σ := σ.after (Live.root 3) fun h => [h]
  let σ := (σ.after (Live.access.childCount ⟨3, 0⟩) fun _ => []).after (Live.root 1) fun h => [h]
  σ.stack 2 ⟨1, 0⟩

theorem course_opened : ∃ stale, Course .empty opened stale := by
  have hσ := Course.start (d := .empty)
  have hdocuments := (hσ.openContent (.json (.object [("a", .null)]))).openContent
    (.json (.object [("b", .null)]))
  have hroot := hdocuments.openOverlay.openOverlay.ask (@Inquiry.root _ 2 (by decide))
  exact ⟨_, @Course.stack _ _ _ 3 ⟨2, 0⟩ (.stacked Path.here) hroot (by decide) rfl rfl (by decide)
    ⟨[], [], rfl⟩ (by decide) (not_above rfl rfl)⟩

theorem course_outdated : ∃ stale, Course .empty outdated stale ∧ ¬ stale 2 Path.here := by
  obtain ⟨stale, hσ⟩ := course_opened
  have hfirst := @Course.stack _ _ _ 2 ⟨0, 0⟩ (.document [])
    (hσ.ask (@Inquiry.root _ 0 (by decide))) (by decide) rfl rfl (by decide) ⟨[], [], rfl⟩
    (by decide) (not_above rfl rfl)
  have hasked := (hfirst.ask (@Inquiry.root _ 3 (by decide))).ask (.childCount ⟨3, 0⟩)
  have hsecond := @Course.stack _ _ _ 2 ⟨1, 0⟩ (.document [])
    (hasked.ask (@Inquiry.root _ 1 (by decide))) (by decide) rfl rfl (by decide)
    ⟨[⟨0, 0⟩], [(Path.here, ["a"])], rfl⟩ (by decide) (not_above rfl rfl)
  exact ⟨_, hsecond, fun h => h.1 rfl⟩

theorem lists_union_lower : ∃ stale, Course .empty outdated stale ∧ ¬ stale 2 Path.here ∧
    ((Live.access.childCount ⟨2, 0⟩).run outdated.store).1 = 2 := by
  obtain ⟨stale, hσ, hp⟩ := course_outdated
  have hb : outdated.store.body? 2 = some (.overlay [⟨1, 0⟩, ⟨0, 0⟩] []) := rfl
  have hlists := lists_union (h := ⟨2, 0⟩) hσ hb hp rfl rfl
  exact ⟨stale, hσ, hp, hlists.1.trans (by decide)⟩

/-- The upper overlay neither lists nor finds the second member, which its source lists. -/
theorem not_lists_union : ∃ stale, Course .empty outdated stale ∧
    (∃ listings, outdated.store.body? 3 = some (.overlay [⟨2, 0⟩] listings)) ∧
    outdated.store.node? ⟨3, 0⟩ = some (.stacked Path.here) ∧
    outdated.store.union [⟨2, 0⟩] Path.here = ["b", "a"] ∧
    ((Live.access.childCount ⟨3, 0⟩).run outdated.store).1 = 1 ∧
    handed (Live.find ⟨3, 0⟩ ⟨["b"]⟩ []) outdated.store = none := by
  obtain ⟨stale, hσ, -⟩ := course_outdated
  exact ⟨stale, hσ, ⟨[(Path.here, ["a"])], rfl⟩, rfl, by decide, by decide, rfl⟩

end Session

end AttributeTrees.Store
