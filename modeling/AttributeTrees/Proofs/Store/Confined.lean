import AttributeTrees.Proofs.Store.Balance
import AttributeTrees.Store.Access
/-!
# What questions about some trees leave alone

An overlay is asked by asking the trees that it is stacked on. What these come to know and give back
stays among trees of the kind, if no tree of the kind has a source elsewhere. Main statement: access
to such trees changes the body of no other tree.
-/
namespace AttributeTrees

namespace Store

variable {α β : Type} {P : Nat → Prop} {s s' s'' : Store} {tree : Nat}

def Closed (P : Nat → Prop) (s : Store) : Prop :=
  ∀ tree b, P tree → s.body? tree = some b → ∀ h ∈ b.sources, P h.tree

/-- Trees of the kind stay among themselves, and the others have the bodies that they had. -/
structure Spares (P : Nat → Prop) (s s' : Store) : Prop where
  closed : Closed P s'
  body : ∀ tree, ¬ P tree → s'.body? tree = s.body? tree

theorem Spares.trans (h : Spares P s s') (k : Spares P s' s'') : Spares P s s'' :=
  ⟨k.closed, fun tree ht => (k.body tree ht).trans (h.body tree ht)⟩

theorem spares_of_body (hs : Closed P s) (h : ∀ tree, s'.body? tree = s.body? tree) :
    Spares P s s' :=
  ⟨fun tree b ht hb => hs tree b ht (h tree ▸ hb), fun tree _ => h tree⟩

theorem spares_modifyTree (hs : Closed P s) (ht : P tree) {f : Tree → Tree}
    (hf : ∀ t, (f t).body.sources ⊆ t.body.sources) : Spares P s (s.modifyTree tree f) := by
  have hbody (j : Nat) : (s.modifyTree tree f).body? j =
      s.trees[j]?.map fun t => if tree = j then (f t).body else t.body := by
    rw [body?, getElem?_modifyTree, Option.map_map]
    congr 1
    funext t
    simp only [Function.comp_apply]
    split <;> rfl
  refine ⟨fun j b hj hb h hh => ?_, fun j hj => ?_⟩
  · rw [hbody] at hb
    obtain ⟨t, htree, rfl⟩ := Option.map_eq_some_iff.1 hb
    refine hs j t.body hj (by rw [body?, htree]; rfl) h ?_
    split at hh
    · exact hf t hh
    · exact hh
  · have hne : tree ≠ j := by
      rintro rfl
      exact hj ht
    rw [hbody, body?]
    simp only [hne, if_false]

theorem spares_discard (fuel : Nat) {handles : List Handle} (hs : Closed P s)
    (hh : ∀ h ∈ handles, P h.tree) : Spares P s (discard fuel handles s) := by
  induction fuel generalizing handles s with
  | zero => exact ⟨hs, fun _ _ => rfl⟩
  | succ fuel ih =>
    cases handles with
    | nil => exact ⟨hs, fun _ _ => rfl⟩
    | cons h rest =>
      obtain ⟨hP, hrest⟩ := List.forall_mem_cons.1 hh
      let dropped := s.modifyTree h.tree fun t => { t with table := (t.table.release h.id).2 }
      have hdropped : Spares P s dropped := spares_modifyTree hs hP fun _ => List.Subset.refl _
      change Spares P s (discard fuel ((dropped.reclaim h.tree).1 ++ rest)
        (dropped.reclaim h.tree).2)
      unfold reclaim
      cases ht : dropped.trees[h.tree]? with
      | none => exact hdropped.trans (ih hdropped.closed hrest)
      | some t =>
        simp only
        split
        · have hsources : ∀ g ∈ t.body.sources ++ rest, P g.tree := by
            rw [List.forall_mem_append]
            exact ⟨hdropped.closed h.tree t.body hP (by rw [body?, ht]; rfl), hrest⟩
          have hbare : Spares P dropped
              (dropped.modifyTree h.tree fun t => { t with body := t.body.bare }) := by
            apply spares_modifyTree hdropped.closed hP
            intro t
            cases t.body with
            | own c => exact List.Subset.refl _
            | overlay sources listings => exact List.nil_subset _
          exact (hdropped.trans hbare).trans (ih hbare.closed hsources)
        · exact hdropped.trans (ih hdropped.closed hrest)

def Within (P : Nat → Prop) (x : Live α) (apt : α → Prop) : Prop :=
  ∀ s, Closed P s → Spares P s (x.run s).2 ∧ apt (x.run s).1

variable {x : Live α} {f : α → Live β} {apt : α → Prop} {good : β → Prop}

namespace Within

theorem pure {a : α} (ha : apt a) : Within P (pure a) apt :=
  fun _ hs => ⟨⟨hs, fun _ _ => rfl⟩, ha⟩

theorem bind (hx : Within P x apt) (hf : ∀ a, apt a → Within P (f a) good) :
    Within P (x >>= f) good := by
  intro s hs
  obtain ⟨hsx, ha⟩ := hx s hs
  obtain ⟨hsf, hb⟩ := hf _ ha _ hsx.closed
  exact ⟨hsx.trans hsf, hb⟩

theorem get {f : Store → Live β} (hf : ∀ s, Closed P s → Within P (f s) good) :
    Within P (get >>= f) good :=
  fun s hs => hf s hs s hs

end Within

theorem within_use (tree : Nat) (n : Location) :
    Within P (Live.use tree n) fun h => h.tree = tree := by
  intro s hs
  cases ht : s.trees[tree]? with
  | some t =>
    rw [run_use ht]
    exact ⟨spares_of_body hs (body?_retable ht _), rfl⟩
  | none =>
    have hrun : (Live.use tree n).run s = (⟨tree, 0⟩, s) := by
      rw [Live.use, StateT.run_bind, StateT.run_get, pure_bind, ht]
      rfl
    rw [hrun]
    exact ⟨spares_of_body hs fun _ => rfl, rfl⟩

theorem within_release {h : Handle} (hh : P h.tree) : Within P (Live.release h) fun _ => True :=
  fun _ hs => ⟨spares_discard _ hs (List.forall_mem_singleton.2 hh), trivial⟩

end Store

namespace Access

open Store (Within)

variable {ν μ σ : Type} {P : Nat → Prop}

/-- What leads from apt nodes to apt nodes stays among trees of the kind. -/
structure Confined (P : Nat → Prop) (a : Access Live ν) (apt : ν → Prop) : Prop where
  name : ∀ {n}, apt n → Within P (a.name n) fun _ => True
  isList : ∀ {n}, apt n → Within P (a.isList n) fun _ => True
  childCount : ∀ {n}, apt n → Within P (a.childCount n) fun _ => True
  childAt : ∀ {n} i, apt n → Within P (a.childAt n i) fun c => ∀ m ∈ c, apt m
  childNamed : ∀ {n} name, apt n → Within P (a.childNamed n name) fun c => ∀ m ∈ c, apt m
  release : ∀ {n}, apt n → Within P (a.release n) fun _ => True

variable {a : Access Live ν} {apt : ν → Prop} {n : ν}

theorem confined_lift (a : Access Id ν) : (lift a : Access Live ν).Confined P fun _ => True where
  name _ := .pure trivial
  isList _ := .pure trivial
  childCount _ := .pure trivial
  childAt _ _ := .pure fun _ _ => trivial
  childNamed _ _ := .pure fun _ _ => trivial
  release _ := .pure trivial

theorem within_match {β : Type} {f : ν → Live β} {good : β → Prop} {b : β}
    (hf : ∀ n, Within P (f n) good) (hb : good b) (n? : Option ν) :
    Within P (match n? with | some n => f n | none => pure b) good := by
  cases n? with
  | some n => exact hf n
  | none => exact .pure hb

theorem Confined.disguise (ha : a.Confined P fun _ => True) (put : ν → μ) (take? : μ → Option ν) :
    (a.disguise put take?).Confined P fun _ => True where
  name {x} _ := within_match (fun _ => ha.name trivial) trivial (take? x)
  isList {x} _ := within_match (fun _ => ha.isList trivial) trivial (take? x)
  childCount {x} _ := within_match (fun _ => ha.childCount trivial) trivial (take? x)
  childAt {x} i _ := within_match (fun _ => (ha.childAt i trivial).bind fun _ _ =>
    .pure fun _ _ => trivial) (fun _ _ => trivial) (take? x)
  childNamed {x} name _ := within_match (fun _ => (ha.childNamed name trivial).bind fun _ _ =>
    .pure fun _ _ => trivial) (fun _ _ => trivial) (take? x)
  release {x} _ := within_match (fun _ => ha.release trivial) trivial (take? x)

theorem confined_choose {pick : Live (Access Live ν)}
    (hp : Within P pick fun a => a.Confined P apt) : (choose pick).Confined P apt where
  name h := hp.bind fun _ ha => ha.name h
  isList h := hp.bind fun _ ha => ha.isList h
  childCount h := hp.bind fun _ ha => ha.childCount h
  childAt i h := hp.bind fun _ ha => ha.childAt i h
  childNamed name h := hp.bind fun _ ha => ha.childNamed name h
  release h := hp.bind fun _ ha => ha.release h

namespace Confined

theorem firstNamed (ha : a.Confined P apt) (hn : apt n) (names : List String) :
    Within P (a.firstNamed n names) fun c => ∀ m ∈ c, apt m := by
  induction names with
  | nil => exact .pure nofun
  | cons name rest ih =>
    refine (ha.childNamed name hn).bind fun c hc => ?_
    cases c with
    | some child => exact .pure hc
    | none => exact ih

theorem step (ha : a.Confined P apt) (hn : apt n) (segment : String) (tags : List String) :
    Within P (a.step n segment tags) fun c => ∀ m ∈ c, apt m := by
  refine (ha.isList hn).bind fun list _ => ?_
  cases list with
  | true =>
    rw [if_pos rfl]
    cases Numeral.index? segment with
    | some i => exact ha.childAt i hn
    | none => exact .pure nofun
  | false => exact ha.firstNamed hn _

theorem follow (ha : a.Confined P apt) (tags : List String) (hn : apt n) (segments : List String) :
    Within P (a.follow tags n segments) fun c => ∀ m ∈ c, apt m := by
  induction segments generalizing n with
  | nil => exact .pure fun m hm => Option.some.inj hm ▸ hn
  | cons segment rest ih =>
    refine (ha.step hn segment tags).bind fun next hnext => ?_
    refine (ha.release hn).bind fun _ _ => ?_
    cases next with
    | some child => exact ih (hnext child rfl)
    | none => exact .pure nofun

theorem segment (ha : a.Confined P apt) (hn : apt n) (i : Nat) :
    Within P (a.segment n i) fun _ => True := by
  refine (ha.name hn).bind fun name _ => ?_
  cases name <;> exact .pure trivial

theorem foldChildren {f : Nat → ν → σ → Live σ} (ha : a.Confined P apt) (hn : apt n)
    (hf : ∀ i child s, apt child → Within P (f i child s) fun _ => True) (s : σ) :
    Within P (a.foldChildren n f s) fun _ => True := by
  refine (ha.childCount hn).bind fun left _ => ?_
  generalize 0 = i
  induction left generalizing i s with
  | zero => exact .pure trivial
  | succ left ih =>
    refine (ha.childAt i hn).bind fun c hc => ?_
    cases c with
    | some child =>
      refine (hf i child s (hc child rfl)).bind fun s _ => ?_
      exact (ha.release (hc child rfl)).bind fun _ _ => ih s (i + 1)
    | none => exact ih s (i + 1)

end Confined

end Access

namespace Store

variable {α : Type} {P : Nat → Prop} {nodes : Nodes} {tree : Nat} {h : Handle} {p : Path}
  {sources : List Handle}

theorem within_ofNode {b : α} {f : Location → Live α} {good : α → Prop} (hb : good b)
    (hf : ∀ n, Within P (f n) good) : Within P (ofNode h b f) good := by
  refine Within.get fun s _ => ?_
  cases s.node? h with
  | some n => exact hf n
  | none => exact .pure hb

theorem within_adopt (ht : P tree) (n? : Option Location) :
    Within P (adopt tree n?) fun c => ∀ g ∈ c, P g.tree := by
  cases n? with
  | none => exact .pure nofun
  | some n =>
    refine (within_use tree n).bind fun h hh => .pure fun g hg => ?_
    rw [← Option.some.inj hg, hh]
    exact ht

variable (hnodes : ∀ tree, P tree → (nodes tree).Confined P fun _ => True)
include hnodes

theorem confined_handles : (handles nodes).Confined P fun h => P h.tree := by
  have hfound {h : Handle} (hh : P h.tree) {f : Location → Live (Option Location)}
      (hf : ∀ n, Within P (f n) fun c => ∀ m ∈ c, True) :
      Within P (ofNode h none fun n => do adopt h.tree (← f n)) fun c => ∀ g ∈ c, P g.tree :=
    within_ofNode nofun fun n => (hf n).bind fun n? _ => within_adopt hh n?
  exact {
    name := fun hh => within_ofNode trivial fun _ => (hnodes _ hh).name trivial
    isList := fun hh => within_ofNode trivial fun _ => (hnodes _ hh).isList trivial
    childCount := fun hh => within_ofNode trivial fun _ => (hnodes _ hh).childCount trivial
    childAt := fun i hh => hfound hh fun _ => (hnodes _ hh).childAt i trivial
    childNamed := fun name hh => hfound hh fun _ => (hnodes _ hh).childNamed name trivial
    release := within_release }

theorem within_find (hh : P h.tree) (p : Path) (tags : List String) :
    Within P (find nodes h p tags) fun c => ∀ g ∈ c, P g.tree :=
  within_ofNode nofun fun _ =>
    ((hnodes _ hh).follow tags trivial p.segments).bind fun n? _ => within_adopt hh n?

theorem within_allWith (hs : ∀ h ∈ sources, P h.tree) (p : Path) :
    Within P (allWith nodes p sources) fun found => ∀ h ∈ found, P h.tree := by
  induction sources with
  | nil => exact .pure nofun
  | cons source rest ih =>
    obtain ⟨hsource, hrest⟩ := List.forall_mem_cons.1 hs
    refine (within_find hnodes hsource p []).bind fun here hhere => ?_
    refine (ih hrest).bind fun more hmore => .pure ?_
    rw [List.forall_mem_append]
    exact ⟨fun h hh => hhere h (Option.mem_toList.1 hh), hmore⟩

theorem within_collectNames {found : List Handle} (hf : ∀ h ∈ found, P h.tree)
    (names : List String) : Within P (collectNames nodes found names) fun _ => True := by
  have ha := confined_handles hnodes
  induction found generalizing names with
  | nil => exact .pure trivial
  | cons h rest ih =>
    obtain ⟨hh, hrest⟩ := List.forall_mem_cons.1 hf
    have hsegments : Within P ((handles nodes).foldChildren h (fun i child names => do
        return addName names (← (handles nodes).segment child i)) names) fun _ => True :=
      ha.foldChildren hh (fun i _ _ hc => (ha.segment hc i).bind fun _ _ => .pure trivial) names
    exact hsegments.bind fun names _ => (within_release hh).bind fun _ _ => ih hrest names

theorem within_childNames (ht : P tree) (p : Path) :
    Within P (childNames nodes tree p) fun _ => True := by
  refine Within.get fun s _ => ?_
  split
  · exact .pure trivial
  have hsources : Within P (sources tree) fun sources => ∀ h ∈ sources, P h.tree := by
    refine Within.get fun s hs => .pure ?_
    cases hb : s.body? tree with
    | none => exact nofun
    | some b => exact hs tree b ht hb
  refine hsources.bind fun sources hsources => ?_
  refine (within_allWith hnodes hsources p).bind fun found hfound => ?_
  refine (within_collectNames hnodes hfound []).bind fun names _ => ?_
  have hnote : Within P (modify fun s => s.modifyTree tree fun t =>
      { t with body := t.body.note p names }) fun _ => True := by
    refine fun s hs => ⟨spares_modifyTree hs ht fun t => ?_, trivial⟩
    cases t.body <;> exact List.Subset.refl _
  exact hnote.bind fun _ _ => .pure trivial

theorem confined_overlay (ht : P tree) : (overlay nodes tree).Confined P fun _ => True where
  name _ := .pure trivial
  isList _ := .pure trivial
  childCount _ := (within_childNames hnodes ht _).bind fun _ _ => .pure trivial
  childAt _ _ := (within_childNames hnodes ht _).bind fun _ _ => .pure fun _ _ => trivial
  childNamed _ _ := (within_childNames hnodes ht _).bind fun _ _ => .pure fun _ _ => trivial
  release _ := .pure trivial

omit hnodes

theorem confined_nodesUpTo (height : Nat) (ht : P tree) :
    (nodesUpTo height tree).Confined P fun _ => True := by
  induction height generalizing tree with
  | zero => exact Access.confined_lift .nothing
  | succ height ih =>
    refine Access.confined_choose (Within.get fun s _ => ?_)
    cases s.body? tree with
    | none => exact .pure (Access.confined_lift .nothing)
    | some b =>
      cases b with
      | own c => exact .pure (Access.confined_lift _)
      | overlay sources listings =>
        exact .pure ((confined_overlay (fun _ => ih) ht).disguise _ _)

end Store

end AttributeTrees
