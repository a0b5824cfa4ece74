import AttributeTrees.Proofs.Access.Layers
import AttributeTrees.Proofs.Store.Confined
import AttributeTrees.Proofs.Store.Stacking
/-!
# What overlays remember

Once an overlay has found out which children it has at a path, it lists these. So what has been
found out by the end of a search agrees with all that the overlay answered on the way, whatever the
trees that it is stacked on would answer later. Main statement: what an overlay has noted behind a
question tells its answer.
-/
namespace AttributeTrees.Store

open Access (Tells Echoes run_bind_of_run)

abbrev Names : Type := Path → List String

variable {α β : Type} {s s' base : Store} {tree : Nat} {held held' : List Handle} {names : Names}
  {F F' : Names → Prop} {sources : List Handle} {listings : List (Path × List String)}

def listed? (s : Store) (tree : Nat) (p : Path) : Option (List String) :=
  (((s.body? tree).map (·.listings)).getD []).lookup p

def Agrees (s : Store) (tree : Nat) (names : Names) : Prop :=
  ∀ p found, s.listed? tree p = some found → names p = found

theorem agrees_listed (s : Store) (tree : Nat) :
    s.Agrees tree fun p => (s.listed? tree p).getD [] := by
  intro p found h
  change (s.listed? tree p).getD [] = found
  rw [h]
  rfl

theorem agrees_of_body (hb : s'.body? tree = s.body? tree) :
    s'.Agrees tree names ↔ s.Agrees tree names := by
  unfold Agrees listed?
  rw [hb]

/-- A store later than another, where something holds of all names that agree with it. -/
structure Recalls (base : Store) (tree : Nat) (F : Names → Prop) (held : List Handle)
    (s : Store) : Prop where
  balanced : s.Balanced held
  later : base.Later s
  fact : ∀ names, s.Agrees tree names → F names

theorem knowledge_recalls (base : Store) (tree : Nat) (F : Names → Prop) :
    Knowledge (Recalls base tree F) where
  balanced h := h.balanced
  kept h hl hb hs :=
    ⟨hs, h.later.trans hl, fun names hn => h.fact names ((agrees_of_body (hb tree)).1 hn)⟩

theorem Recalls.mono (h : Recalls base tree F held s) (hF : ∀ names, F names → F' names) :
    Recalls base tree F' held s :=
  ⟨h.balanced, h.later, fun names hn => hF names (h.fact names hn)⟩

theorem Recalls.perm (h : Recalls base tree F held s) (hp : held.Perm held') :
    Recalls base tree F held' s :=
  ⟨h.balanced.perm hp, h.later, h.fact⟩

def Reveals (base : Store) (tree : Nat) (F : Names → Prop) (held : List Handle) (s : Store)
    (x : Live α) (g : Names → α) : Prop :=
  ∃ answer, Tells (Recalls base tree (fun names => F names ∧ g names = answer) held) s x answer

theorem reveals_of_tells {x : Live α} {g : Names → α} {answer : α}
    (hx : Tells (Recalls base tree F held) s x answer) (hg : ∀ names, g names = answer) :
    Reveals base tree F held s x g := by
  obtain ⟨s', hrun, hs, hl⟩ := hx
  exact ⟨answer, s', hrun, hs.mono fun names hF => ⟨hF, hg names⟩, hl⟩

theorem Reveals.map {x : Live α} {g : Names → α} (f : α → β)
    (hx : Reveals base tree F held s x g) :
    Reveals base tree F held s (f <$> x) fun names => f (g names) := by
  obtain ⟨answer, s', hrun, hs, hl⟩ := hx
  refine ⟨f answer, s', ?_, hs.mono fun names hn => ⟨hn.1, congrArg f hn.2⟩, hl⟩
  rw [StateT.run_map, hrun]
  rfl

theorem Reveals.of_run {x y : Live α} {g : Names → α} (hx : Reveals base tree F held s x g)
    (hrun : y.run s = x.run s) : Reveals base tree F held s y g := by
  obtain ⟨answer, s', hx, hs⟩ := hx
  exact ⟨answer, s', hrun.trans hx, hs⟩

theorem reveals_match {f : β → Live α} {g : Names → β → α} (hs : Recalls base tree F held s)
    (hf : ∀ x, Reveals base tree F held s (f x) fun names => g names x) (x? : Option β) (d : α) :
    Reveals base tree F held s (match x? with | some x => f x | none => pure d)
      fun names => match x? with | some x => g names x | none => d := by
  cases x? with
  | some x => exact hf x
  | none => exact reveals_of_tells (.pure hs d) fun _ => rfl

theorem closed_above (hl : base.Later s) : Closed (base.Above tree) s := by
  intro o b ho hb h hh
  obtain ⟨b₀, hb₀, hu⟩ := hl.exists_body hb
  refine ho.tail ⟨b₀, hb₀, h, ?_, rfl⟩
  rwa [← sources_unlisted, ← hu, sources_unlisted]

theorem listed?_note {t : Tree} (ht : s.trees[tree]? = some t)
    (hb : t.body = .overlay sources listings) (p q : Path) (found : List String) :
    (s.modifyTree tree fun t => { t with body := t.body.note p found }).listed? tree q =
      if q = p then some found else s.listed? tree q := by
  have hlisted (s : Store) (t : Tree) (ht : s.trees[tree]? = some t) :
      s.listed? tree q = t.body.listings.lookup q := by
    rw [listed?, body?, ht]
    rfl
  rw [hlisted _ { t with body := t.body.note p found } (by rw [trees_modifyTree ht, if_pos rfl]),
    hlisted s t ht, hb]
  change ((p, found) :: listings).lookup q = _
  rw [List.lookup_cons]
  split
  · next h => rw [if_pos (eq_of_beq h)]
  · next h => rw [if_neg (by simpa using h)]; rfl

theorem agrees_note {t : Tree} {p : Path} {found : List String} (ht : s.trees[tree]? = some t)
    (hb : t.body = .overlay sources listings) (hp : s.listed? tree p = none) :
    (s.modifyTree tree fun t => { t with body := t.body.note p found }).Agrees tree names →
      s.Agrees tree names ∧ names p = found := by
  intro h
  refine ⟨fun q old hq => h q old ?_, h p found ?_⟩
  · have hqp : q ≠ p := by
      rintro rfl
      rw [hp] at hq
      cases hq
    rw [listed?_note ht hb, if_neg hqp, hq]
  · rw [listed?_note ht hb, if_pos rfl]

theorem run_childNames (nodes : Nat → Access Live Location) (tree : Nat) (p : Path) (s : Store) :
    (childNames nodes tree p).run s =
      ((s.listed? tree p).elim (do
        let names ← collectNames nodes (← allWith nodes p (← Store.sources tree)) []
        modify fun s : Store => s.modifyTree tree fun t => { t with body := t.body.note p names }
        return names) pure).run s := by
  rw [childNames, run_bind_of_run (rfl : (get : Live Store).run s = (s, s)), listed?]
  cases (((s.body? tree).map (·.listings)).getD []).lookup p <;> rfl

section
variable (habove : ¬ base.Above tree tree) (hl : base.Later s)
  (hb : s.body? tree = some (.overlay sources listings))
include habove hl hb

theorem exists_unnoted (height : Nat) {p : Path} (hp : s.listed? tree p = none) :
    ∃ (found : List String) (s₁ : Store),
      (childNames (nodesUpTo height) tree p).run s = (found,
        s₁.modifyTree tree fun t => { t with body := t.body.note p found }) ∧
      s₁.body? tree = s.body? tree := by
  let asked : Live (List String) := do
    collectNames (nodesUpTo height) (← allWith (nodesUpTo height) p sources) []
  have hsources : ∀ h ∈ sources, base.Above tree h.tree := by
    obtain ⟨noted, hb₀⟩ := hl.body?_overlay.1 ⟨listings, hb⟩
    exact fun h hh => .single ⟨_, hb₀, h, hh, rfl⟩
  have hnodes (o : Nat) (ho : base.Above tree o) := confined_nodesUpTo height ho
  have hwithin : Within (base.Above tree) asked fun _ => True :=
    (within_allWith hnodes hsources p).bind fun found hfound =>
      within_collectNames hnodes hfound []
  rcases hasked : asked.run s with ⟨found, s₁⟩
  have hspares := (hwithin s (closed_above hl)).1
  rw [hasked] at hspares
  refine ⟨found, s₁, ?_, hspares.body tree habove⟩
  rw [run_childNames, hp]
  change (Store.sources tree >>= fun sources => _).run s = _
  rw [run_bind_of_run (run_sources hb), ← bind_assoc]
  exact run_bind_of_run hasked _

end

/-- An overlay keeps what it lists, and what it has listed tells its answer. -/
theorem reveals_childNames (habove : ¬ base.Above tree tree)
    (hb : base.body? tree = some (.overlay sources listings)) (height : Nat)
    (hs : Recalls base tree F held s) (p : Path) :
    Reveals base tree F held s (childNames (nodesUpTo height) tree p) fun names => names p := by
  cases hp : s.listed? tree p with
  | some found =>
    refine ⟨found, s, ?_, ⟨hs.balanced, hs.later, fun names hn => ?_⟩, .refl s⟩
    · rw [run_childNames, hp]
      rfl
    · exact ⟨hs.fact names hn, hn p found hp⟩
  | none =>
    obtain ⟨noted, hb'⟩ := hs.later.body?_overlay.2 ⟨_, hb⟩
    obtain ⟨found, s₁, hrun, hbody⟩ := exists_unnoted habove hs.later hb' height hp
    have ho := keeps_childNames (quiet_nodesUpTo height) tree p held s hs.balanced nofun nofun
    rw [hrun] at ho
    obtain ⟨t, ht, htb⟩ := Option.map_eq_some_iff.1 (hbody.trans hb')
    have hp₁ : s₁.listed? tree p = none := by rw [listed?, hbody, ← listed?, hp]
    refine ⟨found, _, hrun, ⟨ho.balanced, hs.later.trans ho.later, fun names hn => ?_⟩, ho.later⟩
    obtain ⟨hold, hnew⟩ := agrees_note ht htb hp₁ hn
    exact ⟨hs.fact names ((agrees_of_body hbody).1 hold), hnew⟩

theorem run_nodes_overlay (hb : s.body? tree = some (.overlay sources listings))
    (q : Access Live Location → Live α) (hq : ∀ pick, q (.choose pick) = pick >>= q) :
    ∃ height, (q (Live.nodes tree)).run s =
      (q ((overlay (nodesUpTo height) tree).disguise .stacked Location.stacked?)).run s := by
  obtain ⟨height, hheight⟩ := exists_height hb
  refine ⟨height, ?_⟩
  have hall : (q (Live.nodes tree)).run s = (q (nodesUpTo s.trees.length tree)).run s := by
    rw [Live.nodes, hq]
    rfl
  rw [hall, hheight, nodesUpTo, hq, StateT.run_bind, StateT.run_bind, StateT.run_get, pure_bind, hb]
  rfl

theorem echoes_recalls {c : Content} (hb : base.body? tree = some (.own c))
    (hs : Recalls base tree F held s) :
    Echoes (Recalls base tree F held) s (Live.nodes tree) (c.access base.disk) := by
  have hcs := hs.later.body?_own hb
  obtain ⟨height, hheight⟩ := exists_height hcs
  apply echoes_nodes
  rw [hheight, ← hs.later.disk]
  exact echoes_own hs hcs height

end AttributeTrees.Store
