import AttributeTrees.Proofs.Json.Ways
import AttributeTrees.Proofs.Store.Session
import AttributeTrees.Proofs.Store.Visit
import AttributeTrees.Proofs.Store.Walk
/-!
# Reports of JSON documents

Whatever the callback of a report does between two moments, it is called for each place of the
document, in order and with the way to it. Main statement: by these paths the handles of the report
are found again, all by different ones, if and only if no member of the empty name stands at an
index that is another member's name.
-/
namespace AttributeTrees.Store

open Access (Echoes Mirrors run_bind_of_run)
open Document (Place at?)
open Json (Value)

variable {τ : Type} {s : Store} {held : List Handle} {tree : Nat} {h : Handle} {n : Location}

theorem run_atRoot_find {c : Content} (hs : s.Balanced held) (hh : h ∈ held)
    (hc : s.body? h.tree = some (.own c)) (hn : s.node? h = some n)
    (hroot : (c.root s.disk).Exact) {p : Path} {tags : List String}
    (hp : (c.access s.disk).resolve (c.root s.disk) p tags = some n) :
    ((Live.atRoot h.tree fun r => Live.find r p tags).run s).1 = some h := by
  have hK := knowledge_since s
  have hs₀ : Since s held s := ⟨hs, .refl s⟩
  have ha : s.Anchored held h.tree := .inr ⟨h, List.mem_append_left _ hh, rfl⟩
  obtain ⟨r, s₁, huse, hs₁, hl₁, hrt, hrn⟩ := hK.use hs₀ ha hroot
  have hrun : (Live.root h.tree).run s = (r, s₁) := by
    rw [Live.root, StateT.run_bind, StateT.run_get, pure_bind, hc]
    exact huse
  have hfind := hands_find hK hs₁ hrn (hrt ▸ mirrors_since hc (r :: held)) (precise_access c s.disk)
    hroot p tags
  rw [hp] at hfind
  obtain ⟨g, s₂, hrun₂, hs₂, hl₂, hgt, hgn⟩ := hfind
  have hh₂ : h ∈ g :: r :: held := List.mem_cons_of_mem _ (List.mem_cons_of_mem _ hh)
  have hn₂ := hK.node? hs₀ hs₂ (hl₁.trans hl₂) hn hh₂
  -- Both handles stand for the node in one table, so they carry one id.
  have hid : g.id = h.id := by
    refine ((tallied_of_counted hs₂.1.toCounted).nodes g (by simp) h (by simp [hh]) ?_).2 ?_
    · rw [hgt, hrt]
    · exact ⟨n, n, hgn, hn₂, beq_self_eq_true n⟩
  have hsame : g = h := by
    obtain ⟨i, j⟩ := g
    obtain ⟨k, l⟩ := h
    simp_all
  subst hsame
  rw [Live.atRoot, run_bind_of_run hrun]
  exact congrArg Prod.fst (run_bind_of_run hrun₂ _)

theorem patient_client {d : Disk} {σ : Session} (hσ : Session.Reachable d σ)
    (ht : tree ∈ σ.compounds) {f : Handle → Path → τ → Live (Bool × τ)} {kept : τ → List Handle}
    (hf : ∀ h p st, Client (.node h :: σ.loans) (kept st) (f h p st) fun r => kept r.2)
    (hmore : ∀ h p st s, ((f h p st).run s).1.1 = true) :
    Patient (Since σ.store) tree σ.attributes kept
      (fun st s => σ.store.Later s ∧ ∀ g ∈ kept st, s.Anchored σ.attributes g.tree) f where
  later hP hl := ⟨hP.1.trans hl, fun g hg => (hP.2 g hg).later hl⟩
  call {walk h p st s} hwalk hh hs hP := by
    have hholders {j : Nat} (hj : j ∈ σ.compounds) {s : Store} (hl : σ.store.Later s) :
        0 < s.holders j := by
      rw [hl.holders, hσ.sound.holders]
      exact List.count_pos_iff.2 hj
    have ho := (hf h p st).trades (walk ++ σ.attributes) s hs.1 (fun g hg =>
      (hP.2 g hg).mono (List.subset_append_right ..)) fun l hl => by
        rcases List.mem_cons.1 hl with rfl | hl
        · exact List.mem_append_left _ (List.mem_append_left _ hh)
        rcases List.mem_append.1 hl with hl | hl
        · obtain ⟨g, hg, rfl⟩ := List.mem_map.1 hl
          exact List.mem_append_left _ (List.mem_append_right _ hg)
        · obtain ⟨j, hj, rfl⟩ := List.mem_map.1 hl
          exact .inl (hholders hj hP.1)
    have hl' := hP.1.trans ho.later
    refine ⟨((f h p st).run s).1.2, ((f h p st).run s).2, ?_, ⟨ho.balanced, hl'⟩, ho.later, hl', ?_⟩
    · rw [← hmore h p st s]
      rfl
    · -- A handle of the report keeps its tree, but the users hold that tree anyway.
      intro g hg
      rcases ho.anchored g hg with hpos | ⟨e, he, het⟩
      · exact .inl hpos
      · rw [List.append_assoc] at he
        rcases List.mem_append.1 he with he | he
        · refine .inl ?_
          rw [← het, hwalk e he]
          exact hholders ht hl'
        · exact .inr ⟨e, he, het⟩

/-- As long as the handle of a call is held and stands for its node, its path leads to it. -/
def Call.Regained (c : Call) (doc : Value) : Prop :=
  ∀ held s, s.Balanced held → c.handle ∈ held →
    s.body? c.handle.tree = some (.own (.json doc)) → s.node? c.handle = c.store.node? c.handle →
    ((Live.atRoot c.handle.tree fun r => Live.find r c.path []).run s).1 = some c.handle

theorem place?_document (q : Place) : (Location.document q).place? = some q := rfl

theorem rows_json (doc : Value) (d : Disk) (depth : Nat) :
    ((Content.json doc).access d).rows depth (.document []) Path.here =
      (Value.depiction.spots depth doc).map fun q =>
        (.document q, ⟨Value.depiction.way doc q⟩) := by
  refine ((Document.access Value.form doc).rows_disguise place?_document depth [] _).trans ?_
  rw [Value.depiction.rows_access (Document.at?_nil Value.form doc), List.map_map]
  rfl

theorem resolve_json (doc : Value) (d : Disk) (p : Path) (tags : List String) :
    ((Content.json doc).access d).resolve (.document []) p tags =
      Option.map .document ((Document.access Value.form doc).resolve [] p tags) :=
  (Document.access Value.form doc).follow_disguise place?_document tags [] p.segments

theorem nodup_ways_iff {doc : Value} (hst : doc.Storable) {places : List Place}
    (hplaces : places.Nodup) (hmem : ∀ q, q ∈ places ↔ (at? Value.form doc q).isSome) :
    (places.map fun q => (⟨Value.depiction.way doc q⟩ : Path)).Nodup ↔ doc.Clear := by
  constructor
  · intro hn
    by_contra hclear
    obtain ⟨p, q, hne, hp, hq, hway⟩ := Value.exists_way_eq hclear
    apply hne
    exact List.inj_on_of_nodup_map hn ((hmem p).2 hp) ((hmem q).2 hq) (congrArg Path.mk hway)
  · intro hclear
    apply hplaces.map_on
    intro p hp q hq hpq
    obtain ⟨v, hv⟩ := Option.isSome_iff_exists.1 ((hmem p).1 hp)
    obtain ⟨w, hw⟩ := Option.isSome_iff_exists.1 ((hmem q).1 hq)
    have hp' := Value.resolve_way hst hclear hv
    rw [hpq, Value.resolve_way hst hclear hw] at hp'
    exact (Option.some.inj hp').symm

theorem regained_of_clear {doc : Value} (hst : doc.Storable) (hclear : doc.Clear) {c : Call}
    {q : Place} (hq : (at? Value.form doc q).isSome)
    (hc : c.row = (some (.document q), ⟨Value.depiction.way doc q⟩)) : c.Regained doc := by
  intro held s hs hh hbody hn
  obtain ⟨hnode, hpath⟩ := Prod.mk.inj hc
  obtain ⟨v, hv⟩ := Option.isSome_iff_exists.1 hq
  refine run_atRoot_find hs hh hbody (hn.trans hnode) rfl ?_
  rw [hpath]
  refine (resolve_json doc s.disk _ []).trans ?_
  rw [Value.resolve_way hst hclear hv]
  rfl

theorem report_json {d : Disk} {σ : Session} (hσ : Session.Reachable d σ)
    (ht : tree ∈ σ.compounds) {doc : Value}
    (hdoc : σ.store.body? tree = some (.own (.json doc)))
    {f : Handle → Path → τ → Live (Bool × τ)} {kept : τ → List Handle}
    (hf : ∀ h p st, Client (.node h :: σ.loans) (kept st) (f h p st) fun r => kept r.2)
    (hmore : ∀ h p st s, ((f h p st).run s).1.1 = true) {st : τ} (hkept : kept st = []) :
    ∃ places : List Place, places.Pairwise (· < ·) ∧
      (∀ q, q ∈ places ↔ (at? Value.form doc q).isSome) ∧
      Noted (Since σ.store) tree
        ((Live.atRoot tree fun h => Live.access.report (traced f) h (st, [])).run σ.store).1.2
        (places.map fun q => (.document q, ⟨Value.depiction.way doc q⟩)) := by
  have hs : Since σ.store (kept st ++ σ.attributes) σ.store := by
    rw [hkept]
    exact ⟨hσ.sound.balanced, .refl _⟩
  have hanchored (held : List Handle) : σ.store.Anchored (held ++ σ.attributes) tree :=
    (hσ.anchored ht).mono (List.subset_append_right ..)
  obtain ⟨st', calls, s₁, s', hrun, -, -, -, ⟨held, hs₁⟩, -, hcalls⟩ :=
    (patient_client hσ ht hf hmore).report (knowledge_since σ.store)
      (precise_access (.json doc) σ.store.disk) (mirrors_since hdoc) hdoc rfl hanchored hs
      ⟨.refl _, by rw [hkept]; nofun⟩
  have hsize : doc.size < s₁.size + 1 := by
    have hh : Holds s₁ tree Value.form doc := ⟨.json doc, hs₁.2.body?_own hdoc, rfl, rfl, rfl⟩
    exact Nat.lt_succ_of_le hh.size_le
  refine ⟨Value.depiction.spots (s₁.size + 1) doc, Value.depiction.pairwise_spots _ doc,
    fun q => Value.depiction.mem_spots hsize, ?_⟩
  rw [hrun, ← rows_json doc σ.store.disk]
  exact hcalls

/-- A report that skips nothing reports the places of the document, each once and in order, by
handles that are held meanwhile. The paths are different and lead back to the handles, if and only
if no member of the empty name is at an index that is the name of another. -/
theorem report_leads_back {d : Disk} {σ : Session} (hσ : Session.Reachable d σ)
    (ht : tree ∈ σ.compounds) {doc : Value}
    (hdoc : σ.store.body? tree = some (.own (.json doc))) (hst : doc.Storable)
    {f : Handle → Path → τ → Live (Bool × τ)} {kept : τ → List Handle}
    (hf : ∀ h p st, Client (.node h :: σ.loans) (kept st) (f h p st) fun r => kept r.2)
    (hmore : ∀ h p st s, ((f h p st).run s).1.1 = true) {st : τ} (hkept : kept st = []) :
    let r := (Live.atRoot tree fun h => Live.access.report (traced f) h (st, [])).run σ.store
    let calls := r.1.2
    (Live.atRoot tree fun h => Live.access.report f h st).run σ.store = (r.1.1, r.2) ∧
    (∀ c ∈ calls, c.handle.tree = tree ∧ c.store.body? tree = some (.own (.json doc)) ∧
      ∃ held, c.store.Balanced held ∧ c.handle ∈ held) ∧
    (∃ places : List Place,
      calls.map (fun c => c.store.node? c.handle) = places.map (some ∘ .document) ∧
      places.Pairwise (· < ·) ∧ ∀ q, q ∈ places ↔ (at? Value.form doc q).isSome) ∧
    ((calls.map (·.path)).Nodup ∧ (∀ c ∈ calls, c.Regained doc) ↔ doc.Clear) := by
  intro r calls
  obtain ⟨places, hordered, hmem, hcalls⟩ := report_json hσ ht hdoc hf hmore hkept
  have hplaces : places.Nodup := by
    apply hordered.imp
    rintro p _ hlt rfl
    exact List.lt_irrefl p hlt
  have hpaths : calls.map (·.path) = places.map fun q => ⟨Value.depiction.way doc q⟩ := by
    simpa [Function.comp_def] using hcalls.paths
  have hnodes : calls.map (fun c => c.store.node? c.handle) = places.map (some ∘ .document) := by
    simpa [Function.comp_def, Call.row] using congrArg (List.map Prod.fst) hcalls.rows
  refine ⟨?_, ?_, ⟨places, hnodes, hordered, hmem⟩, ?_, ?_⟩
  · obtain ⟨more, hmore⟩ := tracks_atRoot (fun h => tracks_report f h st []) tree σ.store
    rw [show r = _ from hmore]
    rfl
  · intro c hc
    obtain ⟨htree, held, hh, hcs⟩ := hcalls.known c hc
    exact ⟨htree, hcs.2.body?_own hdoc, held, hcs.1, hh⟩
  · rintro ⟨hnodup, -⟩
    rw [hpaths] at hnodup
    exact (nodup_ways_iff hst hplaces hmem).1 hnodup
  · intro hclear
    refine ⟨?_, fun c hc => ?_⟩
    · rw [hpaths]
      exact (nodup_ways_iff hst hplaces hmem).2 hclear
    · have hrow : c.row ∈ calls.map Call.row := List.mem_map_of_mem hc
      rw [hcalls.rows, List.map_map] at hrow
      obtain ⟨q, hq, he⟩ := List.mem_map.1 hrow
      exact regained_of_clear hst hclear ((hmem q).1 hq) he.symm

def unnamed : Value := .object [("", .array [.null]), ("1", .bool true)]

theorem report_leads_back_unnamed :
    let σ := (Session.start .empty).openTree (.own (.json unnamed))
    let count (_ : Handle) (_ : Path) (n : Nat) : Live (Bool × Nat) := pure (true, n + 1)
    let calls := ((Live.atRoot 0 fun h =>
      Live.access.report (traced count) h (0, [])).run σ.store).1.2
    Session.Reachable .empty σ ∧ unnamed.Clear ∧ (calls.map (·.path)).Nodup ∧
      ∀ c ∈ calls, c.Regained unnamed := by
  intro σ count calls
  have hσ : Session.Reachable .empty σ := .step .start (.openContent _)
  have hst : unnamed.Storable := by decide
  have hclear : unnamed.Clear := by decide
  let kept (_ : Nat) : List Handle := []
  have hcount : ∀ h p n, Client (.node h :: σ.loans) (kept n) (count h p n) fun r => kept r.2 :=
    fun _ _ _ => .pure (fun _ => []) _
  have hleads := @report_leads_back Nat 0 .empty σ hσ (List.mem_singleton_self 0) unnamed rfl hst
    count kept hcount (fun _ _ _ _ => rfl) 0 rfl
  exact ⟨hσ, hclear, hleads.2.2.2.2 hclear⟩

end AttributeTrees.Store
