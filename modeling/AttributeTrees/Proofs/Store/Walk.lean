import AttributeTrees.Proofs.Store.Handles
import AttributeTrees.Traversal
/-!
# Reports of trees

A report goes through the handles of a tree as a walk without effects goes through its nodes. Each
call is noted with the handle, the path and the store that the callback finds. Main statement: the
calls of a report are the rows of its tree.
-/
namespace AttributeTrees

namespace Access

variable {m : Type → Type} {ν σ : Type} [Monad m] (e : Access m ν)

def reportChild (f : ν → Path → σ → m (Bool × σ)) (indexed : Bool) (depth : Nat) (p : Path)
    (i : Nat) (child : ν) (s : σ) : m σ :=
  (if indexed then pure (toString i) else e.segment child i) >>= fun segment =>
    e.reportNode f depth child (p.push segment) s

def reportBelow (f : ν → Path → σ → m (Bool × σ)) (depth : Nat) (n : ν) (p : Path) (s : σ) :
    m σ := do
  if ← e.isLink n then return s
  else
    let indexed ← e.isList n
    e.foldChildren n (e.reportChild f indexed depth p) s

theorem reportNode_succ (f : ν → Path → σ → m (Bool × σ)) (depth : Nat) (n : ν) (p : Path)
    (s : σ) : e.reportNode f (depth + 1) n p s = do
      let r ← f n p s
      if r.1 then e.reportBelow f depth n p r.2 else return r.2 := by
  rw [reportNode]
  refine bind_congr fun r => ?_
  obtain ⟨deeper, s⟩ := r
  cases deeper with
  | false => rfl
  | true =>
    refine bind_congr fun link => ?_
    cases link with
    | true => rfl
    | false =>
      refine bind_congr fun indexed => ?_
      cases indexed <;> rfl

end Access

namespace Store

open Access (Tells Echoes Mirrors run_bind_of_run)

variable {σ τ : Type} {K : List Handle → Store → Prop} {a : Access Id Location} {nodes : Nodes}
  {s : Store} {held : List Handle} {tree : Nat} {h : Handle} {n : Location}

theorem Knowledge.perm (hK : Knowledge K) {held' : List Handle} (hs : K held s)
    (hp : held.Perm held') : K held' s :=
  hK.kept hs (.refl s) (fun _ => rfl) ((hK.balanced hs).perm hp)

section
variable {f : Nat → Handle → σ → Live σ} {kept : σ → List Handle}
  {P : List (Nat × Location) → σ → Store → Prop} (hK : Knowledge K) (ha : a.Precise)
  (hm : ∀ held, Mirrors (K held) (nodes h.tree) a)
  (hlater : ∀ {done st s s'}, P done st s → s.Later s' → P done st s')
  (hf : ∀ {done i m c st s}, m.Exact → P done st s → K (kept st ++ c :: held) s →
    c.tree = h.tree → s.node? c = some m → ∃ st' s', (f i c st).run s = (st', s') ∧
      K (kept st' ++ c :: held) s' ∧ s.Later s' ∧ P (done ++ [(i, m)]) st' s')
  (hh : h ∈ held) (hx : n.Exact)
include hK ha hm hlater hf hh hx

theorem Knowledge.foldChildrenFrom (left i : Nat) {done : List (Nat × Location)} {st : σ}
    {s : Store} (hn : s.node? h = some n) (hs : K (kept st ++ held) s) (hP : P done st s) :
    ∃ st' s', ((handles nodes).foldChildrenFrom h f left i st).run s = (st', s') ∧
      K (kept st' ++ held) s' ∧ s.Later s' ∧
      P (done ++ (List.range' i left).filterMap fun i =>
        (show Option Location from a.childAt n i).map (i, ·)) st' s' := by
  induction left generalizing i done st s with
  | zero =>
    refine ⟨st, s, rfl, hs, .refl s, ?_⟩
    simpa using hP
  | succ left ih =>
    have hhands := hands_childAt hK hs hn (hm _ s hs) ha hx i
    rw [Access.foldChildrenFrom, List.range'_succ, List.filterMap_cons]
    cases hc : a.childAt n i with
    | none =>
      rw [hc] at hhands
      obtain ⟨s₁, hrun, hs₁, hl₁⟩ := hhands
      have hn₁ := hK.node? hs hs₁ hl₁ hn (List.mem_append_right _ hh)
      obtain ⟨st', s', hrest, hs', hl', hP'⟩ := ih (i + 1) hn₁ hs₁ (hlater hP hl₁)
      exact ⟨st', s', (run_bind_of_run hrun _).trans hrest, hs', hl₁.trans hl', hP'⟩
    | some m =>
      rw [hc] at hhands
      obtain ⟨c, s₁, hrun, hs₁, hl₁, hct, hcn⟩ := hhands
      have hs₁' := hK.perm hs₁ List.perm_middle.symm
      obtain ⟨st₂, s₂, hrun₂, hs₂, hl₂, hP₂⟩ :=
        hf (i := i) (ha.childAt hx hc) (hlater hP hl₁) hs₁' hct hcn
      -- The child is given back while its parent keeps the tree.
      have hs₂' := hK.perm hs₂ List.perm_middle
      have hanchored : s₂.Anchored (kept st₂ ++ held) c.tree :=
        .inr ⟨h, List.mem_append_left _ (List.mem_append_right _ hh), hct.symm⟩
      obtain ⟨s₃, hrun₃, hs₃, hl₃⟩ := hK.release hs₂' hanchored
      have hl := (hl₁.trans hl₂).trans hl₃
      have hn₃ := hK.node? hs hs₃ hl hn (List.mem_append_right _ hh)
      obtain ⟨st', s', hrest, hs', hl', hP'⟩ := ih (i + 1) hn₃ hs₃ (hlater hP₂ hl₃)
      refine ⟨st', s', ?_, hs', hl.trans hl', ?_⟩
      · refine (run_bind_of_run hrun _).trans ((run_bind_of_run hrun₂ _).trans ?_)
        exact (run_bind_of_run hrun₃ _).trans hrest
      · simpa using hP'

theorem Knowledge.foldChildren {st : σ} (hn : s.node? h = some n) (hs : K (kept st ++ held) s)
    (hP : P [] st s) : ∃ st' s', ((handles nodes).foldChildren h f st).run s = (st', s') ∧
      K (kept st' ++ held) s' ∧ s.Later s' ∧ P (a.children n) st' s' := by
  obtain ⟨s₁, hrun, hs₁, hl₁⟩ := tells_ofNode (b := 0) hn ((hm _ s hs).childCount n)
  have hn₁ := hK.node? hs hs₁ hl₁ hn (List.mem_append_right _ hh)
  obtain ⟨st', s', hrest, hs', hl', hP'⟩ :=
    hK.foldChildrenFrom (P := P) ha hm hlater hf hh hx (a.childCount n) 0 hn₁ hs₁
      (hlater hP hl₁)
  exact ⟨st', s', (run_bind_of_run hrun _).trans hrest, hs', hl₁.trans hl', hP'⟩

end

structure Call where
  handle : Handle
  path : Path
  store : Store

def Call.row (c : Call) : Option Location × Path := (c.store.node? c.handle, c.path)

def traced (f : Handle → Path → τ → Live (Bool × τ)) (h : Handle) (p : Path)
    (st : τ × List Call) : Live (Bool × (τ × List Call)) := do
  let s ← get
  let (deeper, next) ← f h p st.1
  return (deeper, next, st.2 ++ [⟨h, p, s⟩])

/-- The callback always wants more, and behind it is known what was known: it may keep handles of
its own, but `walk` and `base` stay as they are. -/
structure Patient (K : List Handle → Store → Prop) (tree : Nat) (base : List Handle)
    (kept : τ → List Handle) (P : τ → Store → Prop) (f : Handle → Path → τ → Live (Bool × τ)) :
    Prop where
  later : ∀ {st s s'}, P st s → s.Later s' → P st s'
  call : ∀ {walk : List Handle} {h p st s}, (∀ g ∈ walk, g.tree = tree) → h ∈ walk →
    K (kept st ++ (walk ++ base)) s → P st s → ∃ st' s', (f h p st).run s = ((true, st'), s') ∧
      K (kept st' ++ (walk ++ base)) s' ∧ s.Later s' ∧ P st' s'

variable {base : List Handle} {kept : τ → List Handle} {P : τ → Store → Prop}
  {f : Handle → Path → τ → Live (Bool × τ)}

structure Noted (K : List Handle → Store → Prop) (tree : Nat) (calls : List Call)
    (rows : List (Location × Path)) : Prop where
  rows : calls.map Call.row = rows.map fun r => (some r.1, r.2)
  known : ∀ c ∈ calls, c.handle.tree = tree ∧ ∃ held, c.handle ∈ held ∧ K held c.store

theorem Noted.paths {calls : List Call} {rows : List (Location × Path)}
    (h : Noted K tree calls rows) : calls.map (·.path) = rows.map (·.2) := by
  simpa [Function.comp_def, Call.row] using congrArg (List.map Prod.snd) h.rows

theorem Noted.append {calls more : List Call} {rows others : List (Location × Path)}
    (h : Noted K tree calls rows) (k : Noted K tree more others) :
    Noted K tree (calls ++ more) (rows ++ others) where
  rows := by rw [List.map_append, List.map_append, h.rows, k.rows]
  known := List.forall_mem_append.2 ⟨h.known, k.known⟩

theorem run_traced {deeper : Bool} {st st' : τ} {s' : Store} {p : Path} (log : List Call)
    (hrun : (f h p st).run s = ((deeper, st'), s')) :
    (traced f h p (st, log)).run s = ((deeper, st', log ++ [⟨h, p, s⟩]), s') := by
  rw [traced, StateT.run_bind, StateT.run_get, pure_bind, StateT.run_bind, hrun]
  rfl

def Reported (K : List Handle → Store → Prop) (tree : Nat) (base : List Handle)
    (kept : τ → List Handle) (P : τ → Store → Prop) (f : Handle → Path → τ → Live (Bool × τ))
    (a : Access Id Location) (depth : Nat) : Prop :=
  ∀ {walk : List Handle} {h n s st} (p log), (∀ g ∈ walk, g.tree = tree) → h ∈ walk →
    s.node? h = some n → n.Exact → K (kept st ++ (walk ++ base)) s → P st s →
    ∃ st' calls s', (Live.access.reportNode (traced f) depth h p (st, log)).run s =
        ((st', log ++ calls), s') ∧ K (kept st' ++ (walk ++ base)) s' ∧ s.Later s' ∧ P st' s' ∧
      Noted K tree calls (a.rows depth n p)

def Logged (K : List Handle → Store → Prop) (tree : Nat) (P : τ → Store → Prop)
    (a : Access Id Location) (depth : Nat) (n : Location) (p : Path) (log : List Call)
    (done : List (Nat × Location)) (st : τ × List Call) (s : Store) : Prop :=
  P st.1 s ∧ ∃ calls, st.2 = log ++ calls ∧ Noted K tree calls
    (done.flatMap fun child => a.rows depth child.2 (p.push (a.rowSegment n child)))

section
variable (hK : Knowledge K) (hm : ∀ held, Mirrors (K held) (Live.nodes tree) a)
  (hf : Patient K tree base kept P f) {depth : Nat} (ih : Reported K tree base kept P f a depth)
  {walk : List Handle} (p : Path) (log : List Call) (hwalk : ∀ g ∈ walk, g.tree = tree)
include hK hm hf ih hwalk

theorem Patient.reportChild {done : List (Nat × Location)} {i : Nat} {m : Location} {c : Handle}
    {st : τ × List Call} (hx : m.Exact) (hdone : Logged K tree P a depth n p log done st s)
    (hs : K (kept st.1 ++ c :: (walk ++ base)) s) (hct : c.tree = tree)
    (hcn : s.node? c = some m) :
    ∃ st' s', (Live.access.reportChild (traced f) (a.isList n) depth p i c st).run s = (st', s') ∧
      K (kept st'.1 ++ c :: (walk ++ base)) s' ∧ s.Later s' ∧
      Logged K tree P a depth n p log (done ++ [(i, m)]) st' s' := by
  obtain ⟨hP, calls, hlog, hcalls⟩ := hdone
  have hsegment : Tells (K (kept st.1 ++ c :: (walk ++ base))) s
      (if (show Bool from a.isList n) then pure (toString i) else Live.access.segment c i)
      (a.rowSegment n (i, m)) := by
    unfold Access.rowSegment
    generalize a.isList n = list
    cases list with
    | true => exact .pure hs _
    | false => exact tells_segment hcn (hct ▸ hm _ s hs) i
  obtain ⟨s₁, hrun₁, hs₁, hl₁⟩ := hsegment
  have hcn₁ := hK.node? hs hs₁ hl₁ hcn (List.mem_append_right _ List.mem_cons_self)
  obtain ⟨st₂, more, s₂, hrun₂, hs₂, hl₂, hP₂, hmore⟩ :=
    ih (p.push (a.rowSegment n (i, m))) st.2 (List.forall_mem_cons.2 ⟨hct, hwalk⟩)
      List.mem_cons_self hcn₁ hx hs₁ (hf.later hP hl₁)
  refine ⟨(st₂, st.2 ++ more), s₂, ?_, hs₂, hl₁.trans hl₂, hP₂, calls ++ more, ?_, ?_⟩
  · exact (run_bind_of_run hrun₁ _).trans hrun₂
  · rw [hlog, List.append_assoc]
  · rw [List.flatMap_append, List.flatMap_singleton]
    exact hcalls.append hmore

theorem Patient.reportBelow (ha : a.Precise) {st : τ} (hh : h ∈ walk) (hn : s.node? h = some n)
    (hx : n.Exact) (hs : K (kept st ++ (walk ++ base)) s) (hP : P st s) :
    ∃ st' calls s', (Live.access.reportBelow (traced f) depth h p (st, log)).run s =
        ((st', log ++ calls), s') ∧ K (kept st' ++ (walk ++ base)) s' ∧ s.Later s' ∧ P st' s' ∧
      Noted K tree calls (a.rowsBelow depth n p) := by
  obtain rfl : h.tree = tree := hwalk h hh
  have hmem : h ∈ kept st ++ (walk ++ base) := List.mem_append_right _ (List.mem_append_left _ hh)
  obtain ⟨s₁, hlink, hs₁, hl₁⟩ := tells_ofNode (b := false) hn ((hm _ s hs).isLink n)
  have hn₁ := hK.node? hs hs₁ hl₁ hn hmem
  have hlink' : (Live.access.isLink h).run s = _ := hlink
  rw [Access.reportBelow, run_bind_of_run hlink']
  change ∃ st' calls s', (if (show Bool from a.isLink n) then _ else _ : Live _).run s₁ = _ ∧ _
  rw [Access.rowsBelow]
  generalize a.isLink n = link
  cases link with
  | true =>
    refine ⟨st, [], s₁, ?_, hs₁, hl₁, hf.later hP hl₁, rfl, nofun⟩
    rw [List.append_nil]
    rfl
  | false =>
    obtain ⟨s₂, hlist, hs₂, hl₂⟩ := tells_ofNode (b := false) hn₁ ((hm _ s₁ hs₁).isList n)
    have hn₂ := hK.node? hs₁ hs₂ hl₂ hn₁ hmem
    have hstart : Logged K h.tree P a depth n p log [] (st, log) s₂ :=
      ⟨hf.later (hf.later hP hl₁) hl₂, [], (List.append_nil _).symm, rfl, nofun⟩
    obtain ⟨st', s', hrun, hs', hl', hP', calls, hlog, hcalls⟩ :=
      hK.foldChildren (P := Logged K h.tree P a depth n p log) ha hm
        (fun hdone hl => ⟨hf.later hdone.1 hl, hdone.2⟩)
        (hf.reportChild hK hm ih p log hwalk) (List.mem_append_left base hh) hx hn₂ hs₂ hstart
    refine ⟨st'.1, calls, s', ?_, hs', (hl₁.trans hl₂).trans hl', hP', hcalls⟩
    rw [← hlog]
    exact (run_bind_of_run hlist _).trans hrun

end

theorem Patient.reported (hK : Knowledge K) (ha : a.Precise)
    (hm : ∀ held, Mirrors (K held) (Live.nodes tree) a) (hf : Patient K tree base kept P f)
    (depth : Nat) : Reported K tree base kept P f a depth := by
  induction depth with
  | zero =>
    intro walk h n s st p log _ _ _ _ hs hP
    refine ⟨st, [], s, ?_, hs, .refl s, hP, rfl, nofun⟩
    rw [List.append_nil]
    rfl
  | succ depth ih =>
    intro walk h n s st p log hwalk hh hn hx hs hP
    have hmem {st : τ} : h ∈ kept st ++ (walk ++ base) :=
      List.mem_append_right _ (List.mem_append_left _ hh)
    have hcall : Noted K tree [⟨h, p, s⟩] [(n, p)] := by
      refine ⟨by simp [Call.row, hn], ?_⟩
      simp only [List.forall_mem_singleton]
      exact ⟨hwalk h hh, _, hmem, hs⟩
    obtain ⟨st₁, s₁, hrun₁, hs₁, hl₁, hP₁⟩ := hf.call (p := p) hwalk hh hs hP
    have hn₁ := hK.node? hs hs₁ hl₁ hn hmem
    obtain ⟨st', calls, s', hrun, hs', hl', hP', hcalls⟩ :=
      hf.reportBelow hK hm ih p (log ++ [⟨h, p, s⟩]) hwalk ha hh hn₁ hx hs₁ hP₁
    refine ⟨st', ⟨h, p, s⟩ :: calls, s', ?_, hs', hl₁.trans hl', hP', hcall.append hcalls⟩
    have happend : log ++ ⟨h, p, s⟩ :: calls = log ++ [⟨h, p, s⟩] ++ calls := List.append_cons ..
    rw [Access.reportNode_succ, run_bind_of_run (run_traced log hrun₁), happend]
    exact hrun

/-- A report of a tree makes the calls of its rows. -/
theorem Patient.report (hK : Knowledge K) (ha : a.Precise)
    (hm : ∀ held, Mirrors (K held) (Live.nodes tree) a) (hf : Patient K tree base kept P f)
    {b : Body} (hb : s.body? tree = some b) (hx : (b.root s.disk).Exact)
    (hanchored : ∀ held, s.Anchored (held ++ base) tree) {st : τ}
    (hs : K (kept st ++ base) s) (hP : P st s) :
    ∃ st' calls s₁ s', (Live.atRoot tree fun h =>
        Live.access.report (traced f) h (st, [])).run s = ((st', calls), s') ∧
      K (kept st' ++ base) s' ∧ s.Later s' ∧ P st' s' ∧
      (∃ held, K held s₁) ∧ s.Later s₁ ∧
      Noted K tree calls (a.rows (s₁.size + 1) (b.root s.disk) Path.here) := by
  obtain ⟨h, s₁, huse, hs₁, hl₁, htree, hn⟩ := hK.use hs (hanchored (kept st)) hx
  have hs₁' : K (kept st ++ ([h] ++ base)) s₁ := hK.perm hs₁ List.perm_middle.symm
  obtain ⟨st', calls, s₂, hrun, hs₂, hl₂, hP₂, hcalls⟩ :=
    hf.reported hK ha hm (s₁.size + 1) Path.here [] (List.forall_mem_singleton.2 htree)
      List.mem_cons_self hn hx hs₁' (hf.later hP hl₁)
  have hanchored₂ : s₂.Anchored (kept st' ++ base) h.tree := by
    rw [htree]
    exact ((hanchored (kept st')).later hl₁).later hl₂
  obtain ⟨s₃, hrelease, hs₃, hl₃⟩ := hK.release (hK.perm hs₂ List.perm_middle) hanchored₂
  refine ⟨st', calls, s₁, s₃, ?_, hs₃, (hl₁.trans hl₂).trans hl₃, hf.later hP₂ hl₃, ⟨_, hs₁⟩, hl₁,
    hcalls⟩
  have hroot : (Live.root tree).run s = (h, s₁) := by
    rw [Live.root, StateT.run_bind, StateT.run_get, pure_bind, hb]
    exact huse
  have hreport : (Live.access.report (traced f) h (st, [])).run s₁ = _ := hrun
  rw [Live.atRoot, run_bind_of_run hroot, run_bind_of_run hreport]
  exact run_bind_of_run hrelease _

def Tracks (log : List Call) (x : Live (τ × List Call)) (y : Live τ) : Prop :=
  ∀ s, ∃ more, x.run s = (((y.run s).1, log ++ more), (y.run s).2)

theorem tracks_pure (log : List Call) (st : τ) : Tracks log (pure (st, log)) (pure st) :=
  fun s => ⟨[], by rw [List.append_nil]; rfl⟩

theorem Tracks.bind {log : List Call} {x : Live (τ × List Call)} {y : Live τ}
    {g : τ × List Call → Live (τ × List Call)} {k : τ → Live τ} (hx : Tracks log x y)
    (hg : ∀ st log, Tracks log (g (st, log)) (k st)) : Tracks log (x >>= g) (y >>= k) := by
  intro s
  obtain ⟨more, hmore⟩ := hx s
  obtain ⟨rest, hrest⟩ := hg (y.run s).1 (log ++ more) (y.run s).2
  refine ⟨more ++ rest, ?_⟩
  rw [StateT.run_bind, hmore, ← List.append_assoc]
  exact hrest

theorem Tracks.ask {α : Type} {log : List Call} (q : Live α)
    {g : α → Live (τ × List Call)} {k : α → Live τ} (hg : ∀ v, Tracks log (g v) (k v)) :
    Tracks log (q >>= g) (q >>= k) :=
  fun s => hg (q.run s).1 (q.run s).2

theorem tracks_foldChildren {F : Nat → Handle → τ × List Call → Live (τ × List Call)}
    {G : Nat → Handle → τ → Live τ} (hF : ∀ i c st log, Tracks log (F i c (st, log)) (G i c st))
    (h : Handle) (st : τ) (log : List Call) :
    Tracks log (Live.access.foldChildren h F (st, log)) (Live.access.foldChildren h G st) := by
  refine .ask (Live.access.childCount h) fun count => ?_
  generalize 0 = i
  induction count generalizing i st log with
  | zero => exact tracks_pure log st
  | succ left ih =>
    refine .ask (Live.access.childAt h i) fun child => ?_
    cases child with
    | some c =>
      refine (hF i c st log).bind fun st log => ?_
      exact .ask (Live.access.release c) fun _ => ih st log (i + 1)
    | none => exact ih st log (i + 1)

theorem tracks_reportBelow {f : Handle → Path → τ → Live (Bool × τ)} {depth : Nat}
    (ih : ∀ h p st log, Tracks log (Live.access.reportNode (traced f) depth h p (st, log))
      (Live.access.reportNode f depth h p st)) (h : Handle) (p : Path) (st : τ)
    (log : List Call) : Tracks log (Live.access.reportBelow (traced f) depth h p (st, log))
      (Live.access.reportBelow f depth h p st) := by
  refine .ask (Live.access.isLink h) fun link => ?_
  cases link with
  | true => exact tracks_pure log st
  | false =>
    refine .ask (Live.access.isList h) fun indexed => ?_
    refine tracks_foldChildren (fun i child st log => ?_) h st log
    cases indexed with
    | true => exact ih child _ st log
    | false => exact .ask (Live.access.segment child i) fun _ => ih child _ st log

theorem tracks_reportNode (f : Handle → Path → τ → Live (Bool × τ)) (depth : Nat) (h : Handle)
    (p : Path) (st : τ) (log : List Call) :
    Tracks log (Live.access.reportNode (traced f) depth h p (st, log))
      (Live.access.reportNode f depth h p st) := by
  induction depth generalizing h p st log with
  | zero => exact tracks_pure log st
  | succ depth ih =>
    intro s
    rcases hcall : (f h p st).run s with ⟨⟨deeper, next⟩, s'⟩
    have hrest : Tracks (log ++ [⟨h, p, s⟩])
        (if deeper then Live.access.reportBelow (traced f) depth h p (next, log ++ [⟨h, p, s⟩])
          else return (next, log ++ [⟨h, p, s⟩]))
        (if deeper then Live.access.reportBelow f depth h p next else return next) := by
      cases deeper with
      | false => exact tracks_pure _ next
      | true => exact tracks_reportBelow ih h p next _
    obtain ⟨more, hmore⟩ := hrest s'
    refine ⟨⟨h, p, s⟩ :: more, ?_⟩
    have happend : log ++ ⟨h, p, s⟩ :: more = log ++ [⟨h, p, s⟩] ++ more := List.append_cons ..
    rw [Access.reportNode_succ, Access.reportNode_succ, StateT.run_bind, run_traced log hcall,
      StateT.run_bind, hcall, happend]
    exact hmore

theorem tracks_report (f : Handle → Path → τ → Live (Bool × τ)) (h : Handle) (st : τ)
    (log : List Call) :
    Tracks log (Live.access.report (traced f) h (st, log)) (Live.access.report f h st) :=
  .ask (Live.access.size ()) fun size => tracks_reportNode f (size + 1) h Path.here st log

theorem tracks_atRoot {x : Handle → Live (τ × List Call)} {y : Handle → Live τ} {log : List Call}
    (hx : ∀ h, Tracks log (x h) (y h)) (tree : Nat) :
    Tracks log (Live.atRoot tree x) (Live.atRoot tree y) :=
  .ask (Live.root tree) fun h => (hx h).bind fun st log =>
    .ask (Live.release h) fun _ => tracks_pure log st

end Store

end AttributeTrees
