import AttributeTrees.Proofs.Visit.History
import AttributeTrees.Yaml.Replay
/-!
# What is replayed of a YAML document

The events of a document are those of a tree of scalars, aliases, sequences and mappings. A replay
walks through them with nothing but a stack of open collections. At a place for a value it takes
the events of a node as the tree of what the node shows, up to the first key that is no scalar.
Main statement: a visitor that never stops is told what a document shows if all its keys are
scalars, and otherwise what comes before the first key that is none, and of the failure.
-/
namespace AttributeTrees.Yaml

open Text.Utf8 (Bytes)
open Visit (Visitor)

/-- A document as it is written, before aliases are followed and scalars are told apart. -/
inductive Outline where
  | scalar (style : Style) (text : String) (anchor : Option Nat) (tag : Option Tag)
  | reference (anchor : Nat)
  | sequence (anchor : Option Nat) (items : List Outline)
  | mapping (anchor : Option Nat) (entries : List (Outline × Outline))

namespace Outline

@[elab_as_elim, induction_eliminator]
theorem induction {P : Outline → Prop}
    (scalar : ∀ style text anchor tag, P (scalar style text anchor tag))
    (reference : ∀ anchor, P (reference anchor))
    (sequence : ∀ anchor items, (∀ t ∈ items, P t) → P (sequence anchor items))
    (mapping : ∀ anchor entries, (∀ e ∈ entries, P e.2) → P (mapping anchor entries))
    (t : Outline) : P t :=
  Outline.rec (motive_1 := P) (motive_2 := fun items => ∀ t ∈ items, P t)
    (motive_3 := fun entries => ∀ e ∈ entries, P e.2) (motive_4 := fun e => P e.2)
    scalar reference sequence mapping (by simp)
    (fun _ _ ht hr _ h => (List.mem_cons.1 h).elim (fun h => h ▸ ht) (hr _)) (by simp)
    (fun _ _ he hr _ h => (List.mem_cons.1 h).elim (fun h => h ▸ he) (hr _))
    (fun _ _ _ h => h) t

mutual

def events : Outline → List Event
  | scalar style text anchor tag => [.scalar style text anchor tag]
  | reference anchor => [.alias anchor]
  | sequence anchor items => .sequenceStart anchor :: (itemEvents items ++ [.sequenceEnd])
  | mapping anchor entries => .mappingStart anchor :: (entryEvents entries ++ [.mappingEnd])

def itemEvents : List Outline → List Event
  | [] => []
  | t :: rest => events t ++ itemEvents rest

def entryEvents : List (Outline × Outline) → List Event
  | [] => []
  | (key, t) :: rest => events key ++ (events t ++ entryEvents rest)

end

def stream (t : Outline) : List Event :=
  .streamStart :: .documentStart :: (t.events ++ [.documentEnd])

theorem itemEvents_append (ts us : List Outline) :
    itemEvents (ts ++ us) = itemEvents ts ++ itemEvents us := by
  induction ts with
  | nil => rfl
  | cons t ts ih => simp [itemEvents, ih]

theorem entryEvents_append (es fs : List (Outline × Outline)) :
    entryEvents (es ++ fs) = entryEvents es ++ entryEvents fs := by
  induction es with
  | nil => rfl
  | cons e es ih => simp [entryEvents, ih]

def text? : Outline → Option String
  | scalar _ text _ _ => some text
  | _ => none

def name (key : Outline) : String := key.text?.getD ""

inductive ScalarKeys : Outline → Prop
  | scalar (style : Style) (text : String) (anchor : Option Nat) (tag : Option Tag) :
      ScalarKeys (scalar style text anchor tag)
  | reference (anchor : Nat) : ScalarKeys (reference anchor)
  | sequence (anchor : Option Nat) {items : List Outline} :
      (∀ t ∈ items, ScalarKeys t) → ScalarKeys (sequence anchor items)
  | mapping (anchor : Option Nat) {entries : List (Outline × Outline)} :
      (∀ e ∈ entries, e.1.text?.isSome) → (∀ e ∈ entries, ScalarKeys e.2) →
      ScalarKeys (mapping anchor entries)

theorem ScalarKeys.keys {anchor : Option Nat} {entries : List (Outline × Outline)}
    (h : ScalarKeys (.mapping anchor entries)) : ∀ e ∈ entries, e.1.text?.isSome := by
  cases h with
  | mapping _ hkeys _ => exact hkeys

mutual

def shown : Outline → Visit.Tree
  | scalar style text _ _ => .leaf (if isNil style text then .nil 1 else .string [text])
  | reference _ => .leaf (.nil 1)
  | sequence _ items => .list (shownItems items)
  | mapping _ entries => .struct (shownEntries entries)

def shownItems : List Outline → List Visit.Tree
  | [] => []
  | t :: rest => shown t :: shownItems rest

def shownEntries : List (Outline × Outline) → List (String × Visit.Tree)
  | [] => []
  | (key, t) :: rest => (key.name, shown t) :: shownEntries rest

end

/-- `t.Precede told`: a key of `t` is no scalar, and `told` is what is to be told of `t` before the
first such key. -/
inductive Precede : Outline → List Visit.Event → Prop
  | item (anchor : Option Nat) {before : List Outline} {t : Outline} {told : List Visit.Event}
      (after : List Outline) : (∀ u ∈ before, ScalarKeys u) → Precede t told →
      Precede (sequence anchor (before ++ t :: after))
        (.enterList :: (Visit.Tree.itemEvents (shownItems before) ++ told))
  | key (anchor : Option Nat) {before : List (Outline × Outline)} {key : Outline} (t : Outline)
      (after : List (Outline × Outline)) : (∀ e ∈ before, e.1.text?.isSome) →
      (∀ e ∈ before, ScalarKeys e.2) → key.text? = none →
      Precede (mapping anchor (before ++ (key, t) :: after))
        (.enterStruct :: Visit.Tree.memberEvents (shownEntries before))
  | value (anchor : Option Nat) {before : List (Outline × Outline)} {key t : Outline}
      {told : List Visit.Event} (after : List (Outline × Outline)) :
      (∀ e ∈ before, e.1.text?.isSome) → (∀ e ∈ before, ScalarKeys e.2) → key.text?.isSome →
      Precede t told →
      Precede (mapping anchor (before ++ (key, t) :: after))
        (.enterStruct :: (Visit.Tree.memberEvents (shownEntries before) ++
          .enterAttribute key.name :: told))

theorem exists_first {α : Type} {p : α → Prop} {xs : List α} (h : ¬ ∀ x ∈ xs, p x) :
    ∃ before x after, xs = before ++ x :: after ∧ (∀ y ∈ before, p y) ∧ ¬ p x := by
  induction xs with
  | nil => exact absurd (by simp) h
  | cons x xs ih =>
    by_cases hx : p x
    · have hxs : ¬ ∀ y ∈ xs, p y := fun hall => h (List.forall_mem_cons.2 ⟨hx, hall⟩)
      obtain ⟨before, y, after, rfl, hbefore, hy⟩ := ih hxs
      exact ⟨x :: before, y, after, rfl, List.forall_mem_cons.2 ⟨hx, hbefore⟩, hy⟩
    · exact ⟨[], x, xs, rfl, by simp, hx⟩

theorem exists_precede {t : Outline} (h : ¬ t.ScalarKeys) : ∃ told, t.Precede told := by
  induction t with
  | scalar style text anchor tag => exact absurd (.scalar style text anchor tag) h
  | reference anchor => exact absurd (.reference anchor) h
  | sequence anchor items ih =>
    obtain ⟨before, t, after, rfl, hbefore, ht⟩ := exists_first fun hall => h (.sequence anchor hall)
    obtain ⟨told, htold⟩ := ih t (by simp) ht
    exact ⟨_, .item anchor after hbefore htold⟩
  | mapping anchor entries ih =>
    obtain ⟨before, ⟨key, t⟩, after, rfl, hbefore, he⟩ :
        ∃ before e after, entries = before ++ e :: after ∧
          (∀ e ∈ before, e.1.text?.isSome ∧ ScalarKeys e.2) ∧
          ¬ (e.1.text?.isSome ∧ ScalarKeys e.2) :=
      exists_first fun hall =>
        h (.mapping anchor (fun e he => (hall e he).1) fun e he => (hall e he).2)
    have hkeys : ∀ e ∈ before, e.1.text?.isSome := fun e he => (hbefore e he).1
    have hvalues : ∀ e ∈ before, ScalarKeys e.2 := fun e he => (hbefore e he).2
    by_cases hkey : key.text?.isSome
    · obtain ⟨told, htold⟩ := ih (key, t) (by simp) fun ht => he ⟨hkey, ht⟩
      exact ⟨_, .value anchor after hkeys hvalues hkey htold⟩
    · exact ⟨_, .key anchor t after hkeys hvalues (by simpa using hkey)⟩

end Outline

namespace Replay

variable {σ : Type} {v : Visitor σ} {s : σ} {fs : List Open}

def amid (s : σ) (fs : List Open) : Replay σ := ⟨s, fs, false, false⟩

def rejected (s : σ) (fs : List Open) : Replay σ := ⟨s, fs, false, true⟩

def receiveAll (v : Visitor σ) (r : Replay σ) (events : List Event) : Replay σ :=
  events.foldl (receive v) r

theorem receiveAll_append (r : Replay σ) (es fs : List Event) :
    receiveAll v r (es ++ fs) = receiveAll v (receiveAll v r es) fs := List.foldl_append

theorem receiveAll_cons (hv : v.NeverStops s) (e : Event) (es : List Event) :
    receiveAll v (amid s fs) (e :: es) = receiveAll v ((amid s fs).deliver v e) es := by
  have hmore : v.wantsMore s = true := hv []
  simp [receiveAll, receive, amid, hmore]

theorem receiveAll_rejected (es : List Event) :
    receiveAll v (rejected s fs) es = rejected s fs := by
  induction es with
  | nil => rfl
  | cons e es ih => exact ih

def AtValue (fs : List Open) : Prop := fs.head? ≠ some (.mapping none)

theorem atValue_sequence (fs : List Open) : AtValue (.sequence :: fs) := by simp [AtValue]

theorem atValue_entry (fs : List Open) (name : String) :
    AtValue (.mapping (some name) :: fs) := by simp [AtValue]

theorem atValue_nil : AtValue [] := by simp [AtValue]

theorem not_awaitsKey (h : AtValue fs) : (amid s fs).awaitsKey = false := by
  simpa [awaitsKey, amid, AtValue] using h

theorem receiveAll_sequenceEnd (hv : v.NeverStops s) (f : Open) :
    receiveAll v (amid s (f :: fs)) [.sequenceEnd] =
      (amid (v.receive s .leaveList) fs).valueDone v := receiveAll_cons hv _ _

theorem receiveAll_mappingEnd (hv : v.NeverStops s) (f : Open) :
    receiveAll v (amid s (f :: fs)) [.mappingEnd] =
      (amid (v.receive s .leaveStruct) fs).valueDone v := receiveAll_cons hv _ _

theorem receiveAll_key {key : Outline} (hkey : key.text?.isSome) (hv : v.NeverStops s) :
    receiveAll v (amid s (.mapping none :: fs)) key.events =
      amid (v.receive s (.enterAttribute key.name)) (.mapping (some key.name) :: fs) := by
  cases key with
  | scalar style text anchor tag => exact receiveAll_cons hv _ _
  | reference _ | sequence _ _ | mapping _ _ => cases hkey

theorem receiveAll_of_not_key {key : Outline} (hkey : key.text? = none) (hv : v.NeverStops s) :
    receiveAll v (amid s (.mapping none :: fs)) key.events = rejected s (.mapping none :: fs) := by
  cases key with
  | scalar style text anchor tag => cases hkey
  | reference anchor => exact receiveAll_cons hv _ _
  | sequence anchor items => exact (receiveAll_cons hv _ _).trans (receiveAll_rejected _)
  | mapping anchor entries => exact (receiveAll_cons hv _ _).trans (receiveAll_rejected _)

def Takes (v : Visitor σ) (t : Outline) : Prop :=
  ∀ ⦃s : σ⦄ ⦃fs : List Open⦄, v.NeverStops s → AtValue fs →
    receiveAll v (amid s fs) t.events = (amid (v.receiveAll s t.shown.events) fs).valueDone v

theorem receiveAll_itemEvents {items : List Outline} (h : ∀ t ∈ items, Takes v t)
    (hv : v.NeverStops s) (fs : List Open) :
    receiveAll v (amid s (.sequence :: fs)) (Outline.itemEvents items) =
      amid (v.receiveAll s (Visit.Tree.itemEvents (Outline.shownItems items)))
        (.sequence :: fs) := by
  induction items generalizing s with
  | nil => rfl
  | cons t items ih =>
    obtain ⟨ht, hitems⟩ := List.forall_mem_cons.1 h
    rw [Outline.itemEvents, receiveAll_append, ht hv (atValue_sequence fs)]
    refine (ih hitems (hv.receiveAll _)).trans ?_
    rw [Outline.shownItems, Visit.Tree.itemEvents, Visitor.receiveAll_append]

theorem receiveAll_entry {key t : Outline} (hkey : key.text?.isSome) (ht : Takes v t)
    (hv : v.NeverStops s) (es : List Event) :
    receiveAll v (amid s (.mapping none :: fs)) (key.events ++ (t.events ++ es)) =
      receiveAll v (amid (v.receiveAll s (.enterAttribute key.name ::
        (t.shown.events ++ [.leaveAttribute key.name]))) (.mapping none :: fs)) es := by
  rw [receiveAll_append, receiveAll_key hkey hv, receiveAll_append,
    ht (hv.receive _) (atValue_entry fs _), Visitor.receiveAll_cons, Visitor.receiveAll_snoc]
  rfl

theorem receiveAll_entryEvents {entries : List (Outline × Outline)}
    (hkeys : ∀ e ∈ entries, e.1.text?.isSome) (h : ∀ e ∈ entries, Takes v e.2)
    (hv : v.NeverStops s) (fs : List Open) :
    receiveAll v (amid s (.mapping none :: fs)) (Outline.entryEvents entries) =
      amid (v.receiveAll s (Visit.Tree.memberEvents (Outline.shownEntries entries)))
        (.mapping none :: fs) := by
  induction entries generalizing s with
  | nil => rfl
  | cons e entries ih =>
    obtain ⟨key, t⟩ := e
    obtain ⟨hkey, hkeys⟩ := List.forall_mem_cons.1 hkeys
    obtain ⟨ht, hentries⟩ := List.forall_mem_cons.1 h
    rw [Outline.entryEvents, receiveAll_entry hkey ht hv, ih hkeys hentries (hv.receiveAll _),
      ← Visitor.receiveAll_append]
    simp [Outline.shownEntries, Visit.Tree.memberEvents]

theorem receiveAll_items {items : List Outline} (h : ∀ t ∈ items, Takes v t) (hv : v.NeverStops s)
    (hfs : AtValue fs) (anchor : Option Nat) (es : List Event) :
    receiveAll v (amid s fs) (.sequenceStart anchor :: (Outline.itemEvents items ++ es)) =
      receiveAll v (amid (v.receiveAll s
        (.enterList :: Visit.Tree.itemEvents (Outline.shownItems items))) (.sequence :: fs)) es := by
  have hitems := receiveAll_itemEvents h (hv.receive .enterList) fs
  rw [receiveAll_cons hv, deliver, openFrame, not_awaitsKey hfs, receiveAll_append]
  exact congrArg (receiveAll v · es) hitems

theorem receiveAll_entries {entries : List (Outline × Outline)}
    (hkeys : ∀ e ∈ entries, e.1.text?.isSome) (h : ∀ e ∈ entries, Takes v e.2)
    (hv : v.NeverStops s) (hfs : AtValue fs) (anchor : Option Nat) (es : List Event) :
    receiveAll v (amid s fs) (.mappingStart anchor :: (Outline.entryEvents entries ++ es)) =
      receiveAll v (amid (v.receiveAll s
        (.enterStruct :: Visit.Tree.memberEvents (Outline.shownEntries entries)))
          (.mapping none :: fs)) es := by
  have hentries := receiveAll_entryEvents hkeys h (hv.receive .enterStruct) fs
  rw [receiveAll_cons hv, deliver, openFrame, not_awaitsKey hfs, receiveAll_append]
  exact congrArg (receiveAll v · es) hentries

theorem takes {t : Outline} (h : t.ScalarKeys) : Takes v t := by
  induction h with
  | scalar style text anchor tag =>
    intro s fs hv hfs
    rw [Outline.events, receiveAll_cons hv, deliver, not_awaitsKey hfs]
    rfl
  | reference anchor =>
    intro s fs hv hfs
    rw [Outline.events, receiveAll_cons hv, deliver, not_awaitsKey hfs]
    rfl
  | sequence anchor _ ih =>
    intro s fs hv hfs
    rw [Outline.events, receiveAll_items ih hv hfs, receiveAll_sequenceEnd (hv.receiveAll _),
      Outline.shown, Visit.Tree.events, ← List.cons_append, Visitor.receiveAll_snoc]
  | mapping anchor hkeys _ ih =>
    intro s fs hv hfs
    rw [Outline.events, receiveAll_entries hkeys ih hv hfs, receiveAll_mappingEnd (hv.receiveAll _),
      Outline.shown, Visit.Tree.events, ← List.cons_append, Visitor.receiveAll_snoc]

theorem receiveAll_of_precede {t : Outline} {told : List Visit.Event} (h : t.Precede told)
    (hv : v.NeverStops s) (hfs : AtValue fs) :
    ∃ gs, receiveAll v (amid s fs) t.events = rejected (v.receiveAll s told) gs := by
  induction h generalizing s fs with
  | @item anchor before t told after hbefore _ ih =>
    obtain ⟨gs, ht⟩ := ih
      (hv.receiveAll (.enterList :: Visit.Tree.itemEvents (Outline.shownItems before)))
      (atValue_sequence fs)
    refine ⟨gs, ?_⟩
    rw [Outline.events, Outline.itemEvents_append, List.append_assoc,
      receiveAll_items (fun u hu => takes (hbefore u hu)) hv hfs, Outline.itemEvents,
      List.append_assoc, receiveAll_append, ht, receiveAll_rejected, ← Visitor.receiveAll_append,
      List.cons_append]
  | @key anchor before key t after hkeys hvalues hkey =>
    have hbefore := hv.receiveAll
      (.enterStruct :: Visit.Tree.memberEvents (Outline.shownEntries before))
    refine ⟨.mapping none :: fs, ?_⟩
    rw [Outline.events, Outline.entryEvents_append, List.append_assoc,
      receiveAll_entries hkeys (fun e he => takes (hvalues e he)) hv hfs, Outline.entryEvents,
      List.append_assoc, receiveAll_append, receiveAll_of_not_key hkey hbefore,
      receiveAll_rejected]
  | @value anchor before key t told after hkeys hvalues hkey _ ih =>
    have hbefore := hv.receiveAll
      (.enterStruct :: Visit.Tree.memberEvents (Outline.shownEntries before))
    obtain ⟨gs, ht⟩ := ih (hbefore.receive (.enterAttribute key.name)) (atValue_entry fs key.name)
    refine ⟨gs, ?_⟩
    rw [Outline.events, Outline.entryEvents_append, List.append_assoc,
      receiveAll_entries hkeys (fun e he => takes (hvalues e he)) hv hfs, Outline.entryEvents,
      List.append_assoc, receiveAll_append, receiveAll_key hkey hbefore, List.append_assoc,
      receiveAll_append, ht, receiveAll_rejected, ← Visitor.receiveAll_cons,
      ← Visitor.receiveAll_append, List.cons_append]

theorem receiveAll_stream (hv : v.NeverStops s) (t : Outline) :
    receiveAll v (amid s []) t.stream =
      receiveAll v (receiveAll v (amid s []) t.events) [.documentEnd] := by
  rw [Outline.stream, receiveAll_cons hv, deliver, receiveAll_cons hv, deliver, receiveAll_append]

theorem run_eq (events : List Event) :
    run v s (events, none) =
      (!(receiveAll v (amid s []) events).unsupported,
        (receiveAll v (amid s []) events).visitor) := rfl

theorem run_of_scalarKeys {t : Outline} (h : t.ScalarKeys) (hv : v.NeverStops s) :
    run v s (t.stream, none) = (true, v.receiveAll s t.shown.events) := by
  have hend : receiveAll v (amid (v.receiveAll s t.shown.events) []) [.documentEnd] =
      amid (v.receiveAll s t.shown.events) [] := receiveAll_cons (hv.receiveAll _) _ _
  rw [run_eq, receiveAll_stream hv, takes h hv atValue_nil]
  change (!(receiveAll v (amid _ []) _).unsupported, (receiveAll v (amid _ []) _).visitor) = _
  rw [hend]
  rfl

theorem run_of_precede {t : Outline} {told : List Visit.Event} (h : t.Precede told)
    (hv : v.NeverStops s) : run v s (t.stream, none) = (false, v.receiveAll s told) := by
  obtain ⟨gs, hr⟩ := receiveAll_of_precede h hv atValue_nil
  rw [run_eq, receiveAll_stream hv, hr, receiveAll_rejected]
  rfl

end Replay

namespace Pending

variable {σ : Type}

def fed (v : Visitor σ) (s : σ) (chunks : List Bytes) : Feed (Pending σ) :=
  (chunks.foldl (Feed.give (parser v)) (Feed.start (parser v) ⟨s, []⟩)).finish (parser v)

theorem foldl_give (v : Visitor σ) (p : Pending σ) (chunks : List Bytes) :
    chunks.foldl (Feed.give (parser v)) ⟨p, true, none⟩ =
      ⟨{ p with input := p.input ++ chunks.flatten }, true, none⟩ := by
  induction chunks generalizing p with
  | nil => simp
  | cons data chunks ih =>
    refine (ih { p with input := p.input ++ data }).trans ?_
    rw [List.append_assoc, List.flatten_cons]

theorem fed_eq (v : Visitor σ) (s : σ) (chunks : List Bytes) :
    fed v s chunks =
      let (accepted, p) := finish v ⟨v.receive s .start, chunks.flatten⟩
      ⟨p, false, some accepted⟩ := by
  rw [fed, Feed.start, foldl_give]
  rfl

def Spell (chunks : List Bytes) (t : Outline) : Prop :=
  ∃ text, Text.Utf8.decode? chunks.flatten = some text ∧ Event.ofFirst text = (t.stream, none)

theorem fed_of_spell {chunks : List Bytes} {t : Outline} (h : Spell chunks t) (v : Visitor σ)
    (s : σ) {well : Bool} {told : List Visit.Event}
    (hrun : Replay.run v (v.receive s .start) (t.stream, none) =
      (well, v.receiveAll (v.receive s .start) told)) :
    (fed v s chunks).verdict = some (well && v.verdict (fed v s chunks).parser.visitor) ∧
      (fed v s chunks).parser.visitor =
        v.receiveAll s (.start :: (told ++ if well then [.flush, .finish] else [.fail])) := by
  obtain ⟨text, htext, hevents⟩ := h
  rw [fed_eq]
  simp only [finish, htext, hevents, hrun, Visitor.receiveAll_cons, Visitor.receiveAll_append]
  cases well <;> exact ⟨rfl, rfl⟩

/-- A visitor that never stops is told of the start, of what a document shows up to the first key
that is no scalar, and of the end. If there is no such key, the verdict is its answer to the finish,
and otherwise it is told of the failure and the verdict is no. -/
theorem told_of_document (v : Visitor σ) (s : σ) (hv : v.NeverStops s) (t : Outline) :
    (t.ScalarKeys →
      Replay.run v s (t.stream, none) = (true, v.receiveAll s t.shown.events) ∧
      ∀ chunks, Spell chunks t →
        (fed v s chunks).parser.visitor =
          v.receiveAll s (.start :: (t.shown.events ++ [.flush, .finish])) ∧
        (fed v s chunks).verdict = some (v.verdict (fed v s chunks).parser.visitor)) ∧
    (¬ t.ScalarKeys → ∃ told, t.Precede told ∧
      Replay.run v s (t.stream, none) = (false, v.receiveAll s told) ∧
      ∀ chunks, Spell chunks t →
        (fed v s chunks).parser.visitor = v.receiveAll s (.start :: (told ++ [.fail])) ∧
        (fed v s chunks).verdict = some false) := by
  have hstart := hv.receive .start
  refine ⟨fun hkeys => ⟨Replay.run_of_scalarKeys hkeys hv, fun chunks hc => ?_⟩, fun hkeys => ?_⟩
  · obtain ⟨hverdict, htold⟩ := fed_of_spell hc v s (Replay.run_of_scalarKeys hkeys hstart)
    exact ⟨htold, hverdict⟩
  · obtain ⟨told, hp⟩ := Outline.exists_precede hkeys
    refine ⟨told, hp, Replay.run_of_precede hp hv, fun chunks hc => ?_⟩
    obtain ⟨hverdict, htold⟩ := fed_of_spell hc v s (Replay.run_of_precede hp hstart)
    exact ⟨htold, hverdict⟩

theorem told_of_document_runs :
    let v : Visitor (Visit.Recorder Visit.Event) := Visit.Recorder.visitor
    let s : Visit.Recorder Visit.Event := .fresh none true
    let x := Outline.scalar .singleQuoted "x" none none
    let listed := Outline.sequence none [.scalar .plain "~" none none, x]
    let well := Outline.mapping none [(.scalar .plain "k" none none, listed)]
    let ill := Outline.mapping none [(.sequence none [x], .scalar .plain "y" none none)]
    let wellChunks := ["k: [", "~, 'x']\n"].map Text.Utf8.encodeString
    let illChunks := ["? ['x", "']\n: y\n"].map Text.Utf8.encodeString
    v.NeverStops s ∧
    (well.ScalarKeys ∧ Spell wellChunks well ∧
      (fed v s wellChunks).parser.visitor = v.receiveAll s
        [.start, .enterStruct, .enterAttribute "k", .enterList, .values (.nil 1),
          .values (.string ["x"]), .leaveList, .leaveAttribute "k", .leaveStruct, .flush,
          .finish] ∧
      (fed v s wellChunks).verdict = some true) ∧
    ¬ ill.ScalarKeys ∧ Spell illChunks ill ∧ (fed v s illChunks).verdict = some false := by
  intro v s x listed well ill wellChunks illChunks
  have hv : v.NeverStops s := Visit.Recorder.neverStops true
  have hlisted : listed.ScalarKeys :=
    .sequence none (List.forall_mem_cons.2 ⟨.scalar .., List.forall_mem_singleton.2 (.scalar ..)⟩)
  have hwell : well.ScalarKeys :=
    .mapping none (List.forall_mem_singleton.2 rfl) (List.forall_mem_singleton.2 hlisted)
  have hill : ¬ ill.ScalarKeys := fun h => Bool.false_ne_true (h.keys _ List.mem_cons_self)
  have hspell : Spell wellChunks well :=
    ⟨"k: [~, 'x']\n".toList, by decide +kernel, by decide +kernel⟩
  have hspellIll : Spell illChunks ill :=
    ⟨"? ['x']\n: y\n".toList, by decide +kernel, by decide +kernel⟩
  obtain ⟨htold, hverdict⟩ := ((told_of_document v s hv well).1 hwell).2 wellChunks hspell
  obtain ⟨told, -, -, hfed⟩ := (told_of_document v s hv ill).2 hill
  refine ⟨hv, ⟨hwell, hspell, htold, ?_⟩, hill, hspellIll, (hfed illChunks hspellIll).2⟩
  rw [hverdict, htold]
  rfl

end Pending

end AttributeTrees.Yaml
