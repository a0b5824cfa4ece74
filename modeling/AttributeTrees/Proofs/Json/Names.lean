import AttributeTrees.Proofs.Json.Assembly
import AttributeTrees.Proofs.Json.Depiction
/-!
# Documents without empty names

A document without fractions and without members of the empty name is what the tree shows that it
shows itself. Nothing that is handed over has an empty name, and nothing with an empty name is
assembled from what has none.
-/
namespace AttributeTrees.Json

open Build (Placing)
open Document (label)
open Visit (Event Tree Visitor)
open Visit.Tree (memberEvents itemEvents)

namespace Value

inductive Integral : Value → Prop where
  | null : Integral null
  | bool (b : Bool) : Integral (bool b)
  | whole (n : Whole) : Integral (whole n)
  | string (s : String) : Integral (string s)
  | array {items : List Value} : (∀ v ∈ items, Integral v) → Integral (array items)
  | object {members : List (String × Value)} : (∀ m ∈ members, Integral m.2) →
    Integral (object members)

inductive Named : Value → Prop where
  | null : Named null
  | bool (b : Bool) : Named (bool b)
  | whole (n : Whole) : Named (whole n)
  | float (x : Float) : Named (float x)
  | string (s : String) : Named (string s)
  | array {items : List Value} : (∀ v ∈ items, Named v) → Named (array items)
  | object {members : List (String × Value)} : (∀ m ∈ members, m.1 ≠ "") →
    (∀ m ∈ members, Named m.2) → Named (object members)

theorem all_whole (n : Whole) (t : IntType) :
    (Document.access form (whole n)).all [] (.int t) = (t.ofInt? n.val).toList := by
  change (Span.counted (Span.store [t.zero] 0 (t.ofInt? n.val))).2.take
    (Span.counted (Span.store [t.zero] 0 (t.ofInt? n.val))).1 = _
  cases t.ofInt? n.val <;> rfl

theorem run_whole (n : Whole) : (Document.access form (whole n)).run [] =
    if (IntType.int64.ofInt? n.val).isSome then .int (IntType.int64.ofInt? n.val).toList
    else .uint (IntType.nat64.ofInt? n.val).toList := by
  have hk : n.kind = .int32 ∨ n.kind = .int64 := by
    unfold Whole.kind
    split
    · exact .inl rfl
    · exact .inr rfl
  have hr : (Document.access form (whole n)).run [] =
      if ((Document.access form (whole n)).all [] (.int .int64) : List _).length == 1 then
        .int ((Document.access form (whole n)).all [] (.int .int64))
      else .uint ((Document.access form (whole n)).all [] (.int .nat64)) := by
    have hkind : (Document.access form (whole n)).kind [] = (pure n.kind : Id Kind) := rfl
    unfold Access.run
    rw [hkind]
    rcases hk with hk | hk <;> rw [hk] <;> rfl
  rw [hr, all_whole, all_whole]
  cases IntType.int64.ofInt? n.val <;> rfl

theorem ofRun_run_whole (n : Whole) :
    ofRun ((Document.access form (whole n)).run []) = [whole n] := by
  rw [run_whole]
  by_cases h : n.val ≤ 9223372036854775807
  · have hs : IntType.int64.ofInt? n.val = some ⟨n.val, n.property.1, h⟩ := dif_pos _
    rw [hs]
    rfl
  · have hs : IntType.int64.ofInt? n.val = none := dif_neg fun hn => h hn.2
    have hu : IntType.nat64.ofInt? n.val =
        some ⟨n.val, by simp only [IntType.low]; omega, n.property.2⟩ := dif_pos _
    rw [hs, hu]
    rfl

theorem single_of_ofRun {run : Run} {v : Value} (h : ofRun run = [v]) :
    (Tree.leaf run).Single ∧ ofTree (.leaf run) = v := by
  refine ⟨.leaf ?_, ?_⟩
  · rw [← length_ofRun, h]
    rfl
  · rw [ofTree, h]
    rfl

theorem label_ne_empty (name? : Option String) (index : Nat) : label name? index ≠ "" := by
  unfold label
  split
  · split
    · exact Numeral.toString_ne_empty index
    · next h => exact fun hn => h (hn ▸ rfl)
  · exact Numeral.toString_ne_empty index

theorem label_of_ne_empty {name : String} (h : name ≠ "") (index : Nat) :
    label (some name) index = name :=
  if_neg fun hn => h (String.isEmpty_iff.1 hn)

theorem single_shownMembers {members : List (String × Value)} (i : Nat)
    (h : ∀ m ∈ members, (shown m.2).Single) : ∀ m ∈ shownMembers i members, m.2.Single := by
  induction members generalizing i with
  | nil => exact nofun
  | cons m members ih =>
    obtain ⟨hm, hms⟩ := List.forall_mem_cons.1 h
    exact List.forall_mem_cons.2 ⟨hm, ih (i + 1) hms⟩

theorem single_shown {v : Value} (h : v.Integral) : (shown v).Single := by
  induction h with
  | null => exact (single_of_ofRun (v := null) rfl).1
  | bool b => exact (single_of_ofRun (v := bool b) rfl).1
  | whole n => exact (single_of_ofRun (ofRun_run_whole n)).1
  | string s => exact (single_of_ofRun (v := string s) rfl).1
  | array hv ih =>
    refine .list ?_
    rw [shownItems_eq]
    simpa [children] using ih
  | object hv ih => exact .struct (single_shownMembers 0 ih)

theorem ofItems_shownItems {items : List Value} (h : ∀ v ∈ items, ofTree (shown v) = v) :
    ofItems (shownItems items) = items := by
  induction items with
  | nil => rfl
  | cons v items ih =>
    obtain ⟨hv, hvs⟩ := List.forall_mem_cons.1 h
    rw [shownItems, ofItems, hv, ih hvs]

theorem ofMembers_shownMembers {members : List (String × Value)} (i : Nat)
    (hn : ∀ m ∈ members, m.1 ≠ "") (h : ∀ m ∈ members, ofTree (shown m.2) = m.2) :
    ofMembers (shownMembers i members) = members := by
  induction members generalizing i with
  | nil => rfl
  | cons m members ih =>
    obtain ⟨hm, hms⟩ := List.forall_mem_cons.1 h
    obtain ⟨hname, hnames⟩ := List.forall_mem_cons.1 hn
    rw [shownMembers, ofMembers, label_of_ne_empty hname, hm, ih (i + 1) hnames hms]

theorem ofTree_shown {v : Value} (h : v.Integral) (hn : v.Named) : ofTree (shown v) = v := by
  induction h with
  | null => exact (single_of_ofRun (v := null) rfl).2
  | bool b => exact (single_of_ofRun (v := bool b) rfl).2
  | whole n => exact (single_of_ofRun (ofRun_run_whole n)).2
  | string s => exact (single_of_ofRun (v := string s) rfl).2
  | array hv ih =>
    cases hn with
    | array hn => exact congrArg array (ofItems_shownItems fun w hw => ih w hw (hn w hw))
  | object hv ih =>
    cases hn with
    | object hne hn =>
      exact congrArg object (ofMembers_shownMembers 0 hne fun m hm => ih m hm (hn m hm))

theorem name_ne_empty {v : Value} (h : v.Integral) {name : String}
    (hmem : .enterAttribute name ∈ (shown v).events) : name ≠ "" := by
  induction h with
  | null | bool | whole | string => exact absurd hmem (by simp [shown, Tree.events])
  | @array items hv ih =>
    have hi : .enterAttribute name ∈ itemEvents (shownItems items) := by
      simpa [shown, Tree.events] using hmem
    clear hmem hv
    induction items with
    | nil => cases hi
    | cons w items ihi =>
      obtain ⟨hw, hws⟩ := List.forall_mem_cons.1 ih
      rw [shownItems, itemEvents] at hi
      exact (List.mem_append.1 hi).elim hw (ihi hws)
  | @object members hv ih =>
    have hm : .enterAttribute name ∈ memberEvents (shownMembers 0 members) := by
      simpa [shown, Tree.events] using hmem
    clear hmem hv
    -- A member without a name is labelled with its index, which goes up along the list.
    generalize 0 = i at hm
    induction members generalizing i with
    | nil => cases hm
    | cons m members ihm =>
      obtain ⟨hw, hws⟩ := List.forall_mem_cons.1 ih
      obtain ⟨key, w⟩ := m
      simp only [shownMembers, memberEvents, List.mem_cons, List.mem_append, reduceCtorEq,
        false_or, Event.enterAttribute.injEq] at hm
      rcases hm with rfl | hm | hm
      · exact label_ne_empty _ i
      · exact hw hm
      · exact ihm hws (i + 1) hm

theorem named_ofFloat (x : Float) : (ofFloat x).Named := by
  unfold ofFloat
  split
  · exact .float x
  · exact .null

theorem named_ofRun {run : Run} {v : Value} (h : v ∈ ofRun run) : v.Named := by
  cases run with
  | nil count =>
    rw [List.eq_of_mem_replicate h]
    exact .null
  | bool values =>
    obtain ⟨b, -, rfl⟩ := List.mem_map.1 h
    exact .bool b
  | int values | uint values =>
    obtain ⟨n, -, rfl⟩ := List.mem_map.1 h
    exact .whole _
  | float values | double values =>
    obtain ⟨x, -, rfl⟩ := List.mem_map.1 h
    exact named_ofFloat _
  | string values =>
    obtain ⟨s, -, rfl⟩ := List.mem_map.1 h
    exact .string s

theorem Named.addRun {v : Value} (h : v.Named) (run : Run) : (v.addRun run).Named := by
  unfold Value.addRun
  split
  · cases h with
    | array h =>
      exact .array fun w hw => (List.mem_append.1 hw).elim (h w) named_ofRun
  · split
    · next hone => exact named_ofRun (hone ▸ List.mem_cons_self)
    · exact .array fun w hw => named_ofRun hw

theorem Named.toObject {v : Value} (h : v.Named) : v.toObject.Named := by
  unfold Value.toObject
  split
  · exact h
  · exact .object nofun nofun

theorem Named.changeAt {f : Value → Value} (hf : ∀ v : Value, v.Named → (f v).Named)
    {path : List String} (hp : ∀ key ∈ path, key ≠ "") {v w : Value} (hv : v.Named)
    (hw : changeAt f path v = some w) : w.Named := by
  -- Only a step into a null or an object makes a member, and its name is on the path.
  induction path generalizing v w with
  | nil =>
    cases hw
    exact hf v hv
  | cons key path ih =>
    obtain ⟨hkey, hpath⟩ := List.forall_mem_cons.1 hp
    cases v with
    | null =>
      obtain ⟨u, hu, rfl⟩ := Option.map_eq_some_iff.1 hw
      exact .object (List.forall_mem_singleton.2 hkey)
        (List.forall_mem_singleton.2 (ih hpath .null hu))
    | object members =>
      obtain ⟨u, hu, rfl⟩ := Option.map_eq_some_iff.1 hw
      cases hv with
      | object hn hv =>
        have hold : ((members.lookup key).getD Value.null).Named := by
          cases hm : members.lookup key with
          | none => exact .null
          | some old => exact Members.of_lookup hv hm
        exact .object (Members.forall_put hn hkey) (Members.forall_put hv (ih hpath hold hu))
    | array items =>
      cases hv with
      | array hv =>
        rw [Value.changeAt] at hw
        split at hw
        · cases hw
        · split at hw
          · obtain ⟨u, hu, rfl⟩ := Option.map_eq_some_iff.1 hw
            refine .array fun x hx => (List.mem_append.1 hx).elim (hv x) fun hx => ?_
            exact List.mem_singleton.1 hx ▸ ih hpath .null hu
          · split at hw
            · cases hw
            · next item hitem =>
              obtain ⟨u, hu, rfl⟩ := Option.map_eq_some_iff.1 hw
              refine .array fun x hx => (List.mem_or_eq_of_mem_set hx).elim (hv x) fun hx => ?_
              exact hx ▸ ih hpath (hv item (List.mem_of_getElem? hitem)) hu
    | _ => cases hw

end Value

namespace Assembly

open Build.Placing (visitor)

variable {α : Type} {decode : Value → Option α}

structure Clean (p : Placing (Assembly α)) : Prop where
  document : p.builder.document.Named
  path : ∀ key ∈ p.path.segments, key ≠ ""

theorem named_change {a : Assembly α} (ha : a.document.Named) {path : Path}
    (hp : ∀ key ∈ path.segments, key ≠ "") {f : Value → Value}
    (hf : ∀ v : Value, v.Named → (f v).Named) : (a.change path f).document.Named := by
  rw [change_eq]
  cases hc : a.document.changeAt f path.segments with
  | none => exact ha
  | some w => exact ha.changeAt hf hp hc

theorem Clean.change {p : Placing (Assembly α)} (hp : Clean p) {f : Value → Value}
    (hf : ∀ v : Value, v.Named → (f v).Named) :
    Clean { p with builder := p.builder.change p.path f } :=
  ⟨named_change hp.document hp.path hf, hp.path⟩

theorem Clean.push {p : Placing (Assembly α)} (hp : Clean p) {key : String} (hkey : key ≠ "") :
    Clean { p with path := p.path.push key } := by
  refine ⟨hp.document, ?_⟩
  rw [Path.segments_push, List.forall_mem_append]
  exact ⟨hp.path, List.forall_mem_singleton.2 hkey⟩

theorem Clean.pop {p : Placing (Assembly α)} (hp : Clean p) :
    Clean { p with path := p.path.pop } :=
  ⟨hp.document, fun key hkey => hp.path key (List.dropLast_subset _ hkey)⟩

theorem Clean.reframe {p : Placing (Assembly α)} (hp : Clean p) (frames : List Build.Frame) :
    Clean { p with frames := frames } :=
  ⟨hp.document, hp.path⟩

theorem Clean.enterItem {p : Placing (Assembly α)} (hp : Clean p) : Clean p.enterItem.2 := by
  unfold Placing.enterItem
  split
  · exact (hp.push (Numeral.toString_ne_empty _)).reframe _
  · exact hp

theorem Clean.leaveItem {p : Placing (Assembly α)} (hp : Clean p) (indexed : Bool) :
    Clean (p.leaveItem indexed) := by
  cases indexed with
  | true => exact hp.pop
  | false => exact hp

theorem Clean.leaveStruct {p : Placing (Assembly α)} (hp : Clean p) :
    Clean (p.leaveStruct (builder decode)) := by
  obtain ⟨a, path, frames⟩ := p
  rcases frames with _ | ⟨indexed | ⟨_, _⟩, frames⟩
  · exact hp
  · exact (hp.reframe frames).leaveItem indexed
  · exact hp.reframe frames

theorem Clean.leaveList {p : Placing (Assembly α)} (hp : Clean p) :
    Clean (p.leaveList (builder decode)) := by
  obtain ⟨a, path, frames⟩ := p
  rcases frames with _ | ⟨_ | ⟨indexed, next⟩, frames⟩
  · exact hp
  · exact hp.reframe frames
  · exact (hp.reframe frames).leaveItem indexed

theorem Clean.receive {p : Placing (Assembly α)} (hp : Clean p) {e : Event}
    (he : ∀ name, e = .enterAttribute name → name ≠ "") :
    Clean ((visitor (builder decode)).receive p e) := by
  cases e with
  | start => exact ⟨.null, nofun⟩
  | values run => exact (hp.change fun v hv => hv.addRun run).reframe _
  | enterStruct => exact (hp.enterItem.change fun v hv => hv.toObject).reframe _
  | enterList => exact (hp.enterItem.change fun v hv => .array (List.forall_mem_nil _)).reframe _
  | enterAttribute name => exact hp.push (he name rfl)
  | leaveAttribute name => exact hp.pop
  | leaveStruct => exact hp.leaveStruct
  | leaveList => exact hp.leaveList
  | flush | unparsed | fail => exact ⟨hp.document, hp.path⟩
  | finish =>
    refine ⟨?_, hp.path⟩
    change (Assembly.receive decode p.builder .finish).document.Named
    rw [Assembly.receive]
    split <;> exact hp.document

theorem Clean.receiveAll {p : Placing (Assembly α)} (hp : Clean p) {events : List Event}
    (he : ∀ name, .enterAttribute name ∈ events → name ≠ "") :
    Clean ((visitor (builder decode)).receiveAll p events) := by
  induction events generalizing p with
  | nil => exact hp
  | cons e events ih =>
    have hone : Clean ((visitor (builder decode)).receive p e) :=
      hp.receive fun name hn => he name (hn ▸ List.mem_cons_self)
    exact ih hone fun name hn => he name (List.mem_cons_of_mem e hn)

/-- What a document shows is assembled into the document if and only if it has no empty names. -/
theorem shown_assembled_iff {v : Value} (hv : v.Proper) (hi : v.Integral)
    (p : Placing (Assembly Value)) :
    let q := (visitor (builder some)).receiveAll p (.start :: ((Value.shown v).events ++ [.finish]))
    (visitor (builder some)).verdict q = true ∧ q.builder.result = some q.builder.document ∧
      (q.builder.document = v ↔ v.Named) := by
  intro q
  let w := visitor (builder (some : Value → Option Value))
  have hwhole : q.builder = _ := builder_of_whole v.shown.events p
  have hempty : Clean (Placing.onto (empty : Assembly Value)) := ⟨.null, nofun⟩
  have hclean : Clean (w.receiveAll (Placing.onto empty) v.shown.events) :=
    hempty.receiveAll fun name hn => Value.name_ne_empty hi hn
  refine ⟨rfl, by rw [hwhole], fun h => ?_, fun hn => ?_⟩
  · rw [← h, hwhole]
    exact hclean.document
  · have ht := Value.ofTree_shown hi hn
    have hproper : (Value.ofTree v.shown).Proper := by rwa [ht]
    have hb : q.builder = _ := builder_of_proper (Value.single_shown hi) hproper p
    rw [hb]
    exact ht

end Assembly

end AttributeTrees.Json
