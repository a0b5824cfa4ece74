import AttributeTrees.Proofs.Build.Placing
import AttributeTrees.Proofs.Json.Adding
import AttributeTrees.Proofs.Json.Events
import AttributeTrees.Proofs.Numeral
/-!
# Assembling over what is there

Where a value is assembled, there may already be one, if an object has members of the same name. A
single value joins the items of an array, members join those of an object, and all else is replaced.
Main statement: what any tree makes of a document. It is the last value of every name, unless single
values come behind lists or structures behind structures.
-/
namespace AttributeTrees.Json

open Build (Frame Placing)
open Visit (Event Tree Visitor)
open Visit.Tree (memberEvents itemEvents)

namespace Value

mutual

def lasting : Tree → Value
  | .leaf run => (ofRun run).headD null
  | .struct members => object (lastingMembers members [])
  | .list items => array (lastingItems items)

def lastingMembers : List (String × Tree) → List (String × Value) → List (String × Value)
  | [], before => before
  | (name, t) :: rest, before => lastingMembers rest (Members.put name (lasting t) before)

def lastingItems : List Tree → List Value
  | [] => []
  | t :: rest => lasting t :: lastingItems rest

end

def membersOf : Value → List (String × Value)
  | object members => members
  | _ => []

theorem toObject_eq (v : Value) : v.toObject = object v.membersOf := by
  cases v <;> rfl

mutual

def overlay : Tree → Value → Value
  | .leaf run, old => old.addRun run
  | .struct members, old => object (overlayMembers members old.membersOf)
  | .list items, _ => array (overlayItems items)

def overlayMembers : List (String × Tree) → List (String × Value) → List (String × Value)
  | [], before => before
  | (name, t) :: rest, before =>
    overlayMembers rest (Members.put name (overlay t ((before.lookup name).getD null)) before)

def overlayItems : List Tree → List Value
  | [] => []
  | t :: rest => overlay t null :: overlayItems rest

end

theorem lastingMembers_append (ms ns : List (String × Tree)) (before : List (String × Value)) :
    lastingMembers (ms ++ ns) before = lastingMembers ns (lastingMembers ms before) := by
  induction ms generalizing before with
  | nil => rfl
  | cons m ms ih => exact ih _

/-- The tree is merged into the value instead of replacing it. -/
def Merges : Value → Tree → Prop
  | array _, .leaf _ => True
  | object _, .struct _ => True
  | _, _ => False

inductive Apart : Tree → Prop where
  | leaf (run : Run) : Apart (.leaf run)
  | struct {members : List (String × Tree)} : (∀ m ∈ members, Apart m.2) →
    members.Pairwise (fun m n => m.1 = n.1 → ¬ Merges (lasting m.2) n.2) → Apart (.struct members)
  | list {items : List Tree} : (∀ t ∈ items, Apart t) → Apart (.list items)

theorem not_merges_null (t : Tree) : ¬ Merges null t := by
  cases t <;> nofun

theorem ofRun_of_length {run : Run} (h : run.length = 1) : ofRun run = [lasting (.leaf run)] := by
  obtain ⟨v, hv⟩ := List.length_eq_one_iff.1 ((length_ofRun run).trans h)
  rw [lasting, hv]
  rfl

theorem overlay_leaf {run : Run} (hl : run.length = 1) {old : Value}
    (h : ¬ Merges old (.leaf run)) :
    overlay (.leaf run) old = lasting (.leaf run) := by
  cases old with
  | array items => exact (h trivial).elim
  | _ => simp only [overlay, addRun, ofRun_of_length hl]

theorem membersOf_of_not_merges {members : List (String × Tree)} {old : Value}
    (h : ¬ Merges old (.struct members)) : old.membersOf = [] := by
  cases old with
  | object _ => exact (h trivial).elim
  | _ => rfl

theorem overlayItems_eq_map (items : List Tree) :
    overlayItems items = items.map (overlay · null) := by
  induction items with
  | nil => rfl
  | cons t items ih => rw [overlayItems, ih, List.map_cons]

theorem lastingItems_eq_map (items : List Tree) : lastingItems items = items.map lasting := by
  induction items with
  | nil => rfl
  | cons t items ih => rw [lastingItems, ih, List.map_cons]

theorem overlayMembers_eq {members : List (String × Tree)}
    (h : ∀ m ∈ members, ∀ old, ¬ Merges old m.2 → overlay m.2 old = lasting m.2)
    (hp : members.Pairwise fun m n => m.1 = n.1 → ¬ Merges (lasting m.2) n.2)
    {before : List (String × Value)}
    (hb : ∀ m ∈ members, ¬ Merges ((before.lookup m.1).getD null) m.2) :
    overlayMembers members before = lastingMembers members before := by
  -- An earlier member of the same name is what a later one finds in its place.
  induction members generalizing before with
  | nil => rfl
  | cons m members ih =>
    obtain ⟨hm, hms⟩ := List.forall_mem_cons.1 h
    obtain ⟨hbm, hbms⟩ := List.forall_mem_cons.1 hb
    obtain ⟨hpm, hpms⟩ := List.pairwise_cons.1 hp
    rw [overlayMembers, lastingMembers, hm _ hbm]
    refine ih hms hpms fun n hn => ?_
    by_cases heq : m.1 = n.1
    · rw [← heq, Members.lookup_put_self]
      exact hpm n hn heq
    · rw [Members.lookup_put_of_ne heq]
      exact hbms n hn

theorem overlay_eq_lasting {t : Tree} (hs : t.Single) (ha : Apart t) {old : Value}
    (h : ¬ Merges old t) : overlay t old = lasting t := by
  induction t generalizing old with
  | leaf run =>
    cases hs with
    | leaf hl => exact overlay_leaf hl h
  | struct members ih =>
    cases hs with
    | struct hs =>
      cases ha with
      | struct ha hp =>
        have hfresh : ∀ m ∈ members, ¬ Merges (([].lookup m.1).getD null) m.2 :=
          fun m _ => not_merges_null m.2
        rw [overlay, lasting, membersOf_of_not_merges h,
          overlayMembers_eq (fun m hm old => ih m hm (hs m hm) (ha m hm)) hp hfresh]
  | list items ih =>
    cases hs with
    | list hs =>
      cases ha with
      | list ha =>
        have hi : ∀ t ∈ items, overlay t null = lasting t :=
          fun t ht => ih t ht (hs t ht) (ha t ht) (not_merges_null t)
        rw [overlay, lasting, overlayItems_eq_map, lastingItems_eq_map, List.map_congr_left hi]

variable {site : Value → Value} {path : List String}

def IsSite (site : Value → Value) (path : List String) : Prop :=
  ∀ (f : Value → Value) (more : List String) (v : Value),
    changeAt f (path ++ more) (site v) = (changeAt f more v).map site

/-- The path leads to a value of the document, in the hole of what lies around it. The hole may not
be there yet, and the value is null then. -/
def Leads (v : Value) (path : List String) (site : Value → Value) (old : Value) : Prop :=
  ∀ f : Value → Value, changeAt f path v = some (site (f old))

theorem isSite_root : IsSite id [] := fun _ _ _ => Option.map_id_apply.symm

theorem leads_root (v : Value) : Leads v [] id v := fun _ => rfl

theorem IsSite.map {segment : String} (h : IsSite site path) (inner : Value → Value)
    (hone : ∀ (f : Value → Value) (more : List String) (v : Value),
      changeAt f (segment :: more) (inner v) = (changeAt f more v).map inner) :
    IsSite (fun v => site (inner v)) (path ++ [segment]) := by
  intro f more v
  rw [List.append_assoc, h, List.singleton_append, hone, Option.map_map]
  rfl

theorem IsSite.member (h : IsSite site path) (key : String) (members : List (String × Value)) :
    IsSite (fun v => site (object (Members.put key v members))) (path ++ [key]) := by
  refine h.map (fun v => object (Members.put key v members)) fun f more v => ?_
  simp only [changeAt, Members.lookup_put_self, Option.getD_some, Members.put_put]

theorem IsSite.item (h : IsSite site path) {items : List Value}
    (hl : items.length ≤ Numeral.maxIndex) :
    IsSite (fun v => site (array (items ++ [v]))) (path ++ [toString items.length]) := by
  refine h.map (fun v => array (items ++ [v])) fun f more v => ?_
  have hlast : items.length ≠ (items ++ [v]).length := by simp
  have hitem : (items ++ [v])[items.length]? = some v := by simp
  simp only [changeAt, Numeral.index?_toString hl, if_neg hlast, hitem]
  refine congrArg (Option.map · _) (funext fun w => ?_)
  simp

theorem IsSite.leads_member (h : IsSite site path) (key : String)
    (members : List (String × Value)) : Leads (site (object members)) (path ++ [key])
      (fun v => site (object (Members.put key v members))) ((members.lookup key).getD null) :=
  fun f => h f [key] (object members)

theorem IsSite.leads_item (h : IsSite site path) {items : List Value}
    (hl : items.length ≤ Numeral.maxIndex) : Leads (site (array items))
      (path ++ [toString items.length]) (fun v => site (array (items ++ [v]))) null := by
  intro f
  rw [h]
  simp only [changeAt, Numeral.index?_toString hl, if_true, Option.map_some]

end Value

namespace Assembly

open Value (IsSite Leads overlay overlayMembers overlayItems)
open Build.Placing (visitor)

variable {α : Type} {decode : Value → Option α} {site : Value → Value} {old : Value}

inductive Fits : Tree → Prop where
  | leaf (run : Run) : Fits (.leaf run)
  | struct {members : List (String × Tree)} : (∀ m ∈ members, Fits m.2) → Fits (.struct members)
  | list {items : List Tree} : items.length ≤ Numeral.maxIndex → (∀ t ∈ items, Fits t) →
    Fits (.list items)

theorem builder_leaveStruct (p : Placing (Assembly α)) :
    (Placing.leaveStruct (builder decode) p).builder = p.builder := by
  obtain ⟨a, path, frames⟩ := p
  rcases frames with _ | ⟨(_ | _) | ⟨indexed, next⟩, fs⟩ <;> rfl

theorem builder_leaveList (p : Placing (Assembly α)) :
    (Placing.leaveList (builder decode) p).builder = p.builder := by
  obtain ⟨a, path, frames⟩ := p
  rcases frames with _ | ⟨indexed | ⟨_ | _, next⟩, fs⟩ <;> rfl

theorem change_leads (a : Assembly α) {path : Path} (f : Value → Value)
    (h : Leads a.document path.segments site old) :
    a.change path f = { a with document := site (f old) } := by
  rw [change_eq, h f]
  rfl

def Covers (decode : Value → Option α) (t : Tree) : Prop :=
  ∀ (p : Placing (Assembly α)) (site : Value → Value) (old : Value),
    IsSite site p.path.segments → Leads p.builder.document p.path.segments site old →
    p.enterItem.1 = false →
    ((visitor (builder decode)).receiveAll p t.events).builder =
      { p.builder with document := site (overlay t old) }

def Extends (decode : Value → Option α) (t : Tree) : Prop :=
  ∀ (p : Placing (Assembly α)) (site : Value → Value) (items : List Value) (indexed : Bool)
    (fs : List Frame), IsSite site p.path.segments → p.builder.document = site (.array items) →
    p.frames = .list indexed items.length :: fs → items.length ≤ Numeral.maxIndex →
    ((visitor (builder decode)).receiveAll p t.events).builder =
      { p.builder with document := site (.array (items ++ [overlay t .null])) }

theorem covers_leaf (run : Run) : Covers decode (.leaf run) := by
  intro p site old _ hl _
  exact change_leads p.builder (.addRun run) hl

theorem extends_leaf {run : Run} (h : run.length = 1) : Extends decode (.leaf run) := by
  intro p site items indexed fs hs hd _ _
  have hl : Leads p.builder.document p.path.segments site (.array items) := by
    intro f
    have hf := hs f [] (.array items)
    rwa [List.append_nil, ← hd] at hf
  refine (change_leads p.builder (.addRun run) hl).trans ?_
  simp only [overlay, Value.addRun, Value.ofRun_of_length h]

theorem covers_member (name : String) {t : Tree} (ht : Covers decode t)
    {p : Placing (Assembly α)} {members : List (String × Value)} {indexed : Bool} {fs : List Frame}
    (hs : IsSite site p.path.segments) (hd : p.builder.document = site (.object members))
    (hf : p.frames = .struct indexed :: fs) :
    ((visitor (builder decode)).receiveAll p (memberEvents [(name, t)])).builder =
      { p.builder with document := site (.object (overlayMembers [(name, t)] members)) } := by
  have hl : Leads p.builder.document (p.path.push name).segments _ _ :=
    hd ▸ hs.leads_member name members
  rw [memberEvents, Visitor.receiveAll_cons, Visitor.receiveAll_append]
  exact ht { p with path := p.path.push name } _ _ (hs.member name members) hl
    (by simp [Placing.enterItem, hf])

theorem covers_members {members : List (String × Tree)} (hsingle : ∀ m ∈ members, m.2.Single)
    (h : ∀ m ∈ members, Covers decode m.2) {p : Placing (Assembly α)}
    {before : List (String × Value)} {indexed : Bool} {fs : List Frame}
    (hs : IsSite site p.path.segments) (hd : p.builder.document = site (.object before))
    (hf : p.frames = .struct indexed :: fs) :
    ((visitor (builder decode)).receiveAll p (memberEvents members)).builder =
      { p.builder with document := site (.object (overlayMembers members before)) } := by
  induction members generalizing p before with
  | nil =>
    rw [overlayMembers, ← hd]
    rfl
  | cons m members ih =>
    obtain ⟨name, t⟩ := m
    obtain ⟨hst, hss⟩ := List.forall_mem_cons.1 hsingle
    obtain ⟨ht, hts⟩ := List.forall_mem_cons.1 h
    have hone := covers_member name ht hs hd hf
    have hkept : ∀ m ∈ [(name, t)], Build.Placing.Keeps (builder decode) m.2.events 1 :=
      List.forall_mem_singleton.2 (Build.Placing.keeps_tree hst)
    obtain ⟨hqp, hqf⟩ := Build.Placing.keeps_members hkept hf
    have hev : memberEvents ((name, t) :: members) =
        memberEvents [(name, t)] ++ memberEvents members :=
      Tree.memberEvents_append [(name, t)] members
    have hrest := ih hss hts (hqp ▸ hs) (congrArg Assembly.document hone) hqf
    rw [hev, Visitor.receiveAll_append, hrest, hone]
    rfl

theorem extends_items {items : List Tree} (hsingle : ∀ t ∈ items, t.Single)
    (h : ∀ t ∈ items, Extends decode t) {p : Placing (Assembly α)} {before : List Value}
    {indexed : Bool} {fs : List Frame} (hs : IsSite site p.path.segments)
    (hd : p.builder.document = site (.array before))
    (hf : p.frames = .list indexed before.length :: fs)
    (hl : before.length + items.length ≤ Numeral.maxIndex) :
    ((visitor (builder decode)).receiveAll p (itemEvents items)).builder =
      { p.builder with document := site (.array (before ++ overlayItems items)) } := by
  induction items generalizing p before with
  | nil =>
    rw [overlayItems, List.append_nil, ← hd]
    rfl
  | cons t items ih =>
    obtain ⟨hst, hss⟩ := List.forall_mem_cons.1 hsingle
    obtain ⟨ht, hts⟩ := List.forall_mem_cons.1 h
    rw [List.length_cons] at hl
    have hone := ht p site before indexed fs hs hd hf (by omega)
    obtain ⟨hqp, hqf⟩ := Build.Placing.keeps_tree (b := builder decode) hst p
    have hqn : ((visitor (builder decode)).receiveAll p t.events).frames =
        .list indexed (before ++ [overlay t .null]).length :: fs := by
      rw [hqf, hf, List.length_append]
      rfl
    have hrest := ih hss hts (hqp ▸ hs) (congrArg Assembly.document hone) hqn
      (by rw [List.length_append, List.length_singleton]; omega)
    rw [itemEvents, Visitor.receiveAll_append, overlayItems, List.append_cons, hrest, hone]

def Unfolds (decode : Value → Option α) (t : Tree) : Prop :=
  ∀ (p : Placing (Assembly α)) (site : Value → Value) (old : Value),
    IsSite site p.enterItem.2.path.segments →
    Leads p.builder.document p.enterItem.2.path.segments site old →
    ((visitor (builder decode)).receiveAll p t.events).builder =
      { p.builder with document := site (overlay t old) }

theorem Unfolds.covers {t : Tree} (h : Unfolds decode t) : Covers decode t := by
  intro p site old hs hl hi
  have hq := p.enterItem_spec.2.2
  rw [hi] at hq
  have hpath : p.enterItem.2.path = p.path := hq
  exact h p site old (hpath ▸ hs) (hpath ▸ hl)

theorem Unfolds.extends {t : Tree} (h : Unfolds decode t) : Extends decode t := by
  intro p site items indexed fs hs hd hf hl
  have hq : p.enterItem.2.path.segments = p.path.segments ++ [toString items.length] := by
    simp [Placing.enterItem, hf]
  refine h p (fun v => site (.array (items ++ [v]))) .null ?_ ?_
  · rw [hq]
    exact hs.item hl
  · rw [hq, hd]
    exact hs.leads_item hl

theorem unfolds_struct {members : List (String × Tree)} (hsingle : ∀ m ∈ members, m.2.Single)
    (h : ∀ m ∈ members, Covers decode m.2) : Unfolds decode (.struct members) := by
  intro p site old hs hl
  have hq : (Placing.enterStruct (builder decode) p).builder =
      { p.builder with document := site (.object old.membersOf) } := by
    have hl' : Leads p.enterItem.2.builder.document _ site old := p.enterItem_spec.2.1 ▸ hl
    refine (change_leads p.enterItem.2.builder Value.toObject hl').trans ?_
    rw [p.enterItem_spec.2.1, Value.toObject_eq]
  have hb := covers_members hsingle h (p := Placing.enterStruct (builder decode) p) hs
    (congrArg Assembly.document hq) rfl
  rw [Tree.events, Visitor.receiveAll_cons, Visitor.receiveAll_append]
  refine (builder_leaveStruct _).trans (hb.trans ?_)
  rw [hq]
  rfl

theorem unfolds_list {items : List Tree} (hsingle : ∀ t ∈ items, t.Single)
    (h : ∀ t ∈ items, Extends decode t) (hlen : items.length ≤ Numeral.maxIndex) :
    Unfolds decode (.list items) := by
  intro p site old hs hl
  have hq : (Placing.enterList (builder decode) p).builder =
      { p.builder with document := site (.array []) } := by
    have hl' : Leads p.enterItem.2.builder.document _ site old := p.enterItem_spec.2.1 ▸ hl
    refine (change_leads p.enterItem.2.builder (fun _ => .array []) hl').trans ?_
    rw [p.enterItem_spec.2.1]
  have hb := extends_items hsingle h (p := Placing.enterList (builder decode) p) hs
    (congrArg Assembly.document hq) rfl (by simpa using hlen)
  rw [Tree.events, Visitor.receiveAll_cons, Visitor.receiveAll_append]
  refine (builder_leaveList _).trans (hb.trans ?_)
  rw [hq]
  rfl

theorem covers_and_extends {t : Tree} (ht : t.Single) (hf : Fits t) :
    Covers decode t ∧ Extends decode t := by
  -- Members stand at a path and items behind an array, so the two roles go together.
  induction t with
  | leaf run =>
    cases ht with
    | leaf hl => exact ⟨covers_leaf run, extends_leaf hl⟩
  | struct members ih =>
    cases ht with
    | struct hs =>
      cases hf with
      | struct hf =>
        have hu := unfolds_struct hs fun m hm => (ih m hm (hs m hm) (hf m hm)).1
        exact ⟨hu.covers, hu.extends⟩
  | list items ih =>
    cases ht with
    | list hs =>
      cases hf with
      | list hl hf =>
        have hu := unfolds_list hs (fun t ht => (ih t ht (hs t ht) (hf t ht)).2) hl
        exact ⟨hu.covers, hu.extends⟩

theorem builder_of_whole (es : List Event) (p : Placing (Assembly Value)) :
    let a := ((visitor (builder some)).receiveAll (Placing.onto empty) es).builder
    ((visitor (builder some)).receiveAll p (.start :: (es ++ [.finish]))).builder =
      { document := a.document, result := some a.document } := by
  rw [Visitor.receiveAll_cons, Visitor.receiveAll_append]
  rfl

/-- From a start to a finish the events of a tree make nothing into what the tree makes of it,
whatever its members repeat. -/
theorem builder_of_events {t : Tree} (ht : t.Single) (hf : Fits t)
    (p : Placing (Assembly Value)) :
    ((visitor (builder some)).receiveAll p (.start :: (t.events ++ [.finish]))).builder =
      { document := overlay t .null, result := some (overlay t .null) } := by
  have hc : Covers some t := (covers_and_extends ht hf).1
  have hb := hc (Placing.onto empty) id .null Value.isSite_root (Value.leads_root .null) rfl
  rw [builder_of_whole, hb]
  rfl

end Assembly

end AttributeTrees.Json
