import AttributeTrees.Proofs.Json.Stream.Chunks
import AttributeTrees.Proofs.Json.Stream.Grammar
/-!
# Places in a document

The tokens that a machine has accepted lead to a place in a document: behind some members or items
of what is open, each of them a phrase. The frames, the expectation and the events that were told
belong to that place. Main statement: every accepted token leads from place to place, so the tokens
of a complete document are a phrase and the events are those of its tree.
-/
namespace AttributeTrees.Json.Stream

open Visit (Event Tree)
open Visit.Tree (memberEvents itemEvents)

inductive Slot {α : Type} (P : List Token → List α → Prop) : List Token → List α → Prop where
  | first : Slot P [] []
  | further {ts : List Token} {xs : List α} : P ts xs → Slot P (ts ++ [.comma]) xs

/-- `Hole fs ts es`: with the frames `fs` open, the tokens `ts` were read and the events `es` told,
and a value is awaited. -/
inductive Hole : List Frame → List Token → List Event → Prop where
  | root : Hole [] [] []
  | item {fs : List Frame} {ts us : List Token} {es : List Event} {items : List Tree} :
    Hole fs ts es → Slot Items us items →
    Hole (.array :: fs) (ts ++ .openArray :: us) (es ++ .enterList :: itemEvents items)
  | member {fs : List Frame} {ts us : List Token} {es : List Event}
      {members : List (String × Tree)} (name : String) :
    Hole fs ts es → Slot Members us members →
    Hole (.object (some name) :: fs) (ts ++ .openObject :: (us ++ [.string name, .colon]))
      (es ++ .enterStruct :: (memberEvents members ++ [.enterAttribute name]))

inductive Place : Expect → List Frame → List Token → List Event → Prop where
  | value {fs : List Frame} {ts : List Token} {es : List Event} :
    Hole fs ts es → Place .value fs ts es
  | item {fs : List Frame} {ts : List Token} {es : List Event} :
    Hole (.array :: fs) ts es → Place .item (.array :: fs) ts es
  | key {fs : List Frame} {ts us : List Token} {es : List Event}
      {members : List (String × Tree)} :
    Hole fs ts es → Slot Members us members →
    Place .key (.object none :: fs) (ts ++ .openObject :: us)
      (es ++ .enterStruct :: memberEvents members)
  | colon {fs : List Frame} {ts us : List Token} {es : List Event}
      {members : List (String × Tree)} (name : String) :
    Hole fs ts es → Slot Members us members →
    Place .colon (.object (some name) :: fs) (ts ++ .openObject :: (us ++ [.string name]))
      (es ++ .enterStruct :: (memberEvents members ++ [.enterAttribute name]))
  | nextItem {fs : List Frame} {ts us : List Token} {es : List Event} {items : List Tree} :
    Hole fs ts es → Items us items →
    Place .next (.array :: fs) (ts ++ .openArray :: us) (es ++ .enterList :: itemEvents items)
  | nextMember {fs : List Frame} {ts us : List Token} {es : List Event}
      {members : List (String × Tree)} :
    Hole fs ts es → Members us members →
    Place .next (.object none :: fs) (ts ++ .openObject :: us)
      (es ++ .enterStruct :: memberEvents members)
  | nothing {ts : List Token} {t : Tree} : Phrase ts t → Place .nothing [] ts t.events

section
variable {ts us vs : List Token} {items : List Tree} {members : List (String × Tree)} {t : Tree}

theorem Slot.items_snoc (h : Slot Items us items) (ht : Phrase ts t) :
    Items (us ++ ts) (items ++ [t]) := by
  cases h with
  | first => exact .one ht
  | further h =>
    rw [List.append_assoc]
    exact .snoc h ht

theorem Slot.members_snoc (h : Slot Members us members) (name : String) (ht : Phrase ts t) :
    Members (us ++ .string name :: .colon :: ts) (members ++ [(name, t)]) := by
  cases h with
  | first => exact .one ht
  | further h =>
    rw [List.append_assoc]
    exact .snoc h ht

theorem Slot.list (h : Slot Items us items) :
    Phrase (.openArray :: (us ++ [.closeArray])) (.list items) := by
  cases h with
  | first => exact .emptyList
  | further h => exact .list h .comma

theorem Items.closed (h : Items us items) :
    Phrase (.openArray :: (us ++ [.closeArray])) (.list items) := by
  rw [← List.append_nil us]
  exact .list h .none

theorem Slot.struct (h : Slot Members us members) :
    Phrase (.openObject :: (us ++ [.closeObject])) (.struct members) := by
  cases h with
  | first => exact .emptyStruct
  | further h => exact .struct h .comma

theorem Members.closed (h : Members us members) :
    Phrase (.openObject :: (us ++ [.closeObject])) (.struct members) := by
  rw [← List.append_nil us]
  exact .struct h .none

end

theorem Phrase.single {ts : List Token} {t : Tree} (h : Phrase ts t) : t.Single := by
  have scalar {token : Token} {run : Run} (h : Scalar token run) : run.length = 1 := by
    cases h <;> rfl
  have snoc {α : Type} {P : α → Prop} {xs : List α} {x : α} (hxs : ∀ y ∈ xs, P y) (hx : P x) :
      ∀ y ∈ xs ++ [x], P y :=
    List.forall_mem_append.2 ⟨hxs, List.forall_mem_singleton.2 hx⟩
  exact Phrase.rec (motive_1 := fun _ t _ => t.Single)
    (motive_2 := fun _ members _ => ∀ m ∈ members, m.2.Single)
    (motive_3 := fun _ items _ => ∀ t ∈ items, t.Single)
    (fun h => .leaf (scalar h)) (.struct nofun) (fun _ _ h => .struct h) (.list nofun)
    (fun _ _ h => .list h) (fun _ h => List.forall_mem_singleton.2 h) (fun _ _ hms h => snoc hms h)
    (fun _ h => List.forall_mem_singleton.2 h) (fun _ _ his h => snoc his h) h

theorem Slot.single_members {us : List Token} {members : List (String × Tree)}
    (h : Slot Members us members) : ∀ m ∈ members, m.2.Single := by
  cases h.struct.single with
  | struct h => exact h

theorem Slot.single_items {us : List Token} {items : List Tree} (h : Slot Items us items) :
    ∀ t ∈ items, t.Single := by
  cases h.list.single with
  | list h => exact h

/-- Whatever tree is put into a hole, the document can be completed. -/
theorem Hole.complete {fs : List Frame} {ts : List Token} {es : List Event} (h : Hole fs ts es)
    {t : Tree} (ht : t.Single) :
    ∃ (whole : Tree) (rest : List Event), whole.Single ∧ es ++ t.events ++ rest = whole.events := by
  induction h generalizing t with
  | root => exact ⟨t, [], ht, by simp⟩
  | @item fs ts us es items hole slot ih =>
    have hs : (Tree.list (items ++ [t])).Single :=
      .list (List.forall_mem_append.2 ⟨slot.single_items, List.forall_mem_singleton.2 ht⟩)
    obtain ⟨whole, rest, hws, hw⟩ := ih hs
    refine ⟨whole, .leaveList :: rest, hws, ?_⟩
    rw [← hw]
    simp [Tree.events, Tree.itemEvents]
  | @member fs ts us es members name hole slot ih =>
    have hs : (Tree.struct (members ++ [(name, t)])).Single :=
      .struct (List.forall_mem_append.2 ⟨slot.single_members, List.forall_mem_singleton.2 ht⟩)
    obtain ⟨whole, rest, hws, hw⟩ := ih hs
    refine ⟨whole, .leaveAttribute name :: .leaveStruct :: rest, hws, ?_⟩
    rw [← hw]
    simp [Tree.events, Tree.memberEvents]

theorem Place.events_prefix {e : Expect} {fs : List Frame} {ts : List Token} {es : List Event}
    (h : Place e fs ts es) : ∃ t : Tree, t.Single ∧ es <+: t.events := by
  have part {fs : List Frame} {ts : List Token} {es : List Event} (hole : Hole fs ts es) {t : Tree}
      (ht : t.Single) {part : List Event} (hp : part <+: t.events) :
      ∃ t : Tree, t.Single ∧ es ++ part <+: t.events := by
    obtain ⟨whole, rest, hws, hw⟩ := hole.complete ht
    refine ⟨whole, hws, ?_⟩
    rw [← hw, List.append_assoc]
    exact (List.prefix_append_right_inj es).2 (hp.trans (List.prefix_append t.events rest))
  have leaf : (Tree.leaf (.nil 1)).Single := .leaf rfl
  cases h with
  | value hole | item hole =>
    obtain ⟨t, ht, hp⟩ := part hole leaf List.nil_prefix
    exact ⟨t, ht, by simpa using hp⟩
  | @key fs ts us es members hole slot =>
    exact part hole slot.struct.single ⟨[.leaveStruct], rfl⟩
  | @colon fs ts us es members name hole slot =>
    have hm : Members (us ++ [.string name, .colon, .null]) (members ++ [(name, .leaf (.nil 1))]) :=
      slot.members_snoc name (.scalar .null)
    refine part hole hm.closed.single
      ⟨[.values (.nil 1), .leaveAttribute name, .leaveStruct], ?_⟩
    simp [Tree.events, Tree.memberEvents]
  | @nextItem fs ts us es items hole his =>
    exact part hole his.closed.single ⟨[.leaveList], rfl⟩
  | @nextMember fs ts us es members hole hms =>
    exact part hole hms.closed.single ⟨[.leaveStruct], rfl⟩
  | @nothing ts t hp => exact ⟨t, hp.single, List.prefix_rfl⟩

namespace Machine

open Visit.Visitor (essentials)

def Stands (m : Machine (List Event)) (ts : List Token) : Prop :=
  ∃ es, m.visitor = .start :: es ∧ Place m.expect m.frames ts es

variable {m n : Machine (List Event)} {ts us : List Token} {es : List Event} {t : Token}

theorem stands_valueDone {tree : Tree} (hole : Hole m.frames ts es) (hp : Phrase us tree)
    (hv : m.visitor = .start :: (es ++ tree.events)) :
    Stands (valueDone essentials m) (ts ++ us) := by
  obtain ⟨visitor, pending, offset, frames, expect, fault, stopped⟩ := m
  cases hv
  cases hole with
  | root => exact ⟨_, rfl, .nothing hp⟩
  | @item fs ts vs es items hole slot =>
    refine ⟨_, rfl, ?_⟩
    have h := Place.nextItem hole (slot.items_snoc hp)
    simpa [valueDone, Tree.itemEvents] using h
  | @member fs ts vs es members name hole slot =>
    have h := Place.nextMember hole (slot.members_snoc name hp)
    simp only [valueDone]
    rw [tell_told rfl]
    exact ⟨_, rfl, by simpa [Tree.memberEvents] using h⟩

theorem stands_acceptValue (hole : Hole m.frames ts es) (hv : m.visitor = .start :: es)
    (h : acceptValue essentials m t = some n) : Stands n (ts ++ [t]) := by
  unfold acceptValue at h
  split at h
  · cases h
    rw [tell_told rfl, hv]
    exact ⟨es ++ [.enterStruct], rfl, .key hole .first⟩
  · cases h
    rw [tell_told rfl, hv]
    exact ⟨es ++ [.enterList], rfl, .item (.item hole .first)⟩
  · obtain ⟨run, hr, rfl⟩ := Option.map_eq_some_iff.1 h
    refine stands_valueDone hole (.scalar (scalar?_eq_some_iff.1 hr)) ?_
    rw [tell_told rfl, hv]
    rfl

theorem stands_closeArray {fs : List Frame} {items : List Tree} (hole : Hole fs ts es)
    (hf : m.frames = .array :: fs)
    (hv : m.visitor = .start :: (es ++ .enterList :: itemEvents items))
    (hp : Phrase (.openArray :: (us ++ [.closeArray])) (.list items))
    (h : closeArray essentials m = some n) :
    Stands n (ts ++ .openArray :: us ++ [.closeArray]) := by
  simp only [closeArray, hf, Option.some.injEq] at h
  subst h
  rw [List.append_assoc]
  refine stands_valueDone hole hp ?_
  rw [tell_told rfl, hv]
  simp [Tree.events]

theorem stands_closeObject {fs : List Frame} {members : List (String × Tree)}
    {key : Option String} (hole : Hole fs ts es) (hf : m.frames = .object key :: fs)
    (hv : m.visitor = .start :: (es ++ .enterStruct :: memberEvents members))
    (hp : Phrase (.openObject :: (us ++ [.closeObject])) (.struct members))
    (h : closeObject essentials m = some n) :
    Stands n (ts ++ .openObject :: us ++ [.closeObject]) := by
  simp only [closeObject, hf, Option.some.injEq] at h
  subst h
  rw [List.append_assoc]
  refine stands_valueDone hole hp ?_
  rw [tell_told rfl, hv]
  simp [Tree.events]

theorem Stands.accept? (hm : m.Stands ts) (h : accept? essentials m t = some n) :
    Stands n (ts ++ [t]) := by
  obtain ⟨es, hv, hp⟩ := hm
  obtain ⟨visitor, pending, offset, frames, expect, fault, stopped⟩ := m
  -- The place fixes what is expected and the innermost frame, so few tokens are allowed at each.
  cases hp with
  | value hole => exact stands_acceptValue hole hv h
  | @item fs ts es hole =>
    cases t with
    | closeArray =>
      cases hole with
      | item hole slot => exact stands_closeArray hole rfl hv slot.list h
    | _ => exact stands_acceptValue hole hv h
  | key hole slot =>
    cases t with
    | closeObject => exact stands_closeObject hole rfl hv slot.struct h
    | string name =>
      cases h
      rw [acceptKey, tell_told rfl, hv]
      exact ⟨_, rfl, by simpa using Place.colon name hole slot⟩
    | _ => cases h
  | colon name hole slot =>
    cases t with
    | colon =>
      cases h
      refine ⟨_, hv, ?_⟩
      have hp := Place.value (.member name hole slot)
      simpa using hp
    | _ => cases h
  | nextItem hole items =>
    cases t with
    | closeArray => exact stands_closeArray hole rfl hv items.closed h
    | comma =>
      cases h
      refine ⟨_, hv, ?_⟩
      have hp := Place.item (.item hole (.further items))
      simpa using hp
    | closeObject => cases h
    | _ => cases h
  | nextMember hole members =>
    cases t with
    | closeObject => exact stands_closeObject hole rfl hv members.closed h
    | comma =>
      cases h
      refine ⟨_, hv, ?_⟩
      have hp := Place.key hole (.further members)
      simpa using hp
    | _ => cases h
  | nothing hp => cases t <;> cases h

theorem Stands.complete (hm : m.Stands ts) (hx : m.expect = .nothing) :
    ∃ tree : Tree, Phrase ts tree ∧ m.visitor = .start :: tree.events := by
  obtain ⟨es, hv, hp⟩ := hm
  rw [hx] at hp
  generalize m.frames = fs at hp
  cases hp with
  | @nothing ts tree hp => exact ⟨tree, hp, hv⟩

theorem Stands.nested (hm : m.Stands ts) :
    ∃ (es : List Event) (tree : Tree), m.visitor = .start :: es ∧ tree.Single ∧
      es <+: tree.events := by
  obtain ⟨es, hv, hp⟩ := hm
  obtain ⟨tree, ht⟩ := hp.events_prefix
  exact ⟨es, tree, hv, ht⟩

theorem pending_skipSpace (m : Machine (List Event)) :
    ∃ space, (∀ b ∈ space, isSpace b = true) ∧ m.pending = space ++ m.skipSpace.pending := by
  refine ⟨m.pending.takeWhile isSpace, List.all_eq_true.1 List.all_takeWhile, ?_⟩
  exact (List.prefix_iff_eq_append.1 (List.takeWhile_prefix isSpace)).symm

theorem lexeme_of_look {atEnd : Bool} {k : Nat} (h : m.look atEnd = .token t k) :
    ∃ word rest, m.skipSpace.pending = word ++ rest ∧ k = word.length ∧ Lexeme t word ∧
      t.EndsBefore rest := by
  obtain ⟨word, rest, hb, hk, hl, he⟩ := lexeme_of_scan_append h
  exact ⟨word, rest, hb, hk, hl, List.append_nil rest ▸ he [] fun _ => rfl⟩

theorem Stands.read (hm : m.Stands ts) (atEnd : Bool) :
    ∃ us rest, Spells m.pending us rest ∧ (read essentials atEnd m).Stands (ts ++ us) := by
  induction m using read_induction essentials atEnd generalizing ts with
  | fault m hf =>
    rw [read_of_fault hf]
    exact ⟨[], m.pending, .nil _, by rwa [List.append_nil]⟩
  | empty m hf hp =>
    rw [read_of_empty hf hp]
    exact ⟨[], m.pending, .nil _, by rwa [List.append_nil]⟩
  | nothing m hf hp hn =>
    rw [read_of_nothing hf hp hn, tell_aside rfl]
    exact ⟨[], m.pending, .nil _, by rwa [List.append_nil]⟩
  | more m hs hl =>
    rw [read_of_more hs hl]
    exact ⟨[], m.pending, .nil _, by rwa [List.append_nil]⟩
  | bad m f hs hl =>
    rw [read_of_bad hs hl]
    exact ⟨[], m.pending, .nil _, by rwa [List.append_nil]⟩
  | token m t k hs hl ih =>
    rw [read_of_token hs hl]
    cases ha : Machine.accept? essentials m.skipSpace t with
    | none =>
      have hp : m.pass essentials t k =
          (m.skipSpace.fail (.unexpectedToken t.description m.skipSpace.offset)).advance k := by
        rw [pass, accept, ha]
        rfl
      rw [hp, read_of_fault rfl]
      exact ⟨[], m.pending, .nil _, by rwa [List.append_nil]⟩
    | some n =>
      have hp : m.pass essentials t k = n.advance k := by
        rw [pass, accept, ha]
        rfl
      have hn : n.Stands (ts ++ [t]) := Stands.accept? (m := m.skipSpace) hm ha
      rw [hp] at ih ⊢
      obtain ⟨us, rest, hsp, hst⟩ := ih hn
      obtain ⟨word, bytes, hw, rfl, hlex, hend⟩ := lexeme_of_look hl
      obtain ⟨space, hspace, hpend⟩ := pending_skipSpace m
      have hb : (n.advance word.length).pending = bytes := by
        simp [advance, pending_accept? _ ha, hw]
      rw [hb] at hsp
      refine ⟨t :: us, rest, ?_, by simpa using hst⟩
      rw [hpend, hw, ← List.append_assoc]
      exact .cons hspace hlex hend hsp

end Machine

end AttributeTrees.Json.Stream
