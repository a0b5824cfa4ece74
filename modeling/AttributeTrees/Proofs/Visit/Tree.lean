import AttributeTrees.Visit.Event
/-!
# Trees of events

A complete value as a tree: a run of values, a structure with named members, or a list of items.
Its events in order are what a traversal hands to a visitor between the start and the end. A
sequence of events is well nested if it is a part, from the first event on, of a tree's events.
-/
namespace AttributeTrees.Visit

inductive Tree where
  | leaf (run : Run)
  | struct (members : List (String × Tree))
  | list (items : List Tree)

namespace Tree

mutual

def events : Tree → List Event
  | leaf run => [.values run]
  | struct members => .enterStruct :: (memberEvents members ++ [.leaveStruct])
  | list items => .enterList :: (itemEvents items ++ [.leaveList])

def memberEvents : List (String × Tree) → List Event
  | [] => []
  | (name, t) :: rest =>
    .enterAttribute name :: (events t ++ .leaveAttribute name :: memberEvents rest)

def itemEvents : List Tree → List Event
  | [] => []
  | t :: rest => events t ++ itemEvents rest

end

/-- A tree in which every leaf is a single value. -/
inductive Single : Tree → Prop where
  | leaf {run : Run} : run.length = 1 → Single (leaf run)
  | struct {members : List (String × Tree)} : (∀ m ∈ members, Single m.2) → Single (struct members)
  | list {items : List Tree} : (∀ t ∈ items, Single t) → Single (list items)

@[elab_as_elim, induction_eliminator]
theorem induction {P : Tree → Prop} (leaf : ∀ run, P (leaf run))
    (struct : ∀ members, (∀ m ∈ members, P m.2) → P (struct members))
    (list : ∀ items, (∀ t ∈ items, P t) → P (list items)) (t : Tree) : P t :=
  Tree.rec (motive_1 := P) (motive_2 := fun members => ∀ m ∈ members, P m.2)
    (motive_3 := fun items => ∀ t ∈ items, P t) (motive_4 := fun m => P m.2)
    leaf struct list (by simp)
    (fun _ _ hm hr _ h => (List.mem_cons.1 h).elim (fun h => h ▸ hm) (hr _)) (by simp)
    (fun _ _ ht hr _ h => (List.mem_cons.1 h).elim (fun h => h ▸ ht) (hr _))
    (fun _ _ h => h) t

@[simp] theorem memberEvents_append (ms ns : List (String × Tree)) :
    memberEvents (ms ++ ns) = memberEvents ms ++ memberEvents ns := by
  induction ms with
  | nil => rfl
  | cons m ms ih => simp [memberEvents, ih]

@[simp] theorem itemEvents_append (ts us : List Tree) :
    itemEvents (ts ++ us) = itemEvents ts ++ itemEvents us := by
  induction ts with
  | nil => rfl
  | cons t ts ih => simp [itemEvents, ih]

def Distinct (t : Tree) : Prop :=
  ∀ ⦃u : Tree⦄ ⦃es fs : List Event⦄, t.events ++ es = u.events ++ fs → t = u ∧ es = fs

theorem memberEvents_append_inj {ms ns : List (String × Tree)} {es fs : List Event}
    (hd : ∀ m ∈ ms, m.2.Distinct)
    (h : memberEvents ms ++ .leaveStruct :: es = memberEvents ns ++ .leaveStruct :: fs) :
    ms = ns ∧ es = fs := by
  induction ms generalizing ns with
  | nil =>
    cases ns with
    | nil => exact ⟨rfl, (List.cons.inj h).2⟩
    | cons n ns => cases (List.cons.inj h).1
  | cons m ms ih =>
    obtain ⟨hm, hms⟩ := List.forall_mem_cons.1 hd
    cases ns with
    | nil => cases (List.cons.inj h).1
    | cons n ns =>
      obtain ⟨name, t⟩ := m
      obtain ⟨name', u⟩ := n
      simp only [memberEvents, List.cons_append, List.append_assoc] at h
      obtain ⟨hname, hrest⟩ := List.cons.inj h
      obtain ⟨rfl, hmore⟩ := hm hrest
      obtain ⟨rfl, hes⟩ := ih hms (List.cons.inj hmore).2
      cases hname
      exact ⟨rfl, hes⟩

theorem itemEvents_append_inj {ts us : List Tree} {es fs : List Event} (hd : ∀ t ∈ ts, t.Distinct)
    (h : itemEvents ts ++ .leaveList :: es = itemEvents us ++ .leaveList :: fs) :
    ts = us ∧ es = fs := by
  induction ts generalizing us with
  | nil =>
    cases us with
    | nil => exact ⟨rfl, (List.cons.inj h).2⟩
    | cons u us => cases u <;> cases (List.cons.inj h).1
  | cons t ts ih =>
    obtain ⟨ht, hts⟩ := List.forall_mem_cons.1 hd
    cases us with
    | nil => cases t <;> cases (List.cons.inj h).1
    | cons u us =>
      simp only [itemEvents, List.append_assoc] at h
      obtain ⟨rfl, hrest⟩ := ht h
      obtain ⟨rfl, hes⟩ := ih hts hrest
      exact ⟨rfl, hes⟩

theorem distinct (t : Tree) : t.Distinct := by
  induction t with
  | leaf run =>
    intro u es fs h
    cases u with
    | leaf run' =>
      obtain ⟨hrun, hes⟩ := List.cons.inj h
      cases hrun
      exact ⟨rfl, hes⟩
    | struct _ | list _ => cases (List.cons.inj h).1
  | struct members ih =>
    intro u es fs h
    cases u with
    | leaf _ | list _ => cases (List.cons.inj h).1
    | struct others =>
      simp only [events, List.cons_append, List.append_assoc, List.nil_append] at h
      obtain ⟨rfl, hes⟩ := memberEvents_append_inj ih (List.cons.inj h).2
      exact ⟨rfl, hes⟩
  | list items ih =>
    intro u es fs h
    cases u with
    | leaf _ | struct _ => cases (List.cons.inj h).1
    | list others =>
      simp only [events, List.cons_append, List.append_assoc, List.nil_append] at h
      obtain ⟨rfl, hes⟩ := itemEvents_append_inj ih (List.cons.inj h).2
      exact ⟨rfl, hes⟩

end Tree

end AttributeTrees.Visit
