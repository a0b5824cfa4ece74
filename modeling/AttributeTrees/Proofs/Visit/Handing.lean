import AttributeTrees.Proofs.Visit.History
/-!
# Handing over a tree

A tree is handed to a visitor event by event, and the visitor is asked before each child whether it
wants more. If it does not, the structures and lists around are only closed. What it receives is a
whole tree in any case. A visitor that does not want more ever after receives the events up to the
first child that it does not want, and then what closes what is open, innermost first.
-/
namespace AttributeTrees.Visit

variable {σ : Type}

namespace Tree

mutual

def hand (v : Visitor σ) : Tree → σ → σ
  | leaf run, s => v.receive s (.values run)
  | struct members, s => v.receive (handMembers v members (v.receive s .enterStruct)) .leaveStruct
  | list items, s => v.receive (handItems v items (v.receive s .enterList)) .leaveList

def handMembers (v : Visitor σ) : List (String × Tree) → σ → σ
  | [], s => s
  | (name, t) :: rest, s =>
    if v.wantsMore s then
      handMembers v rest
        (v.receive (hand v t (v.receive s (.enterAttribute name))) (.leaveAttribute name))
    else s

def handItems (v : Visitor σ) : List Tree → σ → σ
  | [], s => s
  | t :: rest, s => if v.wantsMore s then handItems v rest (hand v t s) else s

end

theorem hand_history (v : Visitor σ) (s : σ) (t : Tree) (log : List Event) :
    t.hand v (v.receiveAll s log) = v.receiveAll s (t.hand (v.history s) log) := by
  induction t generalizing log with
  | leaf run => exact (v.receiveAll_snoc s log (.values run)).symm
  | struct members ih =>
    have hm (log : List Event) : handMembers v members (v.receiveAll s log) =
        v.receiveAll s (handMembers (v.history s) members log) := by
      induction members generalizing log with
      | nil => rfl
      | cons m members ihm =>
        have ht := ih m List.mem_cons_self
        have hrest := ihm fun n hn => ih n (List.mem_cons_of_mem m hn)
        rw [handMembers, handMembers]
        change (if v.wantsMore (v.receiveAll s log) then _ else _) =
          v.receiveAll s (if v.wantsMore (v.receiveAll s log) then _ else _)
        split
        · rw [← v.receiveAll_snoc, ht, ← v.receiveAll_snoc, hrest]
          rfl
        · rfl
    rw [hand, ← v.receiveAll_snoc, hm, ← v.receiveAll_snoc]
    rfl
  | list items ih =>
    have hi (log : List Event) : handItems v items (v.receiveAll s log) =
        v.receiveAll s (handItems (v.history s) items log) := by
      induction items generalizing log with
      | nil => rfl
      | cons t items ihi =>
        have ht := ih t List.mem_cons_self
        have hrest := ihi fun u hu => ih u (List.mem_cons_of_mem t hu)
        rw [handItems, handItems]
        change (if v.wantsMore (v.receiveAll s log) then _ else _) =
          v.receiveAll s (if v.wantsMore (v.receiveAll s log) then _ else _)
        split
        · rw [ht, hrest]
        · rfl
    rw [hand, ← v.receiveAll_snoc, hi, ← v.receiveAll_snoc]
    rfl

theorem hand_whole (v : Visitor σ) (s : σ) (t : Tree) (log : List Event) :
    ∃ u : Tree, t.hand (v.history s) log = log ++ u.events := by
  induction t generalizing log with
  | leaf run => exact ⟨leaf run, rfl⟩
  | struct members ih =>
    have hm (log : List Event) : ∃ ms, handMembers (v.history s) members log =
        log ++ memberEvents ms := by
      induction members generalizing log with
      | nil => exact ⟨[], (List.append_nil log).symm⟩
      | cons m members ihm =>
        rw [handMembers]
        split
        · obtain ⟨u, hu⟩ := ih m List.mem_cons_self (log ++ [.enterAttribute m.1])
          obtain ⟨ms, hms⟩ := ihm (fun n hn => ih n (List.mem_cons_of_mem m hn))
            (log ++ [.enterAttribute m.1] ++ u.events ++ [.leaveAttribute m.1])
          refine ⟨(m.1, u) :: ms, ?_⟩
          change handMembers (v.history s) members
            (m.2.hand (v.history s) (log ++ [.enterAttribute m.1]) ++ [.leaveAttribute m.1]) = _
          rw [hu, hms]
          simp [memberEvents]
        · exact ⟨[], (List.append_nil log).symm⟩
    obtain ⟨ms, hms⟩ := hm (log ++ [.enterStruct])
    refine ⟨struct ms, ?_⟩
    change handMembers (v.history s) members (log ++ [.enterStruct]) ++ [.leaveStruct] = _
    rw [hms]
    simp [events]
  | list items ih =>
    have hi (log : List Event) : ∃ ts, handItems (v.history s) items log =
        log ++ itemEvents ts := by
      induction items generalizing log with
      | nil => exact ⟨[], (List.append_nil log).symm⟩
      | cons t items ihi =>
        rw [handItems]
        split
        · obtain ⟨u, hu⟩ := ih t List.mem_cons_self log
          obtain ⟨ts, hts⟩ := ihi (fun u hu => ih u (List.mem_cons_of_mem t hu)) (log ++ u.events)
          refine ⟨u :: ts, ?_⟩
          rw [hu, hts]
          simp [itemEvents]
        · exact ⟨[], (List.append_nil log).symm⟩
    obtain ⟨ts, hts⟩ := hi (log ++ [.enterList])
    refine ⟨list ts, ?_⟩
    change handItems (v.history s) items (log ++ [.enterList]) ++ [.leaveList] = _
    rw [hts]
    simp [events]

end Tree

def Event.pendingAfter (pending : List Event) : Event → List Event
  | .enterStruct => .leaveStruct :: pending
  | .enterAttribute name => .leaveAttribute name :: pending
  | .enterList => .leaveList :: pending
  | .leaveStruct | .leaveAttribute _ | .leaveList => pending.tail
  | _ => pending

def closersFrom (pending : List Event) (events : List Event) : List Event :=
  events.foldl Event.pendingAfter pending

def closers (events : List Event) : List Event := closersFrom [] events

/-- What comes next begins a child: an attribute of a structure or an item of a list. -/
def ChildBegins (pending : List Event) : List Event → Prop
  | [] => False
  | e :: _ => (∃ name, e = .enterAttribute name) ∨ pending.head? = some .leaveList ∧ e ≠ .leaveList

@[simp] theorem closersFrom_append (pending es fs : List Event) :
    closersFrom pending (es ++ fs) = closersFrom (closersFrom pending es) fs := by
  simp [closersFrom]

theorem closersFrom_members {members : List (String × Tree)}
    (h : ∀ m ∈ members, ∀ pending, closersFrom pending m.2.events = pending)
    (pending : List Event) : closersFrom pending (Tree.memberEvents members) = pending := by
  induction members with
  | nil => rfl
  | cons m members ih =>
    change closersFrom (.leaveAttribute m.1 :: pending)
      (m.2.events ++ .leaveAttribute m.1 :: Tree.memberEvents members) = pending
    rw [closersFrom_append, h m List.mem_cons_self]
    exact ih fun n hn => h n (List.mem_cons_of_mem m hn)

theorem closersFrom_items {items : List Tree}
    (h : ∀ t ∈ items, ∀ pending, closersFrom pending t.events = pending) (pending : List Event) :
    closersFrom pending (Tree.itemEvents items) = pending := by
  induction items with
  | nil => rfl
  | cons t items ih =>
    rw [Tree.itemEvents, closersFrom_append, h t List.mem_cons_self]
    exact ih fun u hu => h u (List.mem_cons_of_mem t hu)

theorem closersFrom_events (t : Tree) (pending : List Event) :
    closersFrom pending t.events = pending := by
  induction t generalizing pending with
  | leaf run => rfl
  | struct members ih =>
    change closersFrom (.leaveStruct :: pending)
      (Tree.memberEvents members ++ [.leaveStruct]) = pending
    rw [closersFrom_append, closersFrom_members fun m hm => ih m hm]
    rfl
  | list items ih =>
    change closersFrom (.leaveList :: pending) (Tree.itemEvents items ++ [.leaveList]) = pending
    rw [closersFrom_append, closersFrom_items fun t ht => ih t ht]
    rfl

theorem Tree.events_eq_cons (t : Tree) : ∃ e es, t.events = e :: es ∧
    (∀ name, e ≠ .enterAttribute name) ∧ e ≠ .leaveList := by
  cases t with
  | leaf run => exact ⟨_, _, rfl, nofun, nofun⟩
  | struct members => exact ⟨_, _, rfl, nofun, nofun⟩
  | list items => exact ⟨_, _, rfl, nofun, nofun⟩

variable {v : Visitor σ} {s : σ} {pending log es fs : List Event}

def Visitor.Settled (v : Visitor σ) (s : σ) : Prop :=
  ∀ log more, v.wantsMore (v.receiveAll s log) = false →
    v.wantsMore (v.receiveAll s (log ++ more)) = false

def Wanted (v : Visitor σ) (s : σ) (pending log es : List Event) : Prop :=
  ∀ before rest, es = before ++ rest → ChildBegins (closersFrom pending before) rest →
    v.wantsMore (v.receiveAll s (log ++ before)) = true

/-- What the visitor has received after events that leave open what was open before: all of them, or
those up to the first child that it does not want, and what closes them. -/
inductive Handed (v : Visitor σ) (s : σ) (pending log es : List Event) : List Event → Prop
  | all (h : Wanted v s pending log es) : Handed v s pending log es (log ++ es)
  | cut {before rest closing : List Event} (he : es = before ++ rest)
      (hp : closersFrom pending before = closing ++ pending)
      (hc : ChildBegins (closing ++ pending) rest)
      (hw : v.wantsMore (v.receiveAll s (log ++ before)) = false)
      (h : Wanted v s pending log before) : Handed v s pending log es (log ++ before ++ closing)

theorem wanted_nil : Wanted v s pending log [] := by
  rintro before rest h hc
  obtain ⟨-, rfl⟩ := List.append_eq_nil_iff.1 h.symm
  exact hc.elim

theorem Wanted.append (h : Wanted v s pending log es)
    (k : Wanted v s (closersFrom pending es) (log ++ es) fs) :
    Wanted v s pending log (es ++ fs) := by
  intro before rest he hc
  rcases List.append_eq_append_iff.1 he with ⟨more, rfl, rfl⟩ | ⟨more, rfl, rfl⟩
  · rw [closersFrom_append] at hc
    rw [← List.append_assoc]
    exact k more rest rfl hc
  · cases more with
    | nil =>
      have hk := k [] fs rfl
      rw [List.append_nil, List.append_nil] at hk
      exact hk hc
    | cons e more => exact h before (e :: more) rfl hc

theorem wanted_singleton {e : Event}
    (h : ChildBegins pending [e] → v.wantsMore (v.receiveAll s log) = true) :
    Wanted v s pending log [e] := by
  intro before rest he hc
  cases before with
  | nil =>
    rw [List.append_nil]
    exact h (he ▸ hc)
  | cons f before =>
    obtain ⟨-, h⟩ := List.cons.inj he
    obtain ⟨-, rfl⟩ := List.append_eq_nil_iff.1 h.symm
    exact hc.elim

theorem ChildBegins.append (h : ChildBegins pending es) (fs : List Event) :
    ChildBegins pending (es ++ fs) := by
  cases es with
  | nil => exact h.elim
  | cons e es => exact h

theorem Handed.behind {r : List Event} (hw : Wanted v s pending log es)
    (hes : closersFrom pending es = pending) (h : Handed v s pending (log ++ es) fs r) :
    Handed v s pending log (es ++ fs) r := by
  cases h with
  | all h =>
    rw [List.append_assoc]
    exact .all (hw.append (hes.symm ▸ h))
  | @cut before rest closing he hp hc hw' h =>
    have hp' : closersFrom pending (es ++ before) = closing ++ pending := by
      rw [closersFrom_append, hes, hp]
    rw [List.append_assoc] at hw'
    rw [List.append_assoc log]
    exact .cut (by rw [he, List.append_assoc]) hp' hc hw' (hw.append (hes.symm ▸ h))

theorem Handed.append {r : List Event} (hv : v.Settled s) (h : Handed v s pending log es r)
    (hes : closersFrom pending es = pending) {k : List Event → List Event}
    (hgo : Handed v s pending (log ++ es) fs (k (log ++ es)))
    (hstop : ∀ r, v.wantsMore (v.receiveAll s r) = false → k r = r) :
    Handed v s pending log (es ++ fs) (k r) := by
  cases h with
  | all h => exact hgo.behind h hes
  | @cut before rest closing he hp hc hw h =>
    rw [hstop _ (hv (log ++ before) closing hw)]
    refine .cut ?_ hp (hc.append fs) hw h
    rw [he, List.append_assoc]

theorem Handed.wrap {r : List Event} {e c : Event} (h : Handed v s (c :: pending) (log ++ [e]) es r)
    (he : e.pendingAfter pending = c :: pending)
    (hes : closersFrom (c :: pending) es = c :: pending)
    (hc : ¬ ChildBegins (c :: pending) [c])
    (hw : ChildBegins pending [e] → v.wantsMore (v.receiveAll s log) = true) :
    Handed v s pending log (e :: (es ++ [c])) (r ++ [c]) := by
  have hcons (es : List Event) :
      closersFrom pending ([e] ++ es) = closersFrom (c :: pending) es := by
    rw [closersFrom_append]
    exact congrArg (closersFrom · es) he
  have hopen {es : List Event} (h : Wanted v s (c :: pending) (log ++ [e]) es) :
      Wanted v s pending log ([e] ++ es) := by
    refine (wanted_singleton hw).append ?_
    rw [show closersFrom pending [e] = c :: pending from he]
    exact h
  cases h with
  | all h =>
    have hall : Wanted v s pending log ([e] ++ es ++ [c]) :=
      (hopen h).append (wanted_singleton fun hb => (hc (by rwa [hcons, hes] at hb)).elim)
    simpa using Handed.all hall
  | @cut before rest closing hb hp hr hw' h =>
    have hcut : Handed v s pending log ([e] ++ es ++ [c])
        (log ++ ([e] ++ before) ++ (closing ++ [c])) := by
      refine .cut ?_ ?_ (List.append_cons .. ▸ hr.append [c]) ?_ (hopen h)
      · simp [hb]
      · rw [hcons, hp, List.append_assoc]
        rfl
      · rwa [← List.append_assoc]
    simpa using hcut

theorem not_childBegins_events (t : Tree) (h : pending.head? ≠ some .leaveList) :
    ¬ ChildBegins pending t.events := by
  obtain ⟨e, es, he, hname, -⟩ := t.events_eq_cons
  rw [he]
  rintro (⟨name, hn⟩ | ⟨hl, -⟩)
  · exact hname name hn
  · exact h hl

theorem Handed.nil : Handed v s pending log [] log := by
  have h : Handed v s pending log [] (log ++ []) := .all wanted_nil
  rwa [List.append_nil] at h

theorem Handed.stop (hw : v.wantsMore (v.receiveAll s log) = false) (hc : ChildBegins pending es) :
    Handed v s pending log es log := by
  have h : Handed v s pending log es (log ++ [] ++ []) :=
    .cut rfl rfl hc (by rwa [List.append_nil]) wanted_nil
  rwa [List.append_nil, List.append_nil] at h

def Hands (v : Visitor σ) (s : σ) (t : Tree) : Prop :=
  ∀ pending log, (ChildBegins pending t.events → v.wantsMore (v.receiveAll s log) = true) →
    Handed v s pending log t.events (t.hand (v.history s) log)

theorem handMembers_of_stop (members : List (String × Tree))
    (hw : v.wantsMore (v.receiveAll s log) = false) :
    Tree.handMembers (v.history s) members log = log := by
  cases members with
  | nil => rfl
  | cons m members => rw [Tree.handMembers, Visitor.wantsMore_history, hw, if_neg nofun]

theorem handItems_of_stop (items : List Tree) (hw : v.wantsMore (v.receiveAll s log) = false) :
    Tree.handItems (v.history s) items log = log := by
  cases items with
  | nil => rfl
  | cons t items => rw [Tree.handItems, Visitor.wantsMore_history, hw, if_neg nofun]

theorem handed_members {members : List (String × Tree)} (hv : v.Settled s)
    (h : ∀ m ∈ members, Hands v s m.2) (pending log : List Event) :
    Handed v s pending log (Tree.memberEvents members)
      (Tree.handMembers (v.history s) members log) := by
  induction members generalizing log with
  | nil => exact .nil
  | cons m members ih =>
    have hrest := ih fun n hn => h n (List.mem_cons_of_mem m hn)
    rw [Tree.handMembers, Visitor.wantsMore_history]
    split
    · next hw =>
      have hm := h m List.mem_cons_self (.leaveAttribute m.1 :: pending)
        (log ++ [.enterAttribute m.1]) fun hb => (not_childBegins_events m.2 (by simp) hb).elim
      have hone := hm.wrap rfl (closersFrom_events m.2 _) (by simp [ChildBegins]) fun _ => hw
      have hes := closersFrom_members (List.forall_mem_singleton.2 (closersFrom_events m.2)) pending
      have happ := hone.append hv hes (hrest _) fun r hr => handMembers_of_stop members hr
      simpa [Tree.memberEvents] using happ
    · next hw => exact .stop (Bool.eq_false_iff.2 hw) (.inl ⟨m.1, rfl⟩)

theorem handed_items {items : List Tree} (hv : v.Settled s) (h : ∀ t ∈ items, Hands v s t)
    (hp : pending.head? = some .leaveList) (log : List Event) :
    Handed v s pending log (Tree.itemEvents items) (Tree.handItems (v.history s) items log) := by
  induction items generalizing log with
  | nil => exact .nil
  | cons t items ih =>
    have hrest := ih fun u hu => h u (List.mem_cons_of_mem t hu)
    rw [Tree.handItems, Visitor.wantsMore_history]
    split
    · next hw =>
      have ht := h t List.mem_cons_self pending log fun _ => hw
      exact ht.append hv (closersFrom_events t pending) (hrest _) fun r hr =>
        handItems_of_stop items hr
    · next hw =>
      obtain ⟨e, es, he, -, hne⟩ := t.events_eq_cons
      refine .stop (Bool.eq_false_iff.2 hw) ?_
      rw [Tree.itemEvents, he]
      exact .inr ⟨hp, hne⟩

/-- A visitor that stays with its answer is handed a tree up to the first child it does not want. -/
theorem hands (hv : v.Settled s) (t : Tree) : Hands v s t := by
  induction t with
  | leaf run => exact fun pending log hw => .all (wanted_singleton hw)
  | struct members ih =>
    intro pending log hw
    have hm := handed_members hv ih (.leaveStruct :: pending) (log ++ [.enterStruct])
    exact hm.wrap rfl (closersFrom_members (fun m _ => closersFrom_events m.2) _)
      (by simp [ChildBegins]) hw
  | list items ih =>
    intro pending log hw
    have hi : Handed v s (.leaveList :: pending) _ _ _ :=
      handed_items hv ih rfl (log ++ [.enterList])
    exact hi.wrap rfl (closersFrom_items (fun t _ => closersFrom_events t) _)
      (by simp [ChildBegins]) hw

theorem Handed.exists_before {r : List Event} (h : Handed v s [] log es r)
    (hes : closers es = []) : ∃ before rest, es = before ++ rest ∧
      r = log ++ (before ++ closers before) ∧ Wanted v s [] log before ∧
      (rest = [] ∨ ChildBegins (closers before) rest ∧
        v.wantsMore (v.receiveAll s (log ++ before)) = false) := by
  cases h with
  | all h => exact ⟨es, [], (List.append_nil es).symm, by rw [hes, List.append_nil], h, .inl rfl⟩
  | @cut before rest closing he hp hc hw h =>
    rw [List.append_nil] at hp hc
    have hclosers : closers before = closing := hp
    exact ⟨before, rest, he, by rw [hclosers, List.append_assoc], h, .inr ⟨hclosers ▸ hc, hw⟩⟩

theorem Handed.eq_of_neverStops {r : List Event} (hv : v.NeverStops s)
    (h : Handed v s pending log es r) : r = log ++ es := by
  cases h with
  | all h => rfl
  | cut he hp hc hw h =>
    rw [hv] at hw
    cases hw

theorem hand_of_neverStops (hv : v.NeverStops s) (t : Tree) (log : List Event) :
    t.hand (v.history s) log = log ++ t.events := by
  have hs : v.Settled s := by
    intro log more h
    rw [hv] at h
    cases h
  exact (hands hs t [] log fun _ => hv log).eq_of_neverStops hv

end AttributeTrees.Visit
