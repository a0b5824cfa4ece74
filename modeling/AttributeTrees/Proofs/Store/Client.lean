import AttributeTrees.Proofs.Store.Access
/-!
# Clients of a store

What users do with trees between two moments is put together from questions about nodes, ways to
nodes, copies and ends of handles, and walks through trees in which users do such things again at
every node. However it is put together, it trades handles: the store stays balanced.
-/
namespace AttributeTrees.Store

open Visit (Visitor)

variable {α β σ : Type} {lent : List Loan} {taken : List Handle} {given : α → List Handle}

inductive Question : {α : Type} → Live α → Prop
  | name (h : Handle) : Question (Live.access.name h)
  | preview (h : Handle) : Question (Live.access.preview h)
  | kind (h : Handle) : Question (Live.access.kind h)
  | isImmutable (h : Handle) : Question (Live.access.isImmutable h)
  | isLink (h : Handle) : Question (Live.access.isLink h)
  | isList (h : Handle) : Question (Live.access.isList h)
  | childCount (h : Handle) : Question (Live.access.childCount h)
  | valueCount (h : Handle) : Question (Live.access.valueCount h)
  | fetch (h : Handle) (offset : Nat) (t : Element) (slots : List t.Value) :
      Question (Live.access.fetch h offset t slots)
  | first (h : Handle) (t : Element) : Question (Live.access.first h t)
  | all (h : Handle) (t : Element) : Question (Live.access.all h t)
  | bytes (h : Handle) : Question (Live.access.bytes h)
  | text (h : Handle) : Question (Live.access.text h)
  | valueAt (h : Handle) (p : Path) (tags : List String) (t : Element) :
      Question (Live.valueAt h p tags t)
  | hasValue (h : Handle) (p : Path) (tags : List String) : Question (Live.hasValue h p tags)
  | visit {σ : Type} (v : Visitor σ) (h : Handle) (s : σ) : Question (Live.access.visit v h s)

/-- What users can do. Handles and trees are lent to it, and handles it takes go over to it; those
that it hands out are the users' then. -/
inductive Client : {α : Type} → List Loan → List Handle → Live α → (α → List Handle) → Prop
  | pure {α : Type} {lent : List Loan} (given : α → List Handle) (a : α) :
      Client lent (given a) (pure a) given
  | bind {α β : Type} {lent : List Loan} {taken : List Handle} {x : Live α} {f : α → Live β}
      {given : α → List Handle} {last : β → List Handle} (hx : Client lent taken x given)
      (hf : ∀ a, Client lent (given a) (f a) last) : Client lent taken (x >>= f) last
  | frame {α : Type} {lent : List Loan} {taken rest : List Handle} {x : Live α}
      {given : α → List Handle} (hx : Client (rest.map .node ++ lent) taken x given) :
      Client lent (taken ++ rest) x fun a => given a ++ rest
  | perm {α : Type} {lent : List Loan} {taken taken' : List Handle} {x : Live α}
      {given : α → List Handle} (hx : Client lent taken x given) (hp : taken'.Perm taken) :
      Client lent taken' x given
  | lend {α : Type} {lent lent' : List Loan} {taken : List Handle} {x : Live α}
      {given : α → List Handle} (hx : Client lent taken x given) (hl : lent ⊆ lent') :
      Client lent' taken x given
  | owner {α : Type} {lent : List Loan} {taken : List Handle} {x : Live α}
      {given : α → List Handle} {h : Handle} (hh : .node h ∈ lent)
      (hx : Client (.tree h.tree :: lent) taken x given) : Client lent taken x given
  | ask {α : Type} {x : Live α} (hx : Question x) : Client [] [] x fun _ => []
  | childAt (h : Handle) (i : Nat) : Client [] [] (Live.access.childAt h i) given?
  | childNamed (h : Handle) (s : String) : Client [] [] (Live.access.childNamed h s) given?
  | find (h : Handle) (p : Path) (tags : List String) : Client [] [] (Live.find h p tags) given?
  | again (h : Handle) : Client [.node h] [] (Live.again h) fun g => [g]
  | release (h : Handle) : Client [] [h] (Live.release h) fun _ => []
  | root (tree : Nat) : Client [.tree tree] [] (Live.root tree) fun h => [h]
  | atRoot {α : Type} {lent : List Loan} {tree : Nat} {f : Handle → Live α}
      {given : α → List Handle} (hf : ∀ h, Client (.node h :: .tree tree :: lent) [] (f h) given) :
      Client (.tree tree :: lent) [] (Live.atRoot tree f) given
  | children {σ : Type} {lent : List Loan} (h : Handle) {f : Nat → Handle → σ → Live σ}
      (hf : ∀ i child s, Client (.node child :: lent) [] (f i child s) fun _ => []) (s : σ) :
      Client lent [] (Live.access.foldChildren h f s) fun _ => []
  | report {σ : Type} {lent : List Loan} {f : Handle → Path → σ → Live (Bool × σ)}
      (hf : ∀ h p s, Client (.node h :: lent) [] (f h p s) fun _ => []) (h : Handle) (s : σ) :
      Client (.node h :: lent) [] (Live.access.report f h s) fun _ => []

theorem Question.keeps {x : Live α} (hx : Question x) : Keeps [] x := by
  have ha := fair_access
  cases hx with
  | name h => exact ha.name h
  | preview h => exact ha.preview h
  | kind h => exact ha.kind h
  | isImmutable h => exact ha.isImmutable h
  | isLink h => exact ha.isLink h
  | isList h => exact ha.isList h
  | childCount h => exact ha.childCount h
  | valueCount h => exact ha.valueCount h
  | fetch h offset t slots => exact ha.fetch h offset t slots
  | first h t => exact ha.first h t
  | all h t => exact ha.all h t
  | bytes h => exact ha.bytes h
  | text h => exact ha.text h
  | valueAt h p tags t => exact keeps_valueAt h p tags t
  | hasValue h p tags => exact keeps_hasValue h p tags
  | visit v h s => exact ha.visit v h s

theorem Trades.owner {x : Live α} {h : Handle} (hh : .node h ∈ lent)
    (hx : Trades (.tree h.tree :: lent) taken x given) : Trades lent taken x given :=
  fun held s hs ha hl =>
    hx held s hs ha (List.forall_mem_cons.2 ⟨.inr ⟨h, hl _ hh, rfl⟩, hl⟩)

/-- However a client is put together, it trades just the handles that it takes and hands out. -/
theorem Client.trades {x : Live α} (hx : Client lent taken x given) :
    Trades lent taken x given := by
  have ha := fair_access
  induction hx with
  | pure given a => exact .pure given a
  | bind hx hf ihx ihf => exact ihx.bind ihf
  | frame hx ih => exact ih.frame
  | perm hx hp ih => exact ih.perm hp
  | lend hx hl ih => exact ih.lend hl
  | owner hh hx ih => exact ih.owner hh
  | ask hx => exact hx.keeps
  | childAt h i => exact ha.childAt h i
  | childNamed h s => exact ha.childNamed h s
  | find h p tags => exact trades_liveFind h p tags
  | again h => exact trades_again h
  | release h => exact trades_release h
  | root tree => exact trades_root tree
  | atRoot hf ih => exact trades_atRoot ih
  | children h hf s ih => exact ha.foldChildren h ih s
  | report hf h s ih => exact ha.report ih h s

end AttributeTrees.Store
