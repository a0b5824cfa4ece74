import AttributeTrees.Proofs.Access.Answers
import AttributeTrees.Proofs.Store.Balance
/-!
# Access that mirrors access without effects

Something is known of a store, and questions put to one access keep it and are answered as by
another access that has no effects. Then a way along a path ends at the same node for both.
-/
namespace AttributeTrees.Access

variable {α β ν μ : Type} {K : Store → Prop} {s : Store}

theorem run_bind_of_run {x : Live α} {a : α} {s' : Store} (h : x.run s = (a, s'))
    (f : α → Live β) : (x >>= f).run s = (f a).run s' := by
  rw [StateT.run_bind, h]
  rfl

/-- The computation has an answer, and what was known is known of the store that it leaves. -/
def Tells (K : Store → Prop) (s : Store) (x : Live α) (a : α) : Prop :=
  ∃ s', x.run s = (a, s') ∧ K s' ∧ s.Later s'

theorem Tells.answer {x : Live α} {a : α} (h : Tells K s x a) : (x.run s).1 = a := by
  obtain ⟨s', hrun, -⟩ := h
  rw [hrun]

theorem Tells.pure (hs : K s) (a : α) : Tells K s (pure a) a :=
  ⟨s, rfl, hs, .refl s⟩

theorem Tells.bind {x : Live α} {f : α → Live β} {a : α} {b : β} (hx : Tells K s x a)
    (hf : ∀ s', K s' → s.Later s' → Tells K s' (f a) b) : Tells K s (x >>= f) b := by
  obtain ⟨t, hx, ht, hst⟩ := hx
  obtain ⟨u, hf, hu, htu⟩ := hf t ht hst
  exact ⟨u, (run_bind_of_run hx f).trans hf, hu, hst.trans htu⟩

theorem Tells.map {x : Live α} {a : α} (g : α → β) (hx : Tells K s x a) :
    Tells K s (g <$> x) (g a) := by
  obtain ⟨s', hx, hs'⟩ := hx
  refine ⟨s', ?_, hs'⟩
  rw [StateT.run_map, hx]
  rfl

theorem Tells.get {f : Store → Live α} {a : α} (hf : Tells K s (f s) a) :
    Tells K s (get >>= f) a := hf

structure Echoes (K : Store → Prop) (s : Store) (a : Access Live ν) (b : Access Id ν) : Prop where
  name : ∀ n, Tells K s (a.name n) (b.name n)
  preview : ∀ n, Tells K s (a.preview n) (b.preview n)
  kind : ∀ n, Tells K s (a.kind n) (b.kind n)
  isImmutable : ∀ n, Tells K s (a.isImmutable n) (b.isImmutable n)
  isLink : ∀ n, Tells K s (a.isLink n) (b.isLink n)
  isList : ∀ n, Tells K s (a.isList n) (b.isList n)
  childCount : ∀ n, Tells K s (a.childCount n) (b.childCount n)
  childAt : ∀ n i, Tells K s (a.childAt n i) (b.childAt n i)
  childNamed : ∀ n name, Tells K s (a.childNamed n name) (b.childNamed n name)
  valueCount : ∀ n, Tells K s (a.valueCount n) (b.valueCount n)
  fetch : ∀ n offset t slots, Tells K s (a.fetch n offset t slots) (b.fetch n offset t slots)
  release : ∀ n, Tells K s (a.release n) (b.release n)

/-- Wherever it is known what is known, questions are answered alike. -/
def Mirrors (K : Store → Prop) (a : Access Live ν) (b : Access Id ν) : Prop :=
  ∀ s, K s → Echoes K s a b

variable {a : Access Live ν} {b : Access Id ν}

theorem mirrors_lift (b : Access Id ν) : Mirrors K (lift b) b := fun _ hs =>
  { name := fun n => .pure hs (b.name n)
    preview := fun n => .pure hs (b.preview n)
    kind := fun n => .pure hs (b.kind n)
    isImmutable := fun n => .pure hs (b.isImmutable n)
    isLink := fun n => .pure hs (b.isLink n)
    isList := fun n => .pure hs (b.isList n)
    childCount := fun n => .pure hs (b.childCount n)
    childAt := fun n i => .pure hs (b.childAt n i)
    childNamed := fun n name => .pure hs (b.childNamed n name)
    valueCount := fun n => .pure hs (b.valueCount n)
    fetch := fun n offset t slots => .pure hs (b.fetch n offset t slots)
    release := fun n => .pure hs (b.release n) }

theorem tells_match {f : ν → Live α} {g : ν → Id α} (hs : K s) (hf : ∀ n, Tells K s (f n) (g n))
    (n? : Option ν) (d : α) :
    Tells K s (match n? with | some n => f n | none => Pure.pure d)
      (match n? with | some n => g n | none => Pure.pure d : Id α) := by
  cases n? with
  | some n => exact hf n
  | none => exact .pure hs d

theorem Echoes.disguise (h : Echoes K s a b) (hs : K s) (put : ν → μ) (take? : μ → Option ν) :
    Echoes K s (a.disguise put take?) (b.disguise put take?) where
  name x := tells_match hs h.name (take? x) none
  preview x := tells_match hs h.preview (take? x) none
  kind x := tells_match hs h.kind (take? x) .unknown
  isImmutable x := tells_match hs h.isImmutable (take? x) false
  isLink x := tells_match hs h.isLink (take? x) false
  isList x := tells_match hs h.isList (take? x) false
  childCount x := tells_match hs h.childCount (take? x) 0
  childAt x i := tells_match hs (fun n => (h.childAt n i).map (Option.map put)) (take? x) none
  childNamed x name :=
    tells_match hs (fun n => (h.childNamed n name).map (Option.map put)) (take? x) none
  valueCount x := tells_match hs h.valueCount (take? x) 0
  fetch x offset t slots :=
    tells_match hs (fun n => h.fetch n offset t slots) (take? x) (0, slots)
  release x := tells_match hs h.release (take? x) ()

theorem Echoes.choose {pick : Live (Access Live ν)} (hp : pick.run s = (a, s))
    (h : Echoes K s a b) : Echoes K s (.choose pick) b := by
  have hq {α : Type} {q : Access Live ν → Live α} {v : α} (hv : Tells K s (q a) v) :
      Tells K s (pick >>= q) v := by
    obtain ⟨s', hrun, hs'⟩ := hv
    exact ⟨s', (run_bind_of_run hp q).trans hrun, hs'⟩
  exact {
    name := fun n => hq (h.name n)
    preview := fun n => hq (h.preview n)
    kind := fun n => hq (h.kind n)
    isImmutable := fun n => hq (h.isImmutable n)
    isLink := fun n => hq (h.isLink n)
    isList := fun n => hq (h.isList n)
    childCount := fun n => hq (h.childCount n)
    childAt := fun n i => hq (h.childAt n i)
    childNamed := fun n name => hq (h.childNamed n name)
    valueCount := fun n => hq (h.valueCount n)
    fetch := fun n offset t slots => hq (h.fetch n offset t slots)
    release := fun n => hq (h.release n) }

namespace Mirrors

theorem firstNamed (h : Mirrors K a b) (hs : K s) (n : ν) (names : List String) :
    Tells K s (a.firstNamed n names) (b.firstNamed n names) := by
  induction names generalizing s with
  | nil => exact .pure hs none
  | cons name names ih =>
    apply ((h s hs).childNamed n name).bind
    intro s' hs' _
    change Tells K s' _ (match b.childNamed n name with
      | some (child : ν) => some child
      | none => b.firstNamed n names : Option ν)
    generalize b.childNamed n name = found
    cases found with
    | some child => exact .pure hs' (some child)
    | none => exact ih hs'

theorem step (h : Mirrors K a b) (hs : K s) (n : ν) (segment : String) (tags : List String) :
    Tells K s (a.step n segment tags) (b.step n segment tags) := by
  apply ((h s hs).isList n).bind
  intro s' hs' _
  change Tells K s' _ (if (show Bool from b.isList n) then _ else _ : Option ν)
  generalize b.isList n = list
  cases list with
  | true =>
    cases Numeral.index? segment with
    | some i => exact (h s' hs').childAt n i
    | none => exact .pure hs' none
  | false => exact h.firstNamed hs' n (candidates segment tags)

theorem follow (h : Mirrors K a b) (hs : K s) (tags : List String) (n : ν)
    (segments : List String) : Tells K s (a.follow tags n segments) (b.follow tags n segments) := by
  induction segments generalizing n s with
  | nil => exact .pure hs (some n)
  | cons segment rest ih =>
    apply (h.step hs n segment tags).bind
    intro s' hs' _
    apply ((h s' hs').release n).bind
    intro s'' hs'' _
    change Tells K s'' _ (match b.step n segment tags with
      | some (child : ν) => b.follow tags child rest
      | none => none : Option ν)
    generalize b.step n segment tags = next
    cases next with
    | some child => exact ih hs'' child
    | none => exact .pure hs'' none

theorem resolve (h : Mirrors K a b) (hs : K s) (n : ν) (p : Path) (tags : List String) :
    Tells K s (a.resolve n p tags) (b.resolve n p tags) :=
  h.follow hs tags n p.segments

end Mirrors

end AttributeTrees.Access
