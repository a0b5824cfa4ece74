import AttributeTrees.Access
import AttributeTrees.Proofs.Numeral
/-!
# Ways and rows without effects

Where questions have no effects a way along a path is a chain of steps, each to the first candidate
that is there, and a report has a row for each node that it comes to.
-/
namespace AttributeTrees.Access

variable {ν μ : Type} (a : Access Id ν)

theorem firstNamed_eq (n : ν) (names : List String) :
    a.firstNamed n names = names.findSome? fun name => a.childNamed n name := by
  induction names with
  | nil => rfl
  | cons name names ih =>
    change (match a.childNamed n name with
      | some (child : ν) => some child
      | none => a.firstNamed n names : Option ν) = _
    rw [ih, List.findSome?_cons]
    cases h : a.childNamed n name <;> rfl

theorem step_eq (n : ν) (segment : String) (tags : List String) :
    a.step n segment tags = if (show Bool from a.isList n) then
      (Numeral.index? segment).bind fun i => a.childAt n i
      else (candidates segment tags).findSome? fun name => a.childNamed n name := by
  rw [← firstNamed_eq, step]
  cases Numeral.index? segment <;> rfl

theorem follow_cons (tags : List String) (n : ν) (segment : String) (rest : List String) :
    a.follow tags n (segment :: rest) =
      Option.bind (a.step n segment tags) fun child => a.follow tags child rest := by
  change (match a.step n segment tags with
    | some (child : ν) => a.follow tags child rest
    | none => none : Option ν) = _
  cases a.step n segment tags <;> rfl

theorem follow_append (tags : List String) (n : ν) (way more : List String) :
    a.follow tags n (way ++ more) =
      Option.bind (a.follow tags n way) fun m => a.follow tags m more := by
  induction way generalizing n with
  | nil => rfl
  | cons segment way ih =>
    rw [List.cons_append, follow_cons, follow_cons]
    cases a.step n segment tags with
    | none => rfl
    | some child => exact ih child

theorem follow_induction {P : ν → Prop}
    (hat : ∀ {n m : ν} {i : Nat}, P n → a.childAt n i = some m → P m)
    (hnamed : ∀ {n m : ν} {name : String}, P n → a.childNamed n name = some m → P m)
    {tags segments : List String} {n m : ν} (hn : P n) (h : a.follow tags n segments = some m) :
    P m := by
  induction segments generalizing n with
  | nil =>
    cases h
    exact hn
  | cons segment rest ih =>
    rw [follow_cons] at h
    obtain ⟨child, hstep, hrest⟩ := Option.bind_eq_some_iff.1 h
    refine ih ?_ hrest
    rw [step_eq] at hstep
    split at hstep
    · obtain ⟨i, -, hi⟩ := Option.bind_eq_some_iff.1 hstep
      exact hat hn hi
    · obtain ⟨name, -, hname⟩ := List.exists_of_findSome?_eq_some hstep
      exact hnamed hn hname

def distinctTags (tags : List String) : List String :=
  (tags.filter fun t => !t.isEmpty).eraseDups

section
variable {α β : Type}

theorem findSome?_filter_of_eq_none {f : α → Option β} {p : α → Bool} {l : List α}
    (h : ∀ x ∈ l, p x = false → f x = none) : (l.filter p).findSome? f = l.findSome? f := by
  induction l with
  | nil => rfl
  | cons x l ih =>
    obtain ⟨hx, hl⟩ := List.forall_mem_cons.1 h
    cases hp : p x with
    | true => rw [List.filter_cons_of_pos hp, List.findSome?_cons, List.findSome?_cons, ih hl]
    | false => rw [List.filter_cons_of_neg (by simp [hp]), List.findSome?_cons, hx hp, ih hl]

theorem findSome?_eraseDups [BEq α] [LawfulBEq α] (f : α → Option β) (l : List α) :
    l.eraseDups.findSome? f = l.findSome? f := by
  induction hlength : l.length using Nat.strongRecOn generalizing l with
  | ind k ih =>
    cases l with
    | nil => rfl
    | cons x l =>
      rw [List.eraseDups_cons, List.findSome?_cons, List.findSome?_cons]
      cases hx : f x with
      | some v => rfl
      | none =>
        have hle := List.length_filter_le (fun b => !b == x) l
        rw [List.length_cons] at hlength
        change List.findSome? f _ = List.findSome? f l
        rw [ih _ (by omega) _ rfl]
        apply findSome?_filter_of_eq_none
        intro y _ hy
        rw [show y = x by simpa using hy, hx]

end

theorem findSome?_distinctTags {β : Type} (f : String → Option β) (segment : String)
    (tags : List String) : (candidates segment (distinctTags tags)).findSome? f =
      (candidates segment tags).findSome? f := by
  have hfilter : (distinctTags tags).filter (fun t => !t.isEmpty) = distinctTags tags := by
    rw [List.filter_eq_self]
    intro t ht
    exact (List.mem_filter.1 (List.mem_eraseDups.1 ht)).2
  rw [candidates, candidates, hfilter, List.findSome?_append, List.findSome?_append,
    List.findSome?_map, List.findSome?_map, distinctTags, findSome?_eraseDups]

theorem follow_distinctTags (tags : List String) (n : ν) (segments : List String) :
    a.follow (distinctTags tags) n segments = a.follow tags n segments := by
  induction segments generalizing n with
  | nil => rfl
  | cons segment rest ih =>
    rw [follow_cons, follow_cons, step_eq, step_eq, findSome?_distinctTags]
    exact Option.bind_congr fun child _ => ih child

theorem resolve_eq_of_tags {tags tags' : List String} (h : distinctTags tags' = distinctTags tags)
    (n : ν) (p : Path) : a.resolve n p tags' = a.resolve n p tags := by
  rw [resolve, resolve, ← follow_distinctTags, h, follow_distinctTags]

def children (n : ν) : List (Nat × ν) :=
  let count : Nat := a.childCount n
  (List.range' 0 count).filterMap fun i =>
    let child : Option ν := a.childAt n i
    child.map (i, ·)

def rowSegment (n : ν) (child : Nat × ν) : String :=
  let list : Bool := a.isList n
  if list then toString child.1 else a.segment child.2 child.1

/-- The nodes from one on with their paths, down to a depth, in the order in which they are
reported. -/
def rows : Nat → ν → Path → List (ν × Path)
  | 0, _, _ => []
  | depth + 1, n, p =>
    let link : Bool := a.isLink n
    (n, p) :: if link then [] else
      (a.children n).flatMap fun child => rows depth child.2 (p.push (a.rowSegment n child))

def rowsBelow (depth : Nat) (n : ν) (p : Path) : List (ν × Path) :=
  let link : Bool := a.isLink n
  if link then [] else
    (a.children n).flatMap fun child => a.rows depth child.2 (p.push (a.rowSegment n child))

theorem segment_of_name {child : ν} {name : String} (h : a.name child = some name) (i : Nat) :
    a.segment child i = if name.isEmpty then toString i else name := by
  rw [segment, h]
  rfl

theorem segment_of_none {child : ν} (h : a.name child = none) (i : Nat) :
    a.segment child i = toString i := by
  rw [segment, h]
  rfl

theorem segment_ne_empty (child : ν) (i : Nat) : a.segment child i ≠ "" := by
  cases h : a.name child with
  | none =>
    rw [a.segment_of_none h]
    exact Numeral.toString_ne_empty i
  | some name =>
    rw [a.segment_of_name h]
    split
    · exact Numeral.toString_ne_empty i
    · next hne => exact mt String.isEmpty_iff.2 hne

section
variable {put : ν → μ} {take? : μ → Option ν} (ht : ∀ n, take? (put n) = some n)
include ht

theorem childAt_disguise (n : ν) (i : Nat) :
    (a.disguise put take?).childAt (put n) i = Option.map put (a.childAt n i) := by
  simp only [disguise, ht]
  rfl

theorem childNamed_disguise (n : ν) (name : String) :
    (a.disguise put take?).childNamed (put n) name = Option.map put (a.childNamed n name) := by
  simp only [disguise, ht]
  rfl

theorem step_disguise (n : ν) (segment : String) (tags : List String) :
    (a.disguise put take?).step (put n) segment tags = Option.map put (a.step n segment tags) := by
  have hlist : (a.disguise put take?).isList (put n) = a.isList n := by simp [disguise, ht]
  rw [step_eq, step_eq, hlist]
  split
  · cases Numeral.index? segment with
    | none => rfl
    | some i => exact a.childAt_disguise ht n i
  · induction candidates segment tags with
    | nil => rfl
    | cons name names ih =>
      rw [List.findSome?_cons, List.findSome?_cons, ih, a.childNamed_disguise ht]
      cases a.childNamed n name <;> rfl

theorem follow_disguise (tags : List String) (n : ν) (segments : List String) :
    (a.disguise put take?).follow tags (put n) segments =
      Option.map put (a.follow tags n segments) := by
  induction segments generalizing n with
  | nil => rfl
  | cons segment rest ih =>
    rw [follow_cons, follow_cons, a.step_disguise ht]
    cases a.step n segment tags with
    | none => rfl
    | some child => exact ih child

theorem children_disguise (n : ν) : (a.disguise put take?).children (put n) =
    (a.children n).map fun child => (child.1, put child.2) := by
  have hcount : (a.disguise put take?).childCount (put n) = a.childCount n := by
    simp [disguise, ht]
  unfold children
  simp only [hcount, a.childAt_disguise ht, List.map_filterMap, Option.map_map]
  rfl

theorem segment_disguise (child : ν) (i : Nat) :
    (a.disguise put take?).segment (put child) i = a.segment child i := by
  simp [segment, disguise, ht]

theorem rows_disguise (depth : Nat) (n : ν) (p : Path) :
    (a.disguise put take?).rows depth (put n) p =
      (a.rows depth n p).map fun r => (put r.1, r.2) := by
  have hlink (n : ν) : (a.disguise put take?).isLink (put n) = a.isLink n := by simp [disguise, ht]
  have hsegment (n : ν) (i : Nat) (child : ν) :
      (a.disguise put take?).rowSegment (put n) (i, put child) = a.rowSegment n (i, child) := by
    have hlist : (a.disguise put take?).isList (put n) = a.isList n := by simp [disguise, ht]
    rw [rowSegment, rowSegment, hlist, a.segment_disguise ht]
  induction depth generalizing n p with
  | zero => rfl
  | succ depth ih =>
    rw [rows, rows, hlink, a.children_disguise ht]
    cases a.isLink n with
    | true => rfl
    | false => simp [List.flatMap_map, List.map_flatMap, hsegment, ih]

end

end AttributeTrees.Access
