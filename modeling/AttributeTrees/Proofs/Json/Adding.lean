import AttributeTrees.Json.Assembly
/-!
# Changes at a path

A step along a path goes on in a container: one value is put in at the segment and all others stay
where they are. Containers are made only of null, or below what was made of it, and from there on
every path leads to its end. So a path that is blocked is so before anything was made, and a change
at it comes to nothing.
Main statement: adding at a path that is blocked leaves the document as it was, and at any other
path it changes the value there and leaves all values beside the path.
-/
namespace AttributeTrees.Json

namespace Value

def slot? (key : String) : Value → Option Value
  | object members => members.lookup key
  | array items => (Numeral.index? key).bind (items[·]?)
  | _ => none

def part? : List String → Value → Option Value
  | [], v => some v
  | key :: path, v => (slot? key v).bind (part? path)

def putSlot (key : String) (w : Value) : Value → Value
  | object members => object (Members.put key w members)
  | array items =>
    match Numeral.index? key with
    | some i => if i = items.length then array (items ++ [w]) else array (items.set i w)
    | none => array items
  | _ => object [(key, w)]

inductive Enters (key : String) : Value → Prop where
  | null : Enters key null
  | object (members : List (String × Value)) : Enters key (object members)
  | array {items : List Value} {i : Nat} : Numeral.index? key = some i → i ≤ items.length →
    Enters key (array items)

/-- Whether two segments name the same place in a value. An index of an array may be spelled in
different ways. -/
def SamePlace : Value → String → String → Prop
  | array _, key, other => Numeral.index? key = Numeral.index? other
  | _, key, other => key = other

/-- `Grown key w v u`: the container `u` is `v` with the value `w` put in at the segment, in the
place of what was there or behind all others. -/
inductive Grown (key : String) (w : Value) : Value → Value → Prop where
  | made : Grown key w null (object [(key, w)])
  | member {before after : List (String × Value)} (old : Value) : key ∉ before.map (·.1) →
    Grown key w (object (before ++ (key, old) :: after)) (object (before ++ (key, w) :: after))
  | newMember {members : List (String × Value)} : key ∉ members.map (·.1) →
    Grown key w (object members) (object (members ++ [(key, w)]))
  | item {before after : List Value} (old : Value) : Numeral.index? key = some before.length →
    Grown key w (array (before ++ old :: after)) (array (before ++ w :: after))
  | newItem {items : List Value} : Numeral.index? key = some items.length →
    Grown key w (array items) (array (items ++ [w]))

section
variable {key other : String} {v u w : Value}

theorem grown_putSlot (h : Enters key v) (w : Value) : Grown key w v (putSlot key w v) := by
  cases h with
  | null => exact .made
  | object members =>
    rw [putSlot]
    cases hm : members.lookup key with
    | none =>
      have hf := Members.lookup_eq_none_iff.1 hm
      rw [Members.put_of_not_mem hf]
      exact .newMember hf
    | some old =>
      obtain ⟨before, after, rfl, hf⟩ := Members.lookup_eq_some_iff.1 hm
      rw [Members.put_append hf]
      exact .member old hf
  | @array items i hi hl =>
    simp only [putSlot, hi]
    split
    · next he => exact .newItem (he ▸ hi)
    · next he =>
      have hlt : i < items.length := Nat.lt_of_le_of_ne hl he
      have hsplit : items = items.take i ++ items[i] :: items.drop (i + 1) := by simp
      have hset : items.set i w = items.take i ++ w :: items.drop (i + 1) := by
        rw [List.set_eq_take_append_cons_drop, if_pos hlt]
      have hlen : (items.take i).length = i := by simp [hl]
      rw [hset]
      generalize items.drop (i + 1) = after at hsplit ⊢
      generalize items[i] = old at hsplit
      generalize items.take i = before at hsplit hlen ⊢
      rw [hsplit]
      exact .item old (hlen.symm ▸ hi)

theorem Grown.slot?_self (h : Grown key w v u) (hs : SamePlace v key other) :
    slot? other u = some w := by
  cases h with
  | made =>
    cases hs
    simp [slot?]
  | member old hf =>
    cases hs
    simp [slot?, List.lookup_append, Members.lookup_eq_none_iff.2 hf]
  | newMember hf =>
    cases hs
    simp [slot?, List.lookup_append, Members.lookup_eq_none_iff.2 hf]
  | item old hi =>
    have ho := hs.symm.trans hi
    simp [slot?, ho]
  | newItem hi =>
    have ho := hs.symm.trans hi
    simp [slot?, ho]

theorem Grown.slot?_other (h : Grown key w v u) (hs : ¬ SamePlace v key other) :
    slot? other u = slot? other v := by
  cases h with
  | made => simp [slot?, Members.lookup_cons, show key ≠ other from hs]
  | member old hf => simp [slot?, List.lookup_append, Members.lookup_cons, show key ≠ other from hs]
  | newMember hf => simp [slot?, List.lookup_append, Members.lookup_cons, show key ≠ other from hs]
  | @item before after old hi =>
    cases ho : Numeral.index? other with
    | none => simp [slot?, ho]
    | some j =>
      have hj : j ≠ before.length := fun he => hs (by rw [SamePlace, hi, ho, he])
      simp only [slot?, ho, Option.bind_some, List.getElem?_append, List.getElem?_cons]
      split
      · rfl
      · rw [if_neg (by omega), if_neg (by omega)]
  | @newItem items hi =>
    cases ho : Numeral.index? other with
    | none => simp [slot?, ho]
    | some j =>
      have hj : j ≠ items.length := fun he => hs (by rw [SamePlace, hi, ho, he])
      simp only [slot?, ho, Option.bind_some, List.getElem?_append, List.getElem?_cons]
      split
      · rfl
      · rw [if_neg (by omega), List.getElem?_nil, List.getElem?_eq_none (by omega)]

theorem putSlot_slot? (h : slot? key v = some w) : putSlot key w v = v := by
  cases v with
  | object members =>
    obtain ⟨before, after, rfl, hf⟩ := Members.lookup_eq_some_iff.1 h
    rw [putSlot, Members.put_append hf]
  | array items =>
    obtain ⟨i, hi, hw⟩ := Option.bind_eq_some_iff.1 h
    obtain ⟨hl, rfl⟩ := List.getElem?_eq_some_iff.1 hw
    simp [putSlot, hi, Nat.ne_of_lt hl]
  | _ => cases h

end

variable {f : Value → Value} {key : String} {path : List String} {v : Value}

theorem alter_cons (h : Enters key v) :
    alter f (key :: path) v =
      (putSlot key (alter f path ((slot? key v).getD null)).1 v,
        (alter f path ((slot? key v).getD null)).2) := by
  cases h with
  | null => rfl
  | object members => rfl
  | @array items i hi hl =>
    by_cases he : i = items.length
    · subst he
      simp [alter, opened, hi, slot?, putSlot]
    · have hlt : i < items.length := Nat.lt_of_le_of_ne hl he
      simp [alter, opened, hi, slot?, putSlot, he, hlt]

theorem alter_of_not_enters (h : ¬ Enters key v) : alter f (key :: path) v = (v, false) := by
  cases v with
  | null => exact absurd .null h
  | object members => exact absurd (.object members) h
  | array items =>
    cases hi : Numeral.index? key with
    | none => simp [alter, opened, hi]
    | some i =>
      have hl : items.length < i := Nat.lt_of_not_le fun hl => h (.array hi hl)
      simp [alter, opened, hi, Nat.ne_of_gt hl, Nat.le_of_lt hl]
  | _ => rfl

inductive IsScalar : Value → Prop where
  | bool (b : Bool) : IsScalar (bool b)
  | whole (n : Whole) : IsScalar (whole n)
  | float (x : Float) : IsScalar (float x)
  | string (s : String) : IsScalar (string s)

/-- The path meets a scalar before it ends, or an array at a segment that is no index up to its
length. -/
inductive Blocked : List String → Value → Prop where
  | scalar {key : String} {path : List String} {v : Value} : IsScalar v → Blocked (key :: path) v
  | beyond {key : String} {path : List String} {items : List Value} :
    (∀ i, Numeral.index? key = some i → items.length < i) → Blocked (key :: path) (array items)
  | further {key : String} {path : List String} {v w : Value} : slot? key v = some w →
    Blocked path w → Blocked (key :: path) v

theorem blocked_of_not_enters (h : ¬ Enters key v) : Blocked (key :: path) v := by
  cases v with
  | null => exact absurd .null h
  | object members => exact absurd (.object members) h
  | array items => exact .beyond fun i hi => Nat.lt_of_not_le fun hl => h (.array hi hl)
  | bool b => exact .scalar (.bool b)
  | whole n => exact .scalar (.whole n)
  | float x => exact .scalar (.float x)
  | string s => exact .scalar (.string s)

theorem not_blocked_null : ¬ Blocked path null := by
  intro h
  cases h with
  | scalar h => cases h
  | further h => cases h

theorem blocked_cons_iff (h : Enters key v) :
    Blocked (key :: path) v ↔ Blocked path ((slot? key v).getD null) := by
  constructor
  · intro hb
    cases hb with
    | scalar hs => cases h <;> cases hs
    | beyond hi =>
      cases h with
      | array hi' hl => exact absurd (hi _ hi') (Nat.not_lt.2 hl)
    | further hw hb => rwa [hw]
  · intro hb
    cases hw : slot? key v with
    | none => exact absurd (hw ▸ hb) not_blocked_null
    | some w => exact .further hw (by rwa [hw] at hb)

/-- A walk that cannot go on has made nothing: only in what it made itself is nothing in its way. -/
theorem alter_of_blocked (h : Blocked path v) : alter f path v = (v, false) := by
  induction path generalizing v with
  | nil => cases h
  | cons key path ih =>
    by_cases he : Enters key v
    · have hb := (blocked_cons_iff he).1 h
      rw [alter_cons he, ih hb]
      cases hw : slot? key v with
      | none => exact absurd (hw ▸ hb) not_blocked_null
      | some w => rw [Option.getD_some, putSlot_slot? hw]
    · exact alter_of_not_enters he

inductive Parts : List String → List String → Value → Prop where
  | here {key other : String} {p q : List String} {v : Value} : ¬ SamePlace v key other →
    Parts (key :: p) (other :: q) v
  | further {key other : String} {p q : List String} {v : Value} : SamePlace v key other →
    Parts p q ((slot? key v).getD null) → Parts (key :: p) (other :: q) v

theorem slot?_congr {other : String} (h : SamePlace v key other) : slot? key v = slot? other v := by
  cases v with
  | array items => rw [slot?, slot?, show Numeral.index? key = Numeral.index? other from h]
  | _ => rw [show key = other from h]

theorem getD_part?_null (path : List String) : (part? path null).getD null = null := by
  cases path <;> rfl

theorem getD_part?_cons (key : String) (path : List String) (v : Value) :
    (part? (key :: path) v).getD null = (part? path ((slot? key v).getD null)).getD null := by
  rw [part?]
  cases slot? key v with
  | none => exact (getD_part?_null path).symm
  | some w => rfl

theorem enters_of_not_blocked (h : ¬ Blocked (key :: path) v) : Enters key v :=
  Classical.byContradiction fun he => h (blocked_of_not_enters he)

theorem samePlace_refl (v : Value) (key : String) : SamePlace v key key := by
  cases v <;> rfl

theorem part?_alter_cons {other : String} (he : Enters key v) (hs : SamePlace v key other)
    (q : List String) : part? (other :: q) (alter f (key :: path) v).1 =
      part? q (alter f path ((slot? key v).getD null)).1 := by
  rw [alter_cons he, part?, (grown_putSlot he _).slot?_self hs, Option.bind_some]

theorem part?_alter (h : ¬ Blocked path v) :
    part? path (alter f path v).1 = some (f ((part? path v).getD null)) := by
  induction path generalizing v with
  | nil => rfl
  | cons key path ih =>
    have he := enters_of_not_blocked h
    have hb := mt (blocked_cons_iff he).2 h
    rw [part?_alter_cons he (samePlace_refl v key), ih hb, getD_part?_cons]

theorem part?_alter_of_parts {p q : List String} (h : ¬ Blocked p v) (hq : Parts p q v) :
    part? q (alter f p v).1 = part? q v := by
  induction hq with
  | here hs =>
    have he := enters_of_not_blocked h
    rw [alter_cons he, part?, part?, (grown_putSlot he _).slot?_other hs]
  | @further key other p q v hs hq ih =>
    have he := enters_of_not_blocked h
    rw [part?_alter_cons he hs, ih (mt (blocked_cons_iff he).2 h), part?, ← slot?_congr hs]
    cases slot? key v with
    | none => cases hq <;> rfl
    | some w => rfl

theorem grown_alter {before after : List String} (h : ¬ Blocked (before ++ key :: after) v) :
    ∃ w u, part? before (alter f (before ++ key :: after) v).1 = some u ∧
      Grown key w ((part? before v).getD null) u := by
  induction before generalizing v with
  | nil =>
    have he := enters_of_not_blocked h
    rw [List.nil_append, alter_cons he]
    exact ⟨_, _, rfl, grown_putSlot he _⟩
  | cons first before ih =>
    have he := enters_of_not_blocked h
    obtain ⟨w, u, hu, hg⟩ := ih (mt (blocked_cons_iff he).2 h)
    exact ⟨w, u, by rwa [List.cons_append, part?_alter_cons he (samePlace_refl v first)],
      by rwa [getD_part?_cons]⟩

def changeAt (f : Value → Value) : List String → Value → Option Value
  | [], v => some (f v)
  | key :: path, null => (changeAt f path null).map fun v => object [(key, v)]
  | key :: path, object members =>
    (changeAt f path ((members.lookup key).getD null)).map fun v =>
      object (Members.put key v members)
  | key :: path, array items =>
    match Numeral.index? key with
    | none => none
    | some i =>
      if i = items.length then (changeAt f path null).map fun v => array (items ++ [v])
      else
        match items[i]? with
        | none => none
        | some item => (changeAt f path item).map fun v => array (items.set i v)
  | _ :: _, _ => none

theorem changeAt_cons (h : Enters key v) : changeAt f (key :: path) v =
    (changeAt f path ((slot? key v).getD null)).map (putSlot key · v) := by
  cases h with
  | null => rfl
  | object members => rfl
  | @array items i hi hl =>
    by_cases he : i = items.length
    · subst he
      simp [changeAt, hi, slot?, putSlot]
    · have hlt : i < items.length := Nat.lt_of_le_of_ne hl he
      simp [changeAt, hi, slot?, putSlot, he, hlt]

theorem changeAt_of_not_enters (h : ¬ Enters key v) : changeAt f (key :: path) v = none := by
  cases v with
  | null => exact absurd .null h
  | object members => exact absurd (.object members) h
  | array items =>
    cases hi : Numeral.index? key with
    | none => simp [changeAt, hi]
    | some i =>
      have hl : items.length < i := Nat.lt_of_not_le fun hl => h (.array hi hl)
      simp [changeAt, hi, Nat.ne_of_gt hl, Nat.le_of_lt hl]
  | _ => rfl

theorem changeAt_null (f : Value → Value) (path : List String) :
    ∃ w, changeAt f path null = some w := by
  induction path with
  | nil => exact ⟨_, rfl⟩
  | cons key path ih =>
    obtain ⟨w, hw⟩ := ih
    exact ⟨_, by rw [changeAt, hw]; rfl⟩

theorem alter_eq (f : Value → Value) (path : List String) (v : Value) :
    alter f path v = ((changeAt f path v).getD v, (changeAt f path v).isSome) := by
  induction path generalizing v with
  | nil => rfl
  | cons key path ih =>
    by_cases he : Enters key v
    · rw [alter_cons he, changeAt_cons he, ih]
      cases hc : changeAt f path ((slot? key v).getD null) with
      | some w => rfl
      | none =>
        cases hw : slot? key v with
        | some w => simp [putSlot_slot? hw]
        | none =>
          obtain ⟨w, hn⟩ := changeAt_null f path
          rw [hw] at hc
          cases hc.symm.trans hn
    · rw [alter_of_not_enters he, changeAt_of_not_enters he]
      rfl

end Value

namespace Assembly

open Value (Blocked Grown Parts part? ofRun)

variable {α : Type}

theorem change_eq (a : Assembly α) (path : Path) (f : Value → Value) :
    a.change path f =
      { a with document := (a.document.changeAt f path.segments).getD a.document } := by
  rw [change, Value.alter_eq]

structure Keeps (path : List String) (old new : Value) : Prop where
  beside : ∀ q, Parts path q old → part? q new = part? q old
  around : ∀ before key after, path = before ++ key :: after → ∃ w u,
    part? before new = some u ∧ Grown key w ((part? before old).getD .null) u

inductive Added (run : Run) : Option Value → Value → Prop where
  | behind (items : List Value) : Added run (some (.array items)) (.array (items ++ ofRun run))
  | single {old : Option Value} {v : Value} : (∀ items, old ≠ some (.array items)) →
    ofRun run = [v] → Added run old v
  | several {old : Option Value} : (∀ items, old ≠ some (.array items)) → run.length ≠ 1 →
    Added run old (.array (ofRun run))

inductive MadeObject : Option Value → Value → Prop where
  | kept (members : List (String × Value)) :
    MadeObject (some (.object members)) (.object members)
  | fresh {old : Option Value} : (∀ members, old ≠ some (.object members)) →
    MadeObject old (.object [])

theorem added_of_not_array {run : Run} {old : Option Value}
    (h : ∀ items, old ≠ some (.array items)) :
    Added run old (match ofRun run with | [single] => single | items => .array items) := by
  have hl := Value.length_ofRun run
  cases hr : ofRun run with
  | nil =>
    have hn : run.length ≠ 1 := by simp [← hl, hr]
    have hs : Added run old _ := .several h hn
    rwa [hr] at hs
  | cons v values =>
    cases values with
    | nil => exact .single h hr
    | cons w values =>
      have hn : run.length ≠ 1 := by simp [← hl, hr]
      have hs : Added run old _ := .several h hn
      rwa [hr] at hs

theorem added_addRun (run : Run) (old : Option Value) :
    Added run old ((old.getD .null).addRun run) := by
  cases old with
  | none => exact added_of_not_array nofun
  | some v =>
    cases v with
    | array items => exact .behind items
    | _ => exact added_of_not_array nofun

theorem madeObject_toObject (old : Option Value) : MadeObject old (old.getD .null).toObject := by
  cases old with
  | none => exact .fresh nofun
  | some v =>
    cases v with
    | object members => exact .kept members
    | _ => exact .fresh nofun

theorem keeps_change {path : List String} {v : Value} (f : Value → Value) (h : ¬ Blocked path v) :
    Keeps path v (Value.alter f path v).1 where
  beside _ hq := Value.part?_alter_of_parts h hq
  around before key after he := by
    subst he
    exact Value.grown_alter h

/-- Adding at a path that is blocked leaves the document as it was. At any other path it changes
what is there and keeps the rest. -/
theorem adding_local (decode : Value → Option α) (a : Assembly α) (path : Path) :
    (Blocked path.segments a.document →
      (∀ run, receive decode a (.add path run) = a) ∧ receive decode a (.addObject path) = a ∧
        receive decode a (.addList path) = a) ∧
    (¬ Blocked path.segments a.document →
      (∀ run, ∃ doc v, receive decode a (.add path run) = { a with document := doc } ∧
        part? path.segments doc = some v ∧ Added run (part? path.segments a.document) v ∧
        Keeps path.segments a.document doc) ∧
      (∃ doc v, receive decode a (.addObject path) = { a with document := doc } ∧
        part? path.segments doc = some v ∧ MadeObject (part? path.segments a.document) v ∧
        Keeps path.segments a.document doc) ∧
      ∃ doc, receive decode a (.addList path) = { a with document := doc } ∧
        part? path.segments doc = some (.array []) ∧ Keeps path.segments a.document doc) := by
  constructor
  · intro h
    have same (f : Value → Value) : a.change path f = a := by
      rw [change, Value.alter_of_blocked h]
    exact ⟨fun run => same _, same _, same _⟩
  · intro h
    refine ⟨fun run => ⟨_, _, rfl, Value.part?_alter h, added_addRun _ _, keeps_change _ h⟩,
      ⟨_, _, rfl, Value.part?_alter h, madeObject_toObject _, keeps_change _ h⟩,
      _, rfl, Value.part?_alter h, keeps_change _ h⟩

/-- A value added at `a.01.y` makes a second item of the list `a` and leaves the first, which is
also spelled `+0`; at `b.z`, below a scalar, nothing is made. -/
theorem adding_local_item :
    let old : Value := .object [("a", .array [.object [("x", .null)]]), ("b", .bool true)]
    let a : Assembly Unit := ⟨old, none⟩
    ¬ Blocked ["a", "01", "y"] old ∧
      (∃ doc v, receive (fun _ => none) a (.add ⟨["a", "01", "y"]⟩ (.bool [false])) =
          { a with document := doc } ∧
        part? ["a", "01", "y"] doc = some v ∧ Added (.bool [false]) none v ∧
        part? ["a", "+0"] doc = some (.object [("x", .null)])) ∧
      Blocked ["b", "z"] old ∧ receive (fun _ => none) a (.addList ⟨["b", "z"]⟩) = a := by
  intro old a
  have hone : Numeral.index? "01" = some 1 := by decide +kernel
  have hzero : Numeral.index? "+0" = some 0 := by decide +kernel
  have hopen : ¬ Blocked ["a", "01", "y"] old := by
    intro h
    have hitem : Blocked ["01", "y"] (.array [.object [("x", .null)]]) :=
      (Value.blocked_cons_iff (.object _)).1 h
    have hnull := (Value.blocked_cons_iff (.array hone (by decide))).1 hitem
    simp only [Value.slot?, hone] at hnull
    exact Value.not_blocked_null hnull
  have hblocked : Blocked ["b", "z"] old := .further rfl (.scalar (.bool true))
  have hparts : Parts ["a", "01", "y"] ["a", "+0"] old := by
    refine .further rfl (.here ?_)
    change Numeral.index? "01" ≠ Numeral.index? "+0"
    simp [hone, hzero]
  have hnone : part? ["a", "01", "y"] old = none := by
    change part? ["01", "y"] (.array [.object [("x", .null)]]) = none
    simp [part?, Value.slot?, hone]
  have hfirst : part? ["a", "+0"] old = some (.object [("x", .null)]) := by
    change part? ["+0"] (.array [.object [("x", .null)]]) = _
    simp [part?, Value.slot?, hzero]
  obtain ⟨doc, v, hadd, hv, hadded, hkeeps⟩ :=
    ((adding_local (fun _ => none) a ⟨["a", "01", "y"]⟩).2 hopen).1 (.bool [false])
  exact ⟨hopen, ⟨doc, v, hadd, hv, hnone ▸ hadded, (hkeeps.beside _ hparts).trans hfirst⟩, hblocked,
    ((adding_local (fun _ => none) a ⟨["b", "z"]⟩).1 hblocked).2.2⟩

end Assembly

end AttributeTrees.Json
