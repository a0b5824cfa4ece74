import AttributeTrees.Config.Sources
import Mathlib.Data.List.Basic
/-!
# Options that select configuration

The tags and the group that an application asks for are read from its arguments by one function,
the values of all other options by another. What stands at the first mention of an option decides
what the second one says of it. Main statement: the first one records the same unless it misreads
the option, because another option is right behind it or because a value is assigned to it with an
equals sign.
-/
namespace AttributeTrees.Config

open Sources (groupOption tagOptions)

variable {name value : String} {arguments before rest : List String}

def firstValue? (name : String) (arguments : List String) : Option String :=
  (occurrences name arguments).head?.join

def Unmentioned (name : String) (arguments : List String) : Prop :=
  ∀ argument ∈ arguments, argument ≠ name ∧ assigned? name argument = none

theorem assigned?_eq_some_iff {argument : String} :
    assigned? name argument = some value ↔ argument = name ++ "=" ++ value := by
  simp only [assigned?, Option.ite_none_right_eq_some, Option.some.injEq,
    List.isPrefixOf_iff_prefix]
  constructor
  · rintro ⟨⟨text, htext⟩, hvalue⟩
    rw [← htext, List.drop_left] at hvalue
    rw [← String.toList_inj, ← htext, ← hvalue]
    simp
  · rintro rfl
    simp

theorem assigned?_assigned (name value : String) :
    assigned? name (name ++ "=" ++ value) = some value :=
  assigned?_eq_some_iff.2 rfl

theorem assigned_ne (name value : String) : name ++ "=" ++ value ≠ name := by
  intro h
  have hlength := congrArg String.length h
  simp only [String.length_append] at hlength
  have : "=".length = 1 := rfl
  omega

/-- Arguments by where an option is first mentioned. -/
inductive Mention (name : String) : List String → Prop
  | missing {arguments : List String} (h : Unmentioned name arguments) : Mention name arguments
  | last {before : List String} (hb : Unmentioned name before) : Mention name (before ++ [name])
  | followed {before rest : List String} {next : String} (hb : Unmentioned name before) :
    Mention name (before ++ name :: next :: rest)
  | assigned {before rest : List String} {value : String} (hb : Unmentioned name before) :
    Mention name (before ++ (name ++ "=" ++ value) :: rest)

theorem Mention.cons {argument : String} (ha : argument ≠ name ∧ assigned? name argument = none)
    (h : Mention name arguments) : Mention name (argument :: arguments) := by
  have hcons {before : List String} (hb : Unmentioned name before) :
      Unmentioned name (argument :: before) := List.forall_mem_cons.2 ⟨ha, hb⟩
  cases h with
  | missing h => exact .missing (hcons h)
  | last hb => exact .last (hcons hb)
  | followed hb => exact .followed (hcons hb)
  | assigned hb => exact .assigned (hcons hb)

theorem mention (name : String) (arguments : List String) : Mention name arguments := by
  induction arguments with
  | nil => exact .missing nofun
  | cons argument rest ih =>
    by_cases hname : argument = name
    · rw [hname]
      cases rest with
      | nil => exact @Mention.last name [] nofun
      | cons next rest => exact @Mention.followed name [] rest next nofun
    · cases ha : assigned? name argument with
      | none => exact ih.cons ⟨hname, ha⟩
      | some value =>
        rw [assigned?_eq_some_iff.1 ha]
        exact @Mention.assigned name [] rest value nofun

theorem firstValue?_append (hb : Unmentioned name before) (rest : List String) :
    firstValue? name (before ++ rest) = firstValue? name rest := by
  induction before with
  | nil => rfl
  | cons argument before ih =>
    obtain ⟨⟨hname, ha⟩, hb⟩ := List.forall_mem_cons.1 hb
    rw [← ih hb]
    simp [firstValue?, occurrences, hname, ha]

theorem firstValue?_cons (next : String) (rest : List String) :
    firstValue? name (name :: next :: rest) = if isOption next then none else some next := by
  cases h : isOption next <;> simp [firstValue?, occurrences, h]

theorem firstValue?_assigned (name value : String) (rest : List String) :
    firstValue? name ((name ++ "=" ++ value) :: rest) = some value := by
  simp [firstValue?, occurrences, assigned_ne, assigned?_assigned]

theorem firstValue?_of_unmentioned (h : Unmentioned name arguments) :
    firstValue? name arguments = none := by
  rw [← List.append_nil arguments, firstValue?_append h]
  rfl

theorem valueAfter?_append (hb : name ∉ before) (rest : List String) :
    valueAfter? name (before ++ rest) = valueAfter? name rest := by
  induction before with
  | nil => rfl
  | cons argument before ih =>
    obtain ⟨hname, hb⟩ := List.ne_and_not_mem_of_not_mem_cons hb
    rw [← ih hb]
    simp [valueAfter?, Ne.symm hname]

theorem valueAfter?_cons (rest : List String) : valueAfter? name (name :: rest) = rest.head? := by
  simp [valueAfter?]

theorem valueAfter?_assigned (name value : String) (rest : List String) :
    valueAfter? name ((name ++ "=" ++ value) :: rest) = valueAfter? name rest := by
  simp [valueAfter?, assigned_ne]

theorem Unmentioned.not_mem (h : Unmentioned name arguments) : name ∉ arguments :=
  fun hname => (h name hname).1 rfl

theorem valueAfter?_of_not_mem (h : name ∉ arguments) : valueAfter? name arguments = none := by
  rw [← List.append_nil arguments, valueAfter?_append h]
  rfl

def Follows (name : String) (arguments : List String) (value : String) : Prop :=
  ∃ before rest, name ∉ before ∧ arguments = before ++ name :: value :: rest

theorem valueAfter?_eq_some_iff :
    valueAfter? name arguments = some value ↔ Follows name arguments value := by
  constructor
  · intro h
    by_cases hname : name ∈ arguments
    · obtain ⟨before, behind, rfl, hb⟩ := List.eq_append_cons_of_mem hname
      rw [valueAfter?_append hb, valueAfter?_cons] at h
      obtain ⟨rest, rfl⟩ := List.head?_eq_some_iff.1 h
      exact ⟨before, rest, hb, rfl⟩
    · rw [valueAfter?_of_not_mem hname] at h
      cases h
  · rintro ⟨before, rest, hb, rfl⟩
    rw [valueAfter?_append hb, valueAfter?_cons]
    rfl

inductive Says (name : String) : List String → String → Prop
  | followed {before rest : List String} {value : String} (hb : Unmentioned name before)
    (hv : isOption value = false) : Says name (before ++ name :: value :: rest) value
  | assigned {before rest : List String} {value : String} (hb : Unmentioned name before) :
    Says name (before ++ (name ++ "=" ++ value) :: rest) value

theorem firstValue?_eq_some_iff :
    firstValue? name arguments = some value ↔ Says name arguments value := by
  constructor
  · intro h
    cases mention name arguments with
    | missing hm =>
      rw [firstValue?_of_unmentioned hm] at h
      cases h
    | last hb =>
      rw [firstValue?_append hb] at h
      simp [firstValue?, occurrences] at h
    | @followed before rest next hb =>
      rw [firstValue?_append hb, firstValue?_cons] at h
      split at h
      · cases h
      · next ho =>
        cases h
        exact .followed hb (Bool.eq_false_iff.2 ho)
    | assigned hb =>
      rw [firstValue?_append hb, firstValue?_assigned] at h
      cases h
      exact .assigned hb
  · rintro (⟨hb, hv⟩ | hb)
    · rw [firstValue?_append hb, firstValue?_cons, if_neg (Bool.eq_false_iff.1 hv)]
    · rw [firstValue?_append hb, firstValue?_assigned]

/-- The first mention of the option is right before another option, or it assigns a value that does
not follow the option later. -/
inductive Misread (name : String) : List String → Prop
  | option {before rest : List String} {next : String} (hb : Unmentioned name before)
    (ho : isOption next = true) : Misread name (before ++ name :: next :: rest)
  | assigned {before rest : List String} {value : String} (hb : Unmentioned name before)
    (hv : ¬ Follows name rest value) : Misread name (before ++ (name ++ "=" ++ value) :: rest)

def ReadAlike (name : String) (arguments : List String) : Prop :=
  valueAfter? name arguments = firstValue? name arguments

theorem readAlike_of_unmentioned (h : Unmentioned name arguments) : ReadAlike name arguments := by
  rw [ReadAlike, valueAfter?_of_not_mem h.not_mem, firstValue?_of_unmentioned h]

theorem readAlike_append (hb : Unmentioned name before) :
    ReadAlike name (before ++ rest) ↔ ReadAlike name rest := by
  rw [ReadAlike, valueAfter?_append hb.not_mem, firstValue?_append hb, ReadAlike]

theorem readAlike_last (name : String) : ReadAlike name [name] := by
  simp [ReadAlike, valueAfter?, firstValue?, occurrences]

theorem readAlike_followed {next : String} :
    ReadAlike name (name :: next :: rest) ↔ isOption next = false := by
  rw [ReadAlike, valueAfter?_cons, firstValue?_cons]
  cases isOption next <;> simp

theorem readAlike_assigned :
    ReadAlike name ((name ++ "=" ++ value) :: rest) ↔ Follows name rest value := by
  rw [ReadAlike, valueAfter?_assigned, firstValue?_assigned, valueAfter?_eq_some_iff]

theorem Misread.not_readAlike (h : Misread name arguments) : ¬ ReadAlike name arguments := by
  cases h with
  | option hb ho =>
    rw [readAlike_append hb, readAlike_followed, ho]
    exact nofun
  | assigned hb hv => rwa [readAlike_append hb, readAlike_assigned]

theorem readAlike_of_not_misread (h : ¬ Misread name arguments) : ReadAlike name arguments := by
  cases mention name arguments with
  | missing hm => exact readAlike_of_unmentioned hm
  | last hb => exact (readAlike_append hb).2 (readAlike_last name)
  | followed hb =>
    rw [readAlike_append hb, readAlike_followed]
    exact Bool.eq_false_iff.2 fun ho => h (.option hb ho)
  | assigned hb =>
    rw [readAlike_append hb, readAlike_assigned]
    exact Classical.byContradiction fun hv => h (.assigned hb hv)

theorem tags_withArguments (s : Sources) (arguments : List String) :
    (s.withArguments arguments).tags =
      s.tags ++ tagOptions.filterMap (valueAfter? · arguments) := rfl

theorem group_withArguments (s : Sources) (arguments : List String) :
    (s.withArguments arguments).group = (valueAfter? groupOption arguments).or s.group := rfl

/-- With nothing misread, tags and group are what the first occurrences of their options say. An
option is misread exactly if what is recorded for it is not what its first occurrence says. -/
theorem options_recorded (s : Sources) (arguments : List String) :
    let t := s.withArguments arguments
    let said := (firstValue? · arguments)
    let recorded := (valueAfter? · arguments)
    (∀ name value, said name = some value ↔ Says name arguments value) ∧
      (∀ name value, recorded name = some value ↔ Follows name arguments value) ∧
      (∀ name, Misread name arguments ↔ recorded name ≠ said name) ∧
      t.tags = s.tags ++ tagOptions.filterMap recorded ∧
      t.group = (recorded groupOption).or s.group ∧
      ((∀ name ∈ groupOption :: tagOptions, ¬ Misread name arguments) →
        t.tags = s.tags ++ tagOptions.filterMap said ∧ t.group = (said groupOption).or s.group) := by
  intro t said recorded
  have hsaid (name : String) (h : ¬ Misread name arguments) : recorded name = said name :=
    readAlike_of_not_misread h
  refine ⟨fun name value => firstValue?_eq_some_iff, fun name value => valueAfter?_eq_some_iff,
    fun name => ⟨Misread.not_readAlike, fun hne => ?_⟩, tags_withArguments s arguments,
    group_withArguments s arguments, fun h => ?_⟩
  · exact Classical.byContradiction fun h => hne (hsaid name h)
  · obtain ⟨hgroup, htags⟩ := List.forall_mem_cons.1 h
    have hmap : tagOptions.filterMap recorded = tagOptions.filterMap said :=
      List.filterMap_congr fun name hname => hsaid name (htags name hname)
    exact ⟨congrArg (s.tags ++ ·) hmap, congrArg (Option.or · s.group) (hsaid groupOption hgroup)⟩

theorem options_recorded_repeated :
    let arguments := ["--config-group=shared", "--instance", "blue", "--instance=green",
      "--config-group", "shared", "--config-tag"]
    let t := (Sources.ofApplication "app").withArguments arguments
    (∀ name ∈ groupOption :: tagOptions, ¬ Misread name arguments) ∧
      Says groupOption arguments "shared" ∧ t.tags = ["blue"] ∧ t.group = some "shared" := by
  intro arguments t
  obtain ⟨hsaid, -, hmisread, -, -, hkept⟩ :=
    options_recorded (Sources.ofApplication "app") arguments
  have hsame : ∀ name ∈ groupOption :: tagOptions,
      valueAfter? name arguments = firstValue? name arguments := by decide +kernel
  have hread (name : String) (hname : name ∈ groupOption :: tagOptions) :
      ¬ Misread name arguments := fun hm => (hmisread name).1 hm (hsame name hname)
  obtain ⟨htags, hgroup⟩ := hkept hread
  refine ⟨hread, (hsaid _ _).1 ?_, htags.trans ?_, hgroup.trans ?_⟩
  all_goals decide +kernel

/-- A value behind an equals sign is not seen, and an option is taken for a value. -/
theorem not_options_recorded : ¬ ∀ (s : Sources) (arguments : List String),
    let t := s.withArguments arguments
    let said := (firstValue? · arguments)
    t.tags = s.tags ++ tagOptions.filterMap said ∧ t.group = (said groupOption).or s.group := by
  intro h
  obtain ⟨htags, -⟩ := h (Sources.ofApplication "app")
    ["--instance=blue", "--config-group", "--verbose"]
  revert htags
  decide +kernel

end AttributeTrees.Config
