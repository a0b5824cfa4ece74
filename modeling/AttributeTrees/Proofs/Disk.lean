import AttributeTrees.Disk
import AttributeTrees.Proofs.Text.Pieces
import Mathlib.Data.List.Basic
/-!
# Paths without links

What a path of a rooted disk stands for is reached by names, none of them empty and none with a
slash in it. So the path that the names make is the path of nothing else. An absolute
path of plain names that meets no link is followed to these names.
-/
namespace AttributeTrees

namespace Disk

def ProperName (name : String) : Prop := name ≠ "" ∧ '/' ∉ name.toList

def Rooted (d : Disk) : Prop := ∀ name ∈ d.working, ProperName name

theorem not_mem_of_mem_pieces {path piece : String} (h : piece ∈ pieces path) :
    '/' ∉ piece.toList := by
  obtain ⟨text, ht, rfl⟩ := List.mem_map.1 h
  simpa using Text.not_mem_of_mem_split '/' ht

/-- A walk adds proper names only, whatever links it goes through. -/
theorem properName_of_walk {d : Disk} {last : Bool} {links : Nat} {here todo names : List String}
    (hhere : ∀ name ∈ here, ProperName name) (htodo : ∀ piece ∈ todo, '/' ∉ piece.toList)
    (h : d.walk last links here todo = .ok names) : ∀ name ∈ names, ProperName name := by
  fun_induction walk d last links here todo with
  | case1 => simpa [← Except.ok.inj h] using hhere
  | case2 links here piece rest _ _ _ ih =>
    exact ih hhere (fun p hp => htodo p (List.mem_cons_of_mem piece hp)) h
  | case3 links here piece rest _ _ _ _ ih =>
    apply ih
    · intro name hn
      exact hhere name (List.dropLast_subset here hn)
    · exact fun p hp => htodo p (List.mem_cons_of_mem piece hp)
    · exact h
  | case4 | case5 | case7 | case10 => cases h
  | case6 links here piece rest _ _ hstay =>
    rw [← Except.ok.inj h]
    simp only [List.forall_mem_append, List.forall_mem_singleton]
    refine ⟨hhere, ?_, htodo piece List.mem_cons_self⟩
    intro he
    simp [he] at hstay
  | case8 here piece rest _ _ _ _ _ target _ _ links ih =>
    apply ih
    · intro name hn
      split at hn
      · cases hn
      · exact hhere name hn
    · simp only [List.forall_mem_append]
      exact ⟨fun p hp => not_mem_of_mem_pieces hp,
        fun p hp => htodo p (List.mem_cons_of_mem piece hp)⟩
    · simpa using h
  | case9 links here piece rest _ _ hstay _ _ _ _ _ ih =>
    apply ih
    · simp only [List.forall_mem_append, List.forall_mem_singleton]
      refine ⟨hhere, ?_, htodo piece List.mem_cons_self⟩
      intro he
      simp [he] at hstay
    · exact fun p hp => htodo p (List.mem_cons_of_mem piece hp)
    · exact h

theorem properName_of_resolve {d : Disk} (hd : d.Rooted) {path : String} {names : List String}
    (h : d.resolve path = .ok names) : ∀ name ∈ names, ProperName name := by
  unfold resolve follow at h
  split at h
  · cases h
  split at h
  · cases h
  split at h
  · cases h
  refine properName_of_walk ?_ (fun p hp => not_mem_of_mem_pieces hp) h
  unfold base
  split
  · simp
  · exact hd

theorem absolute_inj {names others : List String} (hn : ∀ name ∈ names, ProperName name)
    (ho : ∀ name ∈ others, ProperName name) (h : absolute names = absolute others) :
    names = others := by
  have hsplit (ns : List String) (hns : ∀ name ∈ ns, ProperName name) (hne : ns ≠ []) :
      List.splitOn '/' (("/".intercalate ns).toList) = ns.map String.toList := by
    rw [String.toList_intercalate]
    apply List.splitOn_intercalate
    · intro text ht
      obtain ⟨name, hname, rfl⟩ := List.mem_map.1 ht
      exact (hns name hname).2
    · simpa using hne
  have hempty (ns : List String) (hns : ∀ name ∈ ns, ProperName name)
      (he : "/".intercalate ns = "") : ns = [] := by
    by_contra hne
    have hmem : [] ∈ ns.map String.toList := by
      rw [← hsplit ns hns hne, he]
      simp
    obtain ⟨name, hname, hnil⟩ := List.mem_map.1 hmem
    exact (hns name hname).1 (String.toList_eq_nil_iff.1 hnil)
  have he : "/".intercalate names = "/".intercalate others := (String.append_right_inj "/").1 h
  by_cases hnames : names = []
  · rw [hnames, hempty others ho (by rw [← he, hnames]; rfl)]
  · by_cases hothers : others = []
    · exact absurd (hempty names hn (by rw [he, hothers]; rfl)) hnames
    · apply List.map_injective_iff.2 fun _ _ => String.toList_injective
      rw [← hsplit names hn hnames, ← hsplit others ho hothers, he]

theorem entryAt_append (names more : List String) (e : Entry) :
    entryAt (names ++ more) e = (entryAt names e).bind (entryAt more) := by
  induction names generalizing e with
  | nil => rfl
  | cons name names ih =>
    cases e with
    | directory entries =>
      simp only [List.cons_append, entryAt]
      cases entries.lookup name with
      | none => rfl
      | some inner => exact ih inner
    | _ => rfl

def isPlain (name : String) : Bool :=
  !(["", ".", ".."].contains name) && name.utf8ByteSize ≤ maxName

theorem isPlain_iff {name : String} : isPlain name = true ↔
    (name ≠ "" ∧ name ≠ "." ∧ name ≠ "..") ∧ ¬ maxName < name.utf8ByteSize := by
  simp [isPlain]

/-- Whether a path consists of names behind slashes and can be followed. -/
def isNamePath (path : String) (names : List String) : Bool :=
  path == absolute names && pieces path == "" :: names && path.utf8ByteSize ≤ maxPath &&
    names.all isPlain && !path.toList.contains (Char.ofNat 0)

section
variable {d : Disk} {last : Bool} {links : Nat} {here names : List String} {path : String}
  {e : Entry}

theorem exists_directory_of_get? {name : String}
    (h : d.get? (here ++ name :: names) = some e) : ∃ entries inner,
      d.get? here = some (.directory entries) ∧ entries.lookup name = some inner ∧
        entryAt names inner = some e := by
  rw [get?, entryAt_append] at h
  obtain ⟨found, hfound, h⟩ := Option.bind_eq_some_iff.1 h
  cases found with
  | directory entries =>
    rw [entryAt] at h
    cases hl : entries.lookup name with
    | none =>
      rw [hl] at h
      cases h
    | some inner =>
      rw [hl] at h
      exact ⟨entries, inner, hfound, hl, h⟩
  | _ => cases h

theorem walk_name {entries : List (String × Entry)} {name : String} {inner : Entry}
    (hd : d.get? here = some (.directory entries)) (hp : isPlain name = true)
    (he : entries.lookup name = some inner) (hl : ∀ target, inner ≠ .link target)
    (rest : List String) :
    d.walk last links here (name :: rest) = d.walk last links (here ++ [name]) rest := by
  obtain ⟨⟨hempty, hdot, hdots⟩, hshort⟩ := isPlain_iff.1 hp
  rw [walk, hd]
  cases inner with
  | link target => exact absurd rfl (hl target)
  | _ => simp [hempty, hdot, hdots, hshort, he]

theorem walk_missing {entries : List (String × Entry)} {name : String}
    (hd : d.get? here = some (.directory entries)) (hp : isPlain name = true)
    (he : entries.lookup name = none) (rest : List String) :
    d.walk last links here (name :: rest) = .error .missing := by
  obtain ⟨⟨hempty, hdot, hdots⟩, hshort⟩ := isPlain_iff.1 hp
  rw [walk, hd]
  simp [hempty, hdot, hdots, hshort, he]

theorem walk_append (hn : names.all isPlain = true) (he : d.get? (here ++ names) = some e)
    (hl : ∀ target, e ≠ .link target) (rest : List String) :
    d.walk last links here (names ++ rest) = d.walk last links (here ++ names) rest := by
  induction names generalizing here with
  | nil => rw [List.append_nil, List.nil_append]
  | cons name names ih =>
    obtain ⟨hname, hnames⟩ := (Bool.and_eq_true _ _).mp hn
    obtain ⟨entries, inner, hd, hlookup, hinner⟩ := exists_directory_of_get? he
    have hnolink : ∀ target, inner ≠ .link target := by
      rintro target rfl
      cases names with
      | nil => exact hl target (Option.some.inj hinner).symm
      | cons _ _ => cases hinner
    rw [List.cons_append, walk_name hd hname hlookup hnolink,
      ih hnames (by rwa [List.append_assoc]), List.append_assoc]
    rfl

theorem follow_eq_walk (h : isNamePath path names) :
    d.follow last path = d.walk last maxLinks [] names := by
  simp only [isNamePath, Bool.and_eq_true, beq_iff_eq, decide_eq_true_eq, Bool.not_eq_true'] at h
  obtain ⟨⟨⟨⟨hpath, hpieces⟩, hlength⟩, -⟩, hnul⟩ := h
  have habs : isAbsolute path = true := by simp [isAbsolute, hpath, absolute]
  have hne : path.isEmpty = false := by simp [hpath, absolute]
  rw [follow, hnul, hne, if_neg (Nat.not_lt.2 hlength), hpieces, base, habs]
  simp [walk, get?, entryAt]

theorem all_isPlain (h : isNamePath path names) : names.all isPlain = true := by
  simp_all [isNamePath]

theorem follow_of_get? (h : isNamePath path names) (he : d.get? names = some e)
    (hl : ∀ target, e ≠ .link target) : d.follow last path = .ok names := by
  have hw : d.walk last maxLinks [] (names ++ []) = d.walk last maxLinks ([] ++ names) [] :=
    walk_append (all_isPlain h) he hl []
  rw [List.append_nil, List.nil_append] at hw
  rw [follow_eq_walk h, hw, walk]

theorem follow_of_missing {name : String} (h : isNamePath path [name])
    (hm : d.top.lookup name = none) : d.follow last path = .error .missing := by
  have hp : isPlain name = true := List.all_eq_true.1 (all_isPlain h) name List.mem_cons_self
  rw [follow_eq_walk h, walk_missing rfl hp hm]

theorem linkStat?_of_get? (h : isNamePath path names) (he : d.get? names = some e)
    (hl : ∀ target, e ≠ .link target) : d.linkStat? path = some e := by
  rw [linkStat?, follow_of_get? h he hl]
  exact he

theorem read?_of_get? {content : Text.Utf8.Bytes} (h : isNamePath path names)
    (he : d.get? names = some (.file content)) : d.read? path = some content := by
  have hs : d.stat? path = some (.file content) := by
    rw [stat?, resolve, follow_of_get? h he nofun]
    exact he
  rw [read?, hs]

theorem absolute_of_isNamePath (h : isNamePath path names) : absolute names = path := by
  simp_all [isNamePath]

theorem realPath_of_get? (h : isNamePath path names) (he : d.get? names = some e)
    (hl : ∀ target, e ≠ .link target) : d.realPath path = path := by
  have hf : d.follow true path = .ok names := follow_of_get? h he hl
  unfold follow at hf
  unfold realPath
  split at hf
  · cases hf
  split at hf
  · cases hf
  split at hf
  · cases hf
  · next hne _ =>
    rw [if_neg hne, hf]
    exact absolute_of_isNamePath h

end

end Disk

end AttributeTrees
