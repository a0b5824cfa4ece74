import AttributeTrees.Config
import AttributeTrees.Proofs.Disk
/-!
# Lookups of a configuration

Between two moments a program looks a key up, the disk changes, or what was read is forgotten. Each
lookup comes to candidate files in their order, up to the first that has the key, and sees what they
hold. Main statement: a key is found in the first candidate whose document has it, where a document
is what was first seen of it since all was forgotten.
-/
namespace AttributeTrees.Config

variable {s : Sources} {c : Config} {d : Disk} {p : Path} {tags : List String}

/-- A text with the path, free of links, of the file that holds it. -/
abbrev Sighting := String × String

def real? (d : Disk) (file : String) : Option String :=
  match d.resolve file, d.read? file with
  | .ok names, some _ => some (Disk.absolute names)
  | _, _ => none

def text? (d : Disk) (file : String) : Option String :=
  ((d.read? file).bind Text.Utf8.decode?).map String.ofList

def sighting? (d : Disk) (file : String) : Option Sighting :=
  (real? d file).bind fun path => (text? d file).map (path, ·)

/-- What a file stands for: what was first seen of it, or else what it holds. -/
def standing? (d : Disk) (seen : List Sighting) (file : String) : Option Sighting :=
  (real? d file).bind fun path => ((seen.lookup path).or (text? d file)).map (path, ·)

def within? (d : Disk) (seen : List Sighting) (p : Path) (tags : List String) (file : String) :
    Option Found :=
  (standing? d seen file).bind fun (path, text) => within d (parse path text) p tags

theorem text?_of_resolve {file other : String} (h : d.resolve file = d.resolve other) :
    text? d file = text? d other := by
  simp only [text?, Disk.read?, Disk.stat?, h]

theorem exists_names {path file : String} (h : real? d file = some path) :
    ∃ names, d.resolve file = .ok names ∧ Disk.absolute names = path := by
  unfold real? at h
  split at h
  · next names _ hr _ => exact ⟨names, hr, Option.some.inj h⟩
  · cases h

theorem text?_of_real? (hd : d.Rooted) {path file other : String} (h : real? d file = some path)
    (k : real? d other = some path) : text? d file = text? d other := by
  obtain ⟨names, hn, rfl⟩ := exists_names h
  obtain ⟨others, ho, he⟩ := exists_names k
  have hsame := Disk.absolute_inj (Disk.properName_of_resolve hd ho)
    (Disk.properName_of_resolve hd hn) he
  apply text?_of_resolve
  rw [hn, ho, hsame]

theorem sighting?_eq (file : String) : sighting? d file = standing? d [] file := rfl

theorem standing?_append (hd : d.Rooted) (seen : List Sighting) (file other : String) :
    standing? d (seen ++ (sighting? d other).toList) file = standing? d seen file := by
  unfold standing?
  cases hf : real? d file with
  | none => rfl
  | some path =>
    simp only [Option.bind_some, List.lookup_append]
    cases hs : sighting? d other with
    | none => simp
    | some sight =>
      obtain ⟨path', ho, hsight⟩ := Option.bind_eq_some_iff.1 hs
      obtain ⟨text, ht, rfl⟩ := Option.map_eq_some_iff.1 hsight
      by_cases hp : path = path'
      · subst hp
        simp [text?_of_real? hd hf ho, ht]
      · simp [List.lookup_cons, beq_false_of_ne hp]

def Agrees (c : Config) (seen : List Sighting) : Prop :=
  ∀ path, c.documents.lookup path = (seen.lookup path).map (parse path)

theorem Agrees.snoc {seen : List Sighting} {path text : String} (h : c.Agrees seen)
    (hp : (seen.lookup path).isSome) : c.Agrees (seen ++ [(path, text)]) := by
  intro q
  rw [h q, List.lookup_append]
  by_cases hq : q = path
  · subst hq
    obtain ⟨first, hf⟩ := Option.isSome_iff_exists.1 hp
    simp [hf]
  · simp [List.lookup_cons, beq_false_of_ne hq]

theorem Agrees.insert {seen : List Sighting} {path text : String} (h : c.Agrees seen)
    (hp : seen.lookup path = none) :
    Agrees { c with documents := (path, parse path text) :: c.documents }
      (seen ++ [(path, text)]) := by
  intro q
  rw [List.lookup_append]
  by_cases hq : q = path
  · subst hq
    simp [hp]
  · simp [List.lookup_cons, beq_false_of_ne hq, h q]

theorem run_document (d : Disk) (file : String) (c : Config) : (document d file).run c =
    match real? d file with
    | none => (none, c)
    | some path =>
      match c.documents.lookup path, text? d file with
      | some content, _ => (some content, c)
      | none, some text =>
        (some (parse path text), { c with documents := (path, parse path text) :: c.documents })
      | none, none => (none, c) := by
  unfold document real? text?
  cases d.resolve file with
  | error _ => rfl
  | ok names =>
    cases d.read? file with
    | none => rfl
    | some bytes =>
      simp only [StateT.run_bind, StateT.run_get, pure_bind, Option.bind_some]
      cases c.documents.lookup (Disk.absolute names) with
      | some content => rfl
      | none => cases Text.Utf8.decode? bytes <;> rfl

theorem document_spec {seen : List Sighting} (h : c.Agrees seen) (file : String) :
    let r := (document d file).run c
    r.1 = (standing? d seen file).map (fun sight => parse sight.1 sight.2) ∧
      r.2.sources = c.sources ∧ r.2.Agrees (seen ++ (sighting? d file).toList) := by
  rw [run_document]
  unfold standing? sighting?
  cases real? d file with
  | none => simpa using h
  | some path =>
    have hc := h path
    cases hs : seen.lookup path with
    | some first =>
      rw [hs] at hc
      simp only [hc, hs, Option.map_some, Option.bind_some, Option.some_or, true_and]
      cases text? d file with
      | none => simpa using h
      | some text => exact h.snoc (by rw [hs]; rfl)
    | none =>
      rw [hs] at hc
      simp only [hc, hs, Option.map_none, Option.bind_some, Option.none_or]
      cases text? d file with
      | none => simpa using h
      | some text => simpa using h.insert hs

def sightings (d : Disk) (seen : List Sighting) (p : Path) (tags files : List String) :
    List Sighting :=
  (files.take (files.findIdx (fun file => (within? d seen p tags file).isSome) + 1)).filterMap
    (sighting? d)

theorem sightings_cons_of_some {seen : List Sighting} {file : String} {files : List String}
    {found : Found} (h : within? d seen p tags file = some found) :
    sightings d seen p tags (file :: files) = (sighting? d file).toList := by
  cases hs : sighting? d file <;> simp [sightings, List.findIdx_cons, h, hs]

theorem sightings_cons_of_none {seen : List Sighting} {file : String} {files : List String}
    (h : within? d seen p tags file = none) :
    sightings d seen p tags (file :: files) =
      (sighting? d file).toList ++ sightings d seen p tags files := by
  cases hs : sighting? d file <;> simp [sightings, List.findIdx_cons, h, hs]

theorem run_inFiles_cons (file : String) (files : List String) (c : Config) :
    (inFiles d p tags (file :: files)).run c =
      let r := (document d file).run c
      match r.1.bind fun content => within d content p tags with
      | some found => (some found, r.2)
      | none => (inFiles d p tags files).run r.2 := by
  rw [inFiles, StateT.run_bind]
  change StateT.run (match ((document d file).run c).1.bind (within d · p tags) with
    | some (found : Found) => pure (some found)
    | none => inFiles d p tags files) ((document d file).run c).2 = _
  dsimp only
  cases ((document d file).run c).1.bind fun content => within d content p tags <;> rfl

theorem inFiles_spec (hd : d.Rooted) {seen : List Sighting} (h : c.Agrees seen) (p : Path)
    (tags files : List String) :
    let r := (inFiles d p tags files).run c
    r.1 = files.findSome? (within? d seen p tags) ∧ r.2.sources = c.sources ∧
      r.2.Agrees (seen ++ sightings d seen p tags files) := by
  induction files generalizing c seen with
  | nil =>
    refine ⟨rfl, rfl, ?_⟩
    simp only [sightings, List.take_nil, List.filterMap_nil, List.append_nil]
    exact h
  | cons file files ih =>
    obtain ⟨hdoc, hsources, hagrees⟩ := document_spec h file
    have hfound : ((document d file).run c).1.bind (fun content => within d content p tags) =
        within? d seen p tags file := by
      rw [hdoc, Option.bind_map]
      rfl
    -- What was seen of this file does not change what the others stand for.
    have hsame : within? d (seen ++ (sighting? d file).toList) p tags =
        within? d seen p tags := by
      funext other
      simp only [within?, standing?_append hd]
    have hrest : sightings d (seen ++ (sighting? d file).toList) p tags files =
        sightings d seen p tags files := by
      simp only [sightings, hsame]
    obtain ⟨hvalue, hrsources, hragrees⟩ := ih hagrees
    rw [hsame] at hvalue
    rw [hrest, List.append_assoc] at hragrees
    rw [run_inFiles_cons]
    dsimp only
    rw [hfound]
    cases hw : within? d seen p tags file with
    | some found =>
      rw [sightings_cons_of_some hw]
      exact ⟨by simp [hw], hsources, hagrees⟩
    | none =>
      rw [sightings_cons_of_none hw]
      exact ⟨by simpa [hw] using hvalue, hrsources.trans hsources, hragrees⟩

def sightingsOf (s : Sources) (d : Disk) (seen : List Sighting) (key : String)
    (tag : Option String) : List Sighting :=
  sightings d seen (Path.ofDotted key) (s.allTags tag) (s.files (s.allTags tag))

theorem run_find (key : String) (tag : Option String) (c : Config) :
    (find d key tag).run c =
      let p := Path.ofDotted key
      let tags := c.sources.allTags tag
      let r := (inFiles d p tags (c.sources.files tags)).run c
      (r.1.or (c.sources.secrets.bind fun dir => within d (.files dir) p tags), r.2) := by
  rw [find, StateT.run_bind, StateT.run_get, pure_bind, StateT.run_bind]
  change StateT.run (match ((inFiles d _ _ _).run c).1 with
    | some (found : Found) => pure (some found)
    | none => pure _) _ = _
  dsimp only
  cases ((inFiles d (Path.ofDotted key) (c.sources.allTags tag)
    (c.sources.files (c.sources.allTags tag))).run c).1 <;> rfl

theorem find_spec (hd : d.Rooted) {seen : List Sighting} (h : c.Agrees seen) (key : String)
    (tag : Option String) :
    let r := (find d key tag).run c
    let p := Path.ofDotted key
    let tags := c.sources.allTags tag
    r.1 = ((c.sources.files tags).findSome? (within? d seen p tags)).or
        (c.sources.secrets.bind fun dir => within d (.files dir) p tags) ∧
      r.2.sources = c.sources ∧ r.2.Agrees (seen ++ sightingsOf c.sources d seen key tag) := by
  obtain ⟨hfound, hsources, hagrees⟩ := inFiles_spec hd h (Path.ofDotted key)
    (c.sources.allTags tag) (c.sources.files (c.sources.allTags tag))
  rw [run_find]
  dsimp only
  rw [hfound]
  exact ⟨rfl, hsources, hagrees⟩

inductive Query where
  | find
  | fetch (t : Element)
  | fetchAll (t : Element)
  | isSet

def Query.after (d : Disk) (key : String) (tag : Option String) (c : Config) : Query → Config
  | find => ((Config.find d key tag).run c).2
  | fetch t => ((Config.fetch d key tag t).run c).2
  | fetchAll t => ((Config.fetchAll d key tag t).run c).2
  | isSet => ((Config.isSet d key tag).run c).2

def Query.searches (s : Sources) (key : String) : Query → Bool
  | find => true
  | fetch t => (firstOf t (s.argumentValues key ++ [s.setting? key])).isNone
  | fetchAll t => (texts s key t).toOption.isSome
  | isSet => (flagOf s key).isNone

theorem run_fetch (key : String) (tag : Option String) (t : Element) (c : Config) :
    (fetch d key tag t).run c =
      match firstOf t (c.sources.argumentValues key ++ [c.sources.setting? key]) with
      | some v => (some v, c)
      | none =>
        let r := (find d key tag).run c
        (r.1.bind fun found => found.first d t, r.2) := by
  rw [fetch, StateT.run_bind, StateT.run_get, pure_bind]
  dsimp only
  cases firstOf t (c.sources.argumentValues key ++ [c.sources.setting? key]) <;> rfl

theorem run_fetchAll (key : String) (tag : Option String) (t : Element) (c : Config) :
    (fetchAll d key tag t).run c =
      match texts c.sources key t with
      | .error f => (.error f, c)
      | .ok before =>
        let r := (find d key tag).run c
        (match r.1 with
          | none => .ok before
          | some found => (valuesOf d key t found).map (before ++ ·), r.2) := by
  rw [fetchAll, StateT.run_bind, StateT.run_get, pure_bind]
  dsimp only
  cases texts c.sources key t with
  | error f => rfl
  | ok before =>
    rw [StateT.run_bind]
    change StateT.run (match ((find d key tag).run c).1 with
      | none => _
      | some (found : Found) => _) _ = _
    dsimp only
    cases ((find d key tag).run c).1 <;> rfl

theorem run_isSet (key : String) (tag : Option String) (c : Config) :
    (isSet d key tag).run c =
      match flagOf c.sources key with
      | some b => (b, c)
      | none =>
        let r := (find d key tag).run c
        ((r.1.bind fun found => found.first d .bool).getD false, r.2) := by
  rw [isSet, StateT.run_bind, StateT.run_get, pure_bind]
  dsimp only
  cases flagOf c.sources key <;> rfl

theorem Query.after_eq (d : Disk) (key : String) (tag : Option String) (c : Config) (q : Query) :
    q.after d key tag c =
      if q.searches c.sources key then ((Config.find d key tag).run c).2 else c := by
  cases q with
  | find => rfl
  | fetch t =>
    rw [after, run_fetch, searches]
    cases firstOf t (c.sources.argumentValues key ++ [c.sources.setting? key]) <;> rfl
  | fetchAll t =>
    rw [after, run_fetchAll, searches]
    cases texts c.sources key t <;> rfl
  | isSet =>
    rw [after, run_isSet, searches]
    cases flagOf c.sources key <;> rfl

/-- What can become of a configuration, with what was seen since all was last forgotten. -/
inductive History (s : Sources) : Disk → Config → List Sighting → Prop
  | start {d : Disk} (hd : d.Rooted) : History s d (ofSources s) []
  | ask {d : Disk} {c : Config} {seen : List Sighting} (h : History s d c seen) (q : Query)
      (key : String) (tag : Option String) : History s d (q.after d key tag c)
        (if q.searches s key then seen ++ sightingsOf s d seen key tag else seen)
  | edit {d : Disk} {c : Config} {seen : List Sighting} (h : History s d c seen)
      (top : List (String × Disk.Entry)) : History s { d with top := top } c seen
  | reload {d : Disk} {c : Config} {seen : List Sighting} (h : History s d c seen) :
      History s d c.reload []

theorem History.spec {seen : List Sighting} (h : History s d c seen) :
    d.Rooted ∧ c.sources = s ∧ c.Agrees seen := by
  induction h with
  | start hd => exact ⟨hd, rfl, fun _ => rfl⟩
  | ask h q key tag ih =>
    obtain ⟨hd, rfl, hagrees⟩ := ih
    rw [Query.after_eq]
    split
    · obtain ⟨-, hs, ha⟩ := find_spec hd hagrees key tag
      exact ⟨hd, hs, ha⟩
    · exact ⟨hd, rfl, hagrees⟩
  | edit h top ih => exact ih
  | reload h ih => exact ⟨ih.1, ih.2.1, fun _ => rfl⟩

def parse? (path text : String) : Option Content :=
  if Disk.extension? path == some "json" then Content.ofJson? text else Content.ofYaml? text

theorem parse_eq (path text : String) : parse path text = (parse? path text).getD .empty := by
  unfold parse parse?
  split <;> rfl

theorem firstNamed_empty (n : Location) (names : List String) :
    (Content.empty.access d).firstNamed n names = none := by
  induction names with
  | nil => rfl
  | cons name names ih => exact ih

theorem within_empty (hp : p ≠ Path.here) : within d .empty p tags = none := by
  obtain ⟨segments⟩ := p
  cases segments with
  | nil => exact absurd rfl hp
  | cons segment rest =>
    have hstep : (Content.empty.access d).step (Content.empty.root d) segment tags = pure none :=
      firstNamed_empty _ (Access.candidates segment tags)
    have hfollow : (Content.empty.access d).follow tags (Content.empty.root d) (segment :: rest) =
        none := by
      rw [Access.follow, hstep, pure_bind]
      rfl
    exact congrArg (Option.map fun node => (⟨.empty, node⟩ : Found)) hfollow

theorem ofDotted_ne_here {key : String} (hk : key ≠ "") : Path.ofDotted key ≠ Path.here := by
  intro h
  apply hk
  rw [← Path.dotted_ofDotted key, h, Path.dotted_here]

theorem within?_eq (hp : p ≠ Path.here) (seen : List Sighting) (file : String) :
    within? d seen p tags file = (standing? d seen file).bind fun sight =>
      (parse? sight.1 sight.2).bind fun content => within d content p tags := by
  unfold within?
  congr 1
  funext sight
  change within d (parse sight.1 sight.2) p tags = _
  rw [parse_eq]
  cases parse? sight.1 sight.2 with
  | some content => rfl
  | none => exact within_empty hp

/-- A key is found in the first candidate that has it in a well-formed document, which is what was
first seen there since all was forgotten, and otherwise in the secrets. When all is forgotten again,
a configuration is as it was at the start. -/
theorem find_first_candidate {seen : List Sighting} (h : History s d c seen) {key : String}
    (hk : key ≠ "") (tag : Option String) :
    let tags := tag.toList ++ s.tags
    let p := Path.ofDotted key
    let files := s.groups.flatMap fun group => s.directories.flatMap fun directory =>
      (tags.map (group ++ "@" ++ ·) ++ [group]).flatMap fun name =>
        ["yaml", "json"].map fun ending => Disk.join directory (name ++ "." ++ ending)
    ((find d key tag).run c).1 =
        (files.findSome? fun file => (standing? d seen file).bind fun sight =>
          (parse? sight.1 sight.2).bind fun content => within d content p tags).or
        (s.secrets.bind fun directory => within d (.files directory) p tags) ∧
      c.reload = ofSources s := by
  intro tags p files
  obtain ⟨hd, hs, hagrees⟩ := h.spec
  have hfind := (find_spec hd hagrees key tag).1
  rw [hs, funext (within?_eq (ofDotted_ne_here hk) seen)] at hfind
  exact ⟨hfind, by rw [reload, hs]; rfl⟩

theorem standing?_of_missing {path : String} (name : String) (h : Disk.isNamePath path [name])
    (hl : d.top.lookup name = none) (seen : List Sighting) : standing? d seen path = none := by
  have hr : d.resolve path = .error .missing := Disk.follow_of_missing h hl
  simp [standing?, real?, hr]

theorem standing?_of_file {path : String} (names : List String) {bytes : Text.Utf8.Bytes}
    {text : List Char} (h : Disk.isNamePath path names)
    (he : d.get? names = some (.file bytes))
    (ht : Text.Utf8.decode? bytes = some text) (seen : List Sighting) :
    standing? d seen path = some (path, (seen.lookup path).getD (String.ofList text)) := by
  have hr : d.resolve path = .ok names := Disk.follow_of_get? h he nofun
  have hread : d.read? path = some bytes := Disk.read?_of_get? h he
  have hpath : Disk.absolute names = path := Disk.absolute_of_isNamePath h
  cases hs : seen.lookup path <;> simp [standing?, real?, text?, hr, hread, hpath, ht, hs]

theorem parse?_member {file text : String} {bytes : Text.Utf8.Bytes} {v : Json.Value}
    (hf : Disk.extension? file = some "json")
    (ht : Text.Utf8.encodeString text = 0x7B :: 0x22 :: 0x61 :: 0x22 :: 0x3A :: bytes)
    (hv : Json.Reading.value (2 * bytes.length + 10) 126 bytes = .ok (v, [0x7D])) :
    parse? file text = some (.json (.object [("a", v)])) := by
  have hd : Text.Utf8.decode? [0x61] = some ['a'] := by decide +kernel
  have hkey : Json.Reading.key (0x22 :: 0x61 :: 0x22 :: 0x3A :: bytes) = .ok ("a", bytes) :=
    Json.Reading.key_of_string (Json.Reading.string_of_literal rfl hd)
  have hread : Json.Reading.ofText text = .ok (.object [("a", v)]) := by
    refine Json.Reading.ofText_of_members ht ?_
    change Json.Reading.members (2 * bytes.length + 10 + 1) 126 true [] _ = _
    rw [Json.Reading.members_of_key rfl hkey hv]
    rfl
  rw [parse?, hf]
  change (Json.Reading.ofText text).toOption.map Content.json = _
  rw [hread]
  rfl

def twoDocuments (digit : UInt8) : Disk where
  top := [("app.json", .file [0x5b]),
    ("defaults.json", .file [0x7b, 0x22, 0x61, 0x22, 0x3a, digit, 0x7d])]
  working := []

theorem standing?_yaml (digit : UInt8) (seen : List Sighting) :
    standing? (twoDocuments digit) seen "/app.yaml" = none ∧
      standing? (twoDocuments digit) seen "/defaults.yaml" = none :=
  ⟨standing?_of_missing "app.yaml" (by decide) rfl seen,
    standing?_of_missing "defaults.yaml" (by decide) rfl seen⟩

theorem standing?_app (digit : UInt8) (seen : List Sighting) :
    standing? (twoDocuments digit) seen "/app.json" =
      some ("/app.json", (seen.lookup "/app.json").getD "[") := by
  have ht : Text.Utf8.decode? [0x5b] = some ['['] := by decide +kernel
  exact standing?_of_file ["app.json"] (by decide) rfl ht seen

theorem standing?_defaults {digit : UInt8} {text : List Char}
    (ht : Text.Utf8.decode? [0x7b, 0x22, 0x61, 0x22, 0x3a, digit, 0x7d] = some text)
    (seen : List Sighting) : standing? (twoDocuments digit) seen "/defaults.json" =
      some ("/defaults.json", (seen.lookup "/defaults.json").getD (String.ofList text)) :=
  standing?_of_file ["defaults.json"] (by decide) rfl ht seen

/-- A malformed document hides nothing, and a change on the disk is not seen until a reload. -/
theorem find_first_candidate_kept :
    let s := { Sources.ofApplication "app" with directories := ["/"] }
    let c := Query.find.after (twoDocuments 0x31) "a" none (ofSources s)
    let found (n : Json.Whole) : Found := ⟨.json (.object [("a", .whole n)]), .document [0]⟩
    ∃ seen, History s (twoDocuments 0x32) c seen ∧
      ((find (twoDocuments 0x32) "a" none).run c).1 = some (found ⟨1, by decide⟩) ∧
      ((find (twoDocuments 0x32) "a" none).run c.reload).1 = some (found ⟨2, by decide⟩) := by
  intro s c found
  have hone (seen : List Sighting) : standing? (twoDocuments 0x31) seen "/defaults.json" =
      some ("/defaults.json", (seen.lookup "/defaults.json").getD "\x7b\"a\":1\x7d") :=
    standing?_defaults (by decide +kernel) seen
  have htwo (seen : List Sighting) : standing? (twoDocuments 0x32) seen "/defaults.json" =
      some ("/defaults.json", (seen.lookup "/defaults.json").getD "\x7b\"a\":2\x7d") :=
    standing?_defaults (by decide +kernel) seen
  have hmalformed : parse? "/app.json" "[" = none := by rfl
  have hbytesOne : Text.Utf8.encodeString "\x7b\"a\":1\x7d" =
    [0x7B, 0x22, 0x61, 0x22, 0x3A, 0x31, 0x7D] := by decide
  have hparseOne : parse? "/defaults.json" "\x7b\"a\":1\x7d" =
      some (.json (.object [("a", .whole ⟨1, by decide⟩)])) :=
    parse?_member (by decide) hbytesOne rfl
  have hbytesTwo : Text.Utf8.encodeString "\x7b\"a\":2\x7d" =
    [0x7B, 0x22, 0x61, 0x22, 0x3A, 0x32, 0x7D] := by decide
  have hparseTwo : parse? "/defaults.json" "\x7b\"a\":2\x7d" =
      some (.json (.object [("a", .whole ⟨2, by decide⟩)])) :=
    parse?_member (by decide) hbytesTwo rfl
  have hwithin (d : Disk) (n : Json.Whole) : within d (.json (.object [("a", .whole n)]))
      (Path.ofDotted "a") s.tags = some (found n) := rfl
  have hfiles : s.files (s.allTags none) =
      ["/app.yaml", "/app.json", "/defaults.yaml", "/defaults.json"] := by decide
  have hseen : sightingsOf s (twoDocuments 0x31) [] "a" none =
      [("/app.json", "["), ("/defaults.json", "\x7b\"a\":1\x7d")] := by
    have hw (file : String) : within? (twoDocuments 0x31) [] (Path.ofDotted "a") s.tags file = _ :=
      within?_eq (ofDotted_ne_here (by decide)) [] file
    rw [sightingsOf, hfiles]
    change sightings _ _ _ s.tags _ = _
    simp [sightings, List.findIdx_cons, sighting?_eq, hw, standing?_yaml, standing?_app, hone,
      hmalformed, hparseOne, hwithin]
  have h : History s (twoDocuments 0x32) c
      [("/app.json", "["), ("/defaults.json", "\x7b\"a\":1\x7d")] := by
    have hstart : History s (twoDocuments 0x31) (ofSources s) [] := .start (by intro _ h; cases h)
    have hask := hstart.ask .find "a" none
    rw [Query.searches, if_pos rfl, List.nil_append, hseen] at hask
    exact hask.edit (twoDocuments 0x32).top
  refine ⟨_, h, ?_, ?_⟩
  · refine (find_first_candidate h (by decide) none).1.trans ?_
    change ((s.files (s.allTags none)).findSome? _).or _ = _
    rw [hfiles]
    simp [standing?_yaml, standing?_app, htwo, hmalformed, hparseOne, List.lookup_cons]
    exact .inl (hwithin _ _)
  · refine (find_first_candidate h.reload (by decide) none).1.trans ?_
    change ((s.files (s.allTags none)).findSome? _).or _ = _
    rw [hfiles]
    simp [standing?_yaml, standing?_app, htwo, hmalformed, hparseTwo]
    exact .inl (hwithin _ _)

end AttributeTrees.Config
