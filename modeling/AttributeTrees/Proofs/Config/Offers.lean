import AttributeTrees.Proofs.Access.Ways
import AttributeTrees.Proofs.Config.Lookups
/-!
# What sources offer

Each source of a configuration offers values for a key, some of which convert. Main statement: one
value is the first that is offered and converts, unless arguments and environment have none and the
first node of the trees that has the key does not convert, in front of one that does. Then there is
no value.
-/
namespace AttributeTrees.Config

variable {s : Sources} {c : Config} {d : Disk} {seen : List Sighting} {key : String}
  {tag : Option String} {t : Element}

section Nodes

variable {α β : Type} {f : α → Option β}

/-- The first node that is there has no value, and one behind it has. -/
inductive Hides (f : α → Option β) : List (Option α) → Prop
  | here {a b : α} {nodes : List (Option α)} (ha : f a = none) (hb : some b ∈ nodes)
      (hf : (f b).isSome) : Hides f (some a :: nodes)
  | later {nodes : List (Option α)} (h : Hides f nodes) : Hides f (none :: nodes)

theorem findSome?_cons_eq (f : α → Option β) (a : α) (l : List α) :
    (a :: l).findSome? f = (f a).or (l.findSome? f) := by
  rw [← List.singleton_append, List.findSome?_append, List.findSome?_singleton]

theorem first_value_of_not_hides {nodes : List (Option α)} (h : ¬ Hides f nodes) :
    (nodes.findSome? id).bind f = nodes.findSome? (·.bind f) := by
  induction nodes with
  | nil => rfl
  | cons n nodes ih =>
    cases n with
    | none => exact ih fun hrest => h (.later hrest)
    | some a =>
      rw [findSome?_cons_eq, findSome?_cons_eq]
      change f a = (f a).or _
      cases ha : f a with
      | some b => rfl
      | none =>
        -- What is hidden behind the first node would have a value.
        refine (List.findSome?_eq_none_iff.2 fun n hn => ?_).symm
        cases n with
        | none => rfl
        | some b =>
          exact Option.not_isSome_iff_eq_none.1 fun hb => h (.here ha hn hb)

theorem first_value_of_hides {nodes : List (Option α)} (h : Hides f nodes) :
    (nodes.findSome? id).bind f = none ∧ (nodes.findSome? (·.bind f)).isSome := by
  induction h with
  | here ha hb hf =>
    refine ⟨ha, ?_⟩
    rw [List.findSome?_isSome_iff]
    exact ⟨_, List.mem_cons_of_mem _ hb, hf⟩
  | later h ih => exact ih

end Nodes

inductive Source where
  | arguments
  | environment
  | documents
  | secrets
deriving DecidableEq, Repr

def Source.all : List Source := [arguments, environment, documents, secrets]

def documentNodes (d : Disk) (seen : List Sighting) (s : Sources) (key : String)
    (tag : Option String) : List (Option Found) :=
  (s.files (s.allTags tag)).map (within? d seen (Path.ofDotted key) (s.allTags tag))

def secretNode? (d : Disk) (s : Sources) (key : String) (tag : Option String) : Option Found :=
  s.secrets.bind fun dir => within d (.files dir) (Path.ofDotted key) (s.allTags tag)

def Source.offers (d : Disk) (seen : List Sighting) (s : Sources) (key : String)
    (tag : Option String) (t : Element) : Source → List (Option t.Value)
  | arguments => (s.argumentValues key).map (·.bind t.read?)
  | environment => [(s.setting? key).bind t.read?]
  | documents => (documentNodes d seen s key tag).map (·.bind (·.first d t))
  | secrets => [(secretNode? d s key tag).bind (·.first d t)]

def firstOffer? (d : Disk) (seen : List Sighting) (s : Sources) (key : String)
    (tag : Option String) (t : Element) : Option t.Value :=
  Source.all.findSome? fun source => (source.offers d seen s key tag t).findSome? id

structure Hidden (d : Disk) (seen : List Sighting) (s : Sources) (key : String)
    (tag : Option String) (t : Element) : Prop where
  texts : firstOf t (s.argumentValues key ++ [s.setting? key]) = none
  trees : Hides (·.first d t) (documentNodes d seen s key tag ++ [secretNode? d s key tag])

theorem firstOffer?_eq : firstOffer? d seen s key tag t =
    (firstOf t (s.argumentValues key ++ [s.setting? key])).or
      ((documentNodes d seen s key tag ++ [secretNode? d s key tag]).findSome?
        (·.bind (·.first d t))) := by
  simp only [firstOffer?, Source.all, Source.offers, firstOf, List.findSome?_append,
    findSome?_cons_eq, List.findSome?_nil, List.findSome?_map, Function.id_comp, id,
    Option.or_none, Option.or_assoc]

theorem fetch_eq (h : History s d c seen) (key : String) (tag : Option String) (t : Element) :
    ((fetch d key tag t).run c).1 =
      (firstOf t (s.argumentValues key ++ [s.setting? key])).or
        (((documentNodes d seen s key tag ++ [secretNode? d s key tag]).findSome? id).bind
          (·.first d t)) := by
  obtain ⟨hd, rfl, hagrees⟩ := h.spec
  have hfind := (find_spec hd hagrees key tag).1
  have hnodes : (documentNodes d seen c.sources key tag ++
      [secretNode? d c.sources key tag]).findSome? id = ((find d key tag).run c).1 := by
    rw [hfind, documentNodes, List.findSome?_append, List.findSome?_map, Function.id_comp,
      List.findSome?_singleton]
    rfl
  rw [run_fetch, hnodes]
  cases firstOf t (c.sources.argumentValues key ++ [c.sources.setting? key]) <;> rfl

theorem fetch_of_not_hidden (h : History s d c seen) (hh : ¬ Hidden d seen s key tag t) :
    ((fetch d key tag t).run c).1 = firstOffer? d seen s key tag t := by
  rw [fetch_eq h, firstOffer?_eq]
  cases htexts : firstOf t (s.argumentValues key ++ [s.setting? key]) with
  | some v => rfl
  | none => exact first_value_of_not_hides fun htrees => hh ⟨htexts, htrees⟩

theorem fetch_of_hidden (h : History s d c seen) (hh : Hidden d seen s key tag t) :
    ((fetch d key tag t).run c).1 = none ∧ (firstOffer? d seen s key tag t).isSome := by
  rw [fetch_eq h, firstOffer?_eq, hh.texts]
  exact first_value_of_hides hh.trees

/-- A value that is fetched is the first that any source offers, and none is missed, unless a node
of the trees that does not convert hides it. -/
theorem fetch_first_offer (h : History s d c seen) (key : String) (tag : Option String)
    (t : Element) :
    let fetched := ((fetch d key tag t).run c).1
    let offered := firstOffer? d seen s key tag t
    (∀ v, fetched = some v → offered = some v) ∧
      (¬ Hidden d seen s key tag t → fetched = offered) ∧
      (Hidden d seen s key tag t → fetched = none ∧ offered.isSome) := by
  intro fetched offered
  have hkept : ¬ Hidden d seen s key tag t → fetched = offered := fetch_of_not_hidden h
  have hlost : Hidden d seen s key tag t → fetched = none ∧ offered.isSome := fetch_of_hidden h
  refine ⟨fun v hv => ?_, hkept, hlost⟩
  by_cases hh : Hidden d seen s key tag t
  · rw [(hlost hh).1] at hv
    cases hv
  · exact hkept hh ▸ hv

def twoPorts : Disk where
  top := [("app.json", .file (Text.Utf8.encodeString "\x7b\"a\":\"x\"\x7d")),
    ("s", .directory [("a", .file (Text.Utf8.encodeString "80"))])]
  working := []

def portSources : Sources :=
  { Sources.ofApplication "app" with directories := ["/"], secrets := some "/s" }

theorem history_twoPorts : History portSources twoPorts (ofSources portSources) [] :=
  .start (by intro _ h; cases h)

theorem documentNodes_twoPorts : documentNodes twoPorts [] portSources "a" none =
    [none, some ⟨.json (.object [("a", .string "x")]), .document [0]⟩, none, none] := by
  have hfiles : portSources.files (portSources.allTags none) =
      ["/app.yaml", "/app.json", "/defaults.yaml", "/defaults.json"] := by decide
  have ht : Text.Utf8.decode? (Text.Utf8.encodeString "\x7b\"a\":\"x\"\x7d") =
      some "\x7b\"a\":\"x\"\x7d".toList := by decide +kernel
  have happ : standing? twoPorts [] "/app.json" = _ :=
    standing?_of_file ["app.json"] (by decide) rfl ht []
  have hmissing : standing? twoPorts [] "/app.yaml" = none ∧
      standing? twoPorts [] "/defaults.yaml" = none ∧
      standing? twoPorts [] "/defaults.json" = none :=
    ⟨standing?_of_missing "app.yaml" (by decide) rfl [],
      standing?_of_missing "defaults.yaml" (by decide) rfl [],
      standing?_of_missing "defaults.json" (by decide) rfl []⟩
  have hbytes : Text.Utf8.encodeString "\x7b\"a\":\"x\"\x7d" =
    [0x7B, 0x22, 0x61, 0x22, 0x3A, 0x22, 0x78, 0x22, 0x7D] := by decide
  have hd : Text.Utf8.decode? [0x78] = some ['x'] := by decide +kernel
  have hstring : Json.Reading.string [0x78, 0x22, 0x7D] = .ok ("x", [0x7D]) :=
    Json.Reading.string_of_literal rfl hd
  have hvalue : Json.Reading.value 18 126 [0x22, 0x78, 0x22, 0x7D] =
      .ok (.string "x", [0x7D]) := by
    change (Json.Reading.string [0x78, 0x22, 0x7D] >>= fun x => _) = _
    rw [hstring]
    rfl
  have hparse : parse "/app.json" "\x7b\"a\":\"x\"\x7d" =
      .json (.object [("a", .string "x")]) := by
    rw [parse_eq, parse?_member (by decide) hbytes hvalue]
    rfl
  rw [documentNodes, hfiles]
  simp [within?, happ, hmissing, hparse]
  rfl

theorem get?_secret : twoPorts.get? ["s", "a"] = some (.file [0x38, 0x30]) := by
  have hbytes : Text.Utf8.encodeString "80" = [0x38, 0x30] := by decide
  rw [← hbytes]
  rfl

theorem isNamePath_secret : Disk.isNamePath "/s/a" ["s", "a"] = true := by decide

theorem secretNode?_twoPorts : secretNode? twoPorts portSources "a" none =
    some ⟨.files "/s", .file ⟨"/s/a", "/s/a"⟩⟩ := by
  have hstat := Disk.linkStat?_of_get? isNamePath_secret get?_secret nofun
  have hreal := Disk.realPath_of_get? isNamePath_secret get?_secret nofun
  have hjoin : Disk.join "/s" "a" = "/s/a" := by decide
  have hchild : (Disk.Node.ofPath twoPorts "/s").childNamed twoPorts "a" =
      some ⟨"/s/a", "/s/a"⟩ := by
    change (if Disk.Node.isEntryName "a" && (twoPorts.linkStat? (Disk.join "/s" "a")).isSome then
      some (Disk.Node.ofPath twoPorts (Disk.join "/s" "a")) else none) = _
    rw [hjoin, hstat, Disk.Node.ofPath, hreal]
    rfl
  have hstep : (Disk.access twoPorts).step (Disk.Node.ofPath twoPorts "/s") "a" [] =
      some ⟨"/s/a", "/s/a"⟩ := by
    rw [Access.step_eq]
    change List.findSome?
      (fun name => (Disk.Node.ofPath twoPorts "/s").childNamed twoPorts name) ["a"] = _
    rw [List.findSome?_cons, hchild]
  have hfollow : (Disk.access twoPorts).follow [] (Disk.Node.ofPath twoPorts "/s") ["a"] =
      some ⟨"/s/a", "/s/a"⟩ := by
    rw [Access.follow_cons, hstep]
    rfl
  have htake (n : Disk.Node) : Location.file? (.file n) = some n := rfl
  change Option.map (Found.mk (.files "/s")) (((Disk.access twoPorts).disguise .file
    Location.file?).follow [] (.file (Disk.Node.ofPath twoPorts "/s")) ["a"] : Option Location) = _
  rw [Access.follow_disguise _ htake, hfollow]
  rfl

theorem first_secret : (⟨.files "/s", .file ⟨"/s/a", "/s/a"⟩⟩ : Found).first twoPorts
    (.int .nat16) = some ⟨80, by decide⟩ := by
  have hread := Disk.read?_of_get? isNamePath_secret get?_secret
  change ((fun r : Nat × List IntType.nat16.Value => if r.1 = 1 then r.2.head? else none)
    (Disk.Node.fetch twoPorts ⟨"/s/a", "/s/a"⟩ 0 (.int .nat16) [Element.default (.int .nat16)])) = _
  simp only [Disk.Node.fetch, hread]
  decide +kernel

theorem hidden_twoPorts : Hidden twoPorts [] portSources "a" none (.int .nat16) where
  texts := rfl
  trees := by
    rw [documentNodes_twoPorts, secretNode?_twoPorts]
    refine .later (.here (b := ⟨.files "/s", .file ⟨"/s/a", "/s/a"⟩⟩) rfl ?_ ?_)
    · simp
    · rw [first_secret]
      rfl

theorem fetch_first_offer_twoPorts :
    let c := ofSources portSources
    History portSources twoPorts c [] ∧
      ¬ Hidden twoPorts [] portSources "a" none .text ∧
      ((fetch twoPorts "a" none .text).run c).1 = some "x" ∧
      Hidden twoPorts [] portSources "a" none (.int .nat16) ∧
      ((fetch twoPorts "a" none (.int .nat16)).run c).1 = none := by
  intro c
  have htext : ¬ Hidden twoPorts [] portSources "a" none .text := by
    rintro ⟨-, htrees⟩
    rw [documentNodes_twoPorts] at htrees
    rcases htrees with _ | ⟨⟨hnone, -, -⟩ | -⟩
    cases hnone
  have hoffered : firstOffer? twoPorts [] portSources "a" none .text = some "x" := by
    rw [firstOffer?_eq, documentNodes_twoPorts]
    rfl
  have hword := fetch_first_offer history_twoPorts "a" none .text
  have hnumber := fetch_first_offer history_twoPorts "a" none (.int .nat16)
  exact ⟨history_twoPorts, htext, (hword.2.1 htext).trans hoffered, hidden_twoPorts,
    (hnumber.2.2 hidden_twoPorts).1⟩

/-- Documents do not fall through to the secrets. -/
theorem fetch_not_first_offer : ¬ ∀ (s : Sources) (d : Disk) (c : Config) (seen : List Sighting)
    (key : String) (tag : Option String) (t : Element), History s d c seen →
      ((fetch d key tag t).run c).1 = firstOffer? d seen s key tag t := by
  intro hall
  obtain ⟨hnone, hsome⟩ := fetch_of_hidden history_twoPorts hidden_twoPorts
  rw [← hall _ _ _ _ _ _ _ history_twoPorts, hnone] at hsome
  cases hsome

end AttributeTrees.Config
