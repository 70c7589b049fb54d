import ApiCatalog.Command.Run
import ApiCatalog.Proofs.Yaml.Rooted

namespace ApiCatalog.Command

open Yaml (Quotable Token Node unifyBreaks)
open Yaml.Scanner (item itemTokens lineStart behindColon Reaches StartsLine)

section Layout

-- The lines of a manifest behind those of its sources.
def closing : List Char :=
  "output: ".toList ++ ({} : Manifest).output.text.toList ++ "\n".toList ++ "excludes:\n".toList ++
    (initExcludes.map String.toList).flatMap item

theorem toList_listItem (text : String) : (listItem text).toList = item text.toList := by
  simp [listItem, item]

theorem toList_join_listItem (texts : List String) :
    (String.join (texts.map listItem)).toList = (texts.map String.toList).flatMap item := by
  rw [String.toList_join, List.flatMap_map, List.flatMap_map]
  simp only [toList_listItem]

theorem toList_manifestText (dirs : List String) :
    (manifestText dirs).toList =
      (if dirs = [] then [] else "sources:\n".toList ++ (dirs.map String.toList).flatMap item) ++
        closing := by
  unfold manifestText closing
  simp only [String.toList_append, toList_join_listItem, List.append_assoc, List.isEmpty_iff]
  by_cases hdirs : dirs = []
  · simp only [hdirs, if_true, String.toList_empty]
  · simp only [hdirs, if_false, String.toList_append, toList_join_listItem, List.append_assoc]

theorem startsLine_closing : StartsLine closing := by
  refine ⟨0, closing, rfl, fun ch hch => ?_⟩
  have hhead : closing.head? = some 'o' := by decide +kernel
  rw [hhead] at hch
  cases hch
  decide

theorem unifyBreaks_item (text rest : List Char) :
    unifyBreaks (item text ++ rest) = item (unifyBreaks text) ++ unifyBreaks rest := by
  have hitem : ∀ s more : List Char,
      item s ++ more = [' ', ' ', '-', ' ', '"'] ++ (s ++ '"' :: '\n' :: more) := by
    intro s more
    simp [item]
  have hquote : unifyBreaks ('"' :: '\n' :: rest) = '"' :: '\n' :: unifyBreaks rest := by
    simp [Yaml.unifyBreaks_cons]
  rw [hitem, hitem, Yaml.unifyBreaks_append_of_not_mem (by simp),
    Yaml.unifyBreaks_append_cons (by decide), hquote]

theorem unifyBreaks_items (texts : List (List Char)) (rest : List Char) :
    unifyBreaks (texts.flatMap item ++ rest) =
      (texts.map unifyBreaks).flatMap item ++ unifyBreaks rest := by
  induction texts with
  | nil => rfl
  | cons text more ih =>
      rw [List.flatMap_cons, List.append_assoc, unifyBreaks_item, ih, List.map_cons,
        List.flatMap_cons, List.append_assoc]

theorem map_unifyBreaks {texts : List (List Char)} (h : ∀ text ∈ texts, Quotable text) :
    texts.map unifyBreaks = texts := by
  conv_rhs => rw [← List.map_id texts]
  exact List.map_congr_left fun text htext => Yaml.unifyBreaks_of_not_mem (h text htext).unreturned

theorem unifyBreaks_closing : unifyBreaks closing = closing := by
  have hall : closing.all fun c => c ≠ '\r' ∧ c.toNat ≠ 0x85 := by decide +kernel
  refine Yaml.unifyBreaks_of_not_mem fun c hc => ?_
  simpa using List.all_eq_true.1 hall c hc

theorem unifyBreaks_manifestText (dirs : List String) :
    unifyBreaks (manifestText dirs).toList =
      (if dirs = [] then []
        else "sources:\n".toList ++ ((dirs.map String.toList).map unifyBreaks).flatMap item) ++
        closing := by
  rw [toList_manifestText]
  by_cases hdirs : dirs = []
  · rw [if_pos hdirs, if_pos hdirs, List.nil_append, unifyBreaks_closing]
  · rw [if_neg hdirs, if_neg hdirs, List.append_assoc,
      Yaml.unifyBreaks_append_of_not_mem (by simp), unifyBreaks_items, unifyBreaks_closing,
      List.append_assoc]

theorem isAllowed_item {text : List Char} :
    (∀ c ∈ item text, Yaml.isAllowed c) ↔ ∀ c ∈ text, Yaml.isAllowed c := by
  have hmarks : ∀ c ∈ [' ', ' ', '-', ' ', '"'] ++ ['"', '\n'], Yaml.isAllowed c :=
    List.all_eq_true.1 (by decide)
  have hitem : item text = [' ', ' ', '-', ' ', '"'] ++ (text ++ ['"', '\n']) := rfl
  rw [hitem]
  simp only [List.forall_mem_append] at hmarks ⊢
  exact ⟨fun h => h.2.1, fun h => ⟨hmarks.1, h, hmarks.2⟩⟩

theorem isAllowed_manifestText_iff (dirs : List String) :
    (manifestText dirs).toList.all Yaml.isAllowed ↔
      ∀ dir ∈ dirs, ∀ c ∈ dir.toList, Yaml.isAllowed c := by
  have hclosing : ∀ c ∈ closing, Yaml.isAllowed c := List.all_eq_true.1 (by decide +kernel)
  have hheading : ∀ c ∈ "sources:\n".toList, Yaml.isAllowed c := List.all_eq_true.1 (by decide)
  rw [List.all_eq_true, toList_manifestText]
  by_cases hdirs : dirs = []
  · rw [if_pos hdirs, hdirs]
    exact ⟨fun _ => List.forall_mem_nil _, fun _ => hclosing⟩
  · rw [if_neg hdirs]
    simp only [List.forall_mem_append, List.mem_flatMap, forall_exists_index, and_imp]
    constructor
    · rintro ⟨⟨-, h⟩, -⟩ dir hdir
      exact isAllowed_item.1 fun c hc => h c _ (List.mem_map_of_mem hdir) hc
    · intro h
      refine ⟨⟨hheading, fun c text htext hc => ?_⟩, hclosing⟩
      obtain ⟨dir, hdir, rfl⟩ := List.mem_map.1 htext
      exact isAllowed_item.2 (h dir hdir) c hc

end Layout

section Scanning

variable {c : Yaml.Cursor} {written : List Token}

def closingTokens : List Token :=
  [.key, .scalar "output" true, .value, .scalar "dist/api/apidocs.json" true,
    .key, .scalar "excludes" true, .value, .blockSequenceStart] ++
    itemTokens (initExcludes.map String.toList)

theorem quotable_initExcludes : ∀ text ∈ initExcludes.map String.toList, Quotable text := by
  decide +kernel

-- The last lines, at the top of a text or behind the items of a sequence.
theorem reaches_closing {deep base : List Nat} (hcolumn : c.column = 0) (h : c.rest = closing)
    (hdeep : ∀ d ∈ deep, 0 < d) (hbase : base = [] ∨ base = [0]) :
    ∃ c' : Yaml.Cursor, c'.rest = [] ∧ c'.column = 0 ∧
      Reaches (lineStart c written (deep ++ base))
        (lineStart c' (written ++ List.replicate deep.length .blockEnd ++
          (if base = [] then [.blockMappingStart] else []) ++ closingTokens) [2, 0]) := by
  have hlines : closing = "output".toList ++ ':' :: ' ' :: ("dist/api/apidocs.json".toList ++
      '\n' :: ("excludes".toList ++ ':' :: '\n' ::
        ((initExcludes.map String.toList).flatMap item ++ []))) := by
    decide +kernel
  rw [hlines] at h
  have hkey := Yaml.Scanner.reaches_key written (by decide) (by decide) (by decide) rfl hcolumn h
    hdeep hbase
  generalize written ++ List.replicate deep.length .blockEnd ++
    (if base = [] then [.blockMappingStart] else []) = opened at hkey ⊢
  have hvalue : (c.skip ("output".toList.length + 1)).rest = ' ' :: ('d' ::
      "ist/api/apidocs.json".toList ++ '\n' :: ("excludes".toList ++ ':' :: '\n' ::
        ((initExcludes.map String.toList).flatMap item ++ []))) := by
    rw [Yaml.Cursor.rest_skip, h]
    rfl
  obtain ⟨c₁, hc₁, hcolumn₁, hreaches₁⟩ := Yaml.Scanner.reaches_value _ (by decide) (by decide)
    (fun ch hch => by cases hch; decide) hvalue
  have hstarts : StartsLine ((initExcludes.map String.toList).flatMap item ++ []) :=
    Yaml.Scanner.startsLine_items ⟨0, [], rfl, by simp⟩
  obtain ⟨c₂, hc₂, hcolumn₂, hreaches₂⟩ := @Yaml.Scanner.reaches_heading c₁ _ _ _ [] [0] (by decide)
    (by decide) (by decide) hstarts hcolumn₁ hc₁ (by simp) (.inr rfl)
  obtain ⟨c₃, hc₃, hcolumn₃, hreaches₃⟩ := Yaml.Scanner.reaches_sequence _ quotable_initExcludes
    (by decide) ⟨0, [], rfl, by simp⟩ hcolumn₂ hc₂
  refine ⟨c₃, hc₃, hcolumn₃, ?_⟩
  have hall := ((hkey.trans hreaches₁).trans hreaches₂).trans hreaches₃
  simpa [closingTokens] using hall

-- Behind the heading of the sources.
theorem reaches_sources {rest : List Char} (hrest : StartsLine rest) :
    ∃ c' : Yaml.Cursor, c'.rest = rest ∧ c'.column = 0 ∧
      Reaches (lineStart { rest := "sources:\n".toList ++ rest } [] []) (lineStart c'
        [.blockMappingStart, .key, .scalar "sources" true, .value] [0]) :=
  @Yaml.Scanner.reaches_heading { rest := "sources".toList ++ ':' :: '\n' :: rest } [] _ _ [] []
    (by decide) (by decide) (by decide) hrest rfl rfl (by simp) (.inl rfl)

-- The tokens of a manifest.
def manifestTokens (texts : List (List Char)) : List Token :=
  .blockMappingStart ::
    ((if texts = [] then [] else [.key, .scalar "sources" true, .value, .blockSequenceStart] ++
        itemTokens texts ++ [.blockEnd]) ++
      closingTokens ++ [.blockEnd, .blockEnd])

theorem ofText?_manifestText {dirs : List String} (h : ∀ dir ∈ dirs, Quotable dir.toList) :
    Token.ofText? (manifestText dirs) = some (manifestTokens (dirs.map String.toList)) := by
  have hallowed := (isAllowed_manifestText_iff dirs).2 fun dir hdir => (h dir hdir).allowed
  have htexts : ∀ text ∈ dirs.map String.toList, Quotable text := by
    simpa using h
  have hchars := unifyBreaks_manifestText dirs
  rw [map_unifyBreaks htexts] at hchars
  rw [Token.ofText?, if_pos hallowed, hchars, manifestTokens]
  by_cases hdirs : dirs = []
  · rw [if_pos hdirs, if_pos (by rw [hdirs]; rfl), List.nil_append]
    obtain ⟨c', hc', hcolumn', hreaches⟩ := @reaches_closing { rest := closing } [] [] [] rfl rfl
      (by simp) (.inl rfl)
    refine (Yaml.Scanner.run_of_reaches_end _ hcolumn' hc' hreaches).trans ?_
    simp
  · have hne : dirs.map String.toList ≠ [] := by simpa using hdirs
    rw [if_neg hdirs, if_neg hne, List.append_assoc]
    generalize dirs.map String.toList = texts at htexts hne ⊢
    obtain ⟨c₁, hc₁, hcolumn₁, hreaches₁⟩ :=
      reaches_sources (@Yaml.Scanner.startsLine_items _ texts startsLine_closing)
    obtain ⟨c₂, hc₂, hcolumn₂, hreaches₂⟩ := Yaml.Scanner.reaches_sequence _ htexts hne
      startsLine_closing hcolumn₁ hc₁
    obtain ⟨c₃, hc₃, hcolumn₃, hreaches₃⟩ := @reaches_closing c₂ _ [2] [0] hcolumn₂ hc₂
      (by simp) (.inr rfl)
    refine (Yaml.Scanner.run_of_reaches_end _ hcolumn₃ hc₃
      ((hreaches₁.trans hreaches₂).trans hreaches₃)).trans ?_
    simp

end Scanning

section Parsing

variable {fuel : Nat} {anchors : Node.Anchors}

-- The entries behind those of the sources.
def closingEntries : List (Node × Node) :=
  [(.scalar "output" true, .scalar "dist/api/apidocs.json" true),
    (.scalar "excludes" true, .sequence (Node.items (initExcludes.map String.toList)))]

def manifestNode (texts : List (List Char)) : Node :=
  .mapping ((if texts = [] then []
    else [(.scalar "sources" true, .sequence (Node.items texts))]) ++ closingEntries)

theorem blockEntries?_closing (hfuel : 7 ≤ fuel) :
    Node.blockEntries? fuel anchors (closingTokens ++ [.blockEnd, .blockEnd]) =
      some ⟨closingEntries, [], anchors⟩ := by
  obtain ⟨fuel, rfl⟩ := Nat.exists_eq_add_of_le' hfuel
  have hitems : Node.blockItems? (fuel + 4) anchors
      (itemTokens (initExcludes.map String.toList) ++ .blockEnd :: [.blockEnd]) = _ :=
    Node.blockItems?_itemTokens (by simp [initExcludes])
  have hexcludes : Node.blockEntries? (fuel + 6) anchors (.key :: .scalar "excludes" true ::
      .value :: .blockSequenceStart ::
        (itemTokens (initExcludes.map String.toList) ++ [.blockEnd, .blockEnd])) = _ :=
    Node.blockEntries?_entry rfl
  rw [Node.node?_blockSequence (by decide), hitems] at hexcludes
  have houtput : Node.blockEntries? (fuel + 7) anchors (.key :: .scalar "output" true ::
      .value :: .scalar "dist/api/apidocs.json" true :: .key :: .scalar "excludes" true ::
      .value :: .blockSequenceStart ::
        (itemTokens (initExcludes.map String.toList) ++ [.blockEnd, .blockEnd])) = _ :=
    Node.blockEntries?_entry rfl
  rw [Node.node?_scalar, Option.bind_some, hexcludes] at houtput
  exact houtput

theorem ofTokens?_mapping {tokens : List Token} :
    Node.ofTokens? (.blockMappingStart :: tokens) =
      (Node.node? .entry (2 * (tokens.length + 1) + 2) [] (.blockMappingStart :: tokens)).bind
        fun p => if p.rest.all (· == .documentEnd) then some p.value else none := by
  rfl

theorem ofTokens?_manifestTokens (texts : List (List Char)) :
    Node.ofTokens? (manifestTokens texts) = some (manifestNode texts) := by
  have hentries : ∀ fuel, texts.length + 20 ≤ fuel →
      Node.blockEntries? fuel [] ((if texts = [] then []
        else [.key, .scalar "sources" true, .value, .blockSequenceStart] ++ itemTokens texts ++
          [.blockEnd]) ++ closingTokens ++ [.blockEnd, .blockEnd]) =
        some ⟨(if texts = [] then [] else [(.scalar "sources" true, .sequence (Node.items texts))]) ++
          closingEntries, [], []⟩ := by
    intro fuel hfuel
    by_cases htexts : texts = []
    · rw [if_pos htexts, if_pos htexts, List.nil_append, blockEntries?_closing (by omega)]
      rfl
    · obtain ⟨fuel, rfl⟩ := Nat.exists_eq_add_of_le' (show 3 ≤ fuel by omega)
      have hsources : Node.blockEntries? (fuel + 1 + 2) [] (.key :: .scalar "sources" true ::
          .value :: .blockSequenceStart :: (itemTokens texts ++
            .blockEnd :: (closingTokens ++ [.blockEnd, .blockEnd]))) = _ :=
        Node.blockEntries?_entry rfl
      rw [Node.node?_blockSequence (by decide), Node.blockItems?_itemTokens (by omega)] at hsources
      rw [if_neg htexts, if_neg htexts]
      simp only [List.append_assoc, List.cons_append, List.nil_append]
      refine hsources.trans ?_
      simp only [Option.map_some, Option.bind_some, Node.Parsed.map,
        blockEntries?_closing (show 7 ≤ fuel + 1 + 1 by omega)]
  rw [manifestTokens, ofTokens?_mapping, Node.node?_blockMapping (by decide), hentries]
  · rfl
  · have hlength : (itemTokens texts).length = texts.length * 2 := by
      simp [itemTokens, List.length_flatMap]
    have hclosing : closingTokens.length = 12 := rfl
    rw [List.length_append, List.length_append, hclosing]
    by_cases htexts : texts = []
    · rw [htexts]
      decide
    · rw [if_neg htexts, List.length_append, List.length_append, hlength]
      simp only [List.length_cons, List.length_nil]
      omega

theorem mapM_string?_items (texts : List String) :
    (Node.items (texts.map String.toList)).mapM Node.string? = some texts := by
  induction texts with
  | nil => rfl
  | cons text more ih =>
      have hitems : Node.items ((text :: more).map String.toList) =
          .scalar text false :: Node.items (more.map String.toList) := by
        simp [Node.items]
      rw [hitems, List.mapM_cons, ih]
      rfl

-- What a manifest says that has been set up for some directories.
def setUp (dirs : List String) : Manifest :=
  { sources := if dirs = [] then ({} : Manifest).sources else dirs
    excludes := initExcludes }

theorem ofNode?_manifestNode (dirs : List String) :
    Manifest.ofNode? (manifestNode (dirs.map String.toList)) = some (setUp dirs) := by
  have hsources := mapM_string?_items dirs
  have hexcludes := mapM_string?_items initExcludes
  by_cases hdirs : dirs = []
  · subst hdirs
    decide +kernel
  · have htexts : dirs.map String.toList ≠ [] := by simpa using hdirs
    rw [manifestNode, if_neg htexts]
    generalize dirs.map String.toList = texts at hsources
    simp [Manifest.ofNode?, Node.entries?, closingEntries, Node.string?, Manifest.field?,
      Node.strings?, hsources, hexcludes, setUp, hdirs]

theorem not_allBlank_manifestText (dirs : List String) :
    Text.allBlank (manifestText dirs).toList = false := by
  have hclosing : 'o' ∈ closing := by decide +kernel
  rw [Text.allBlank, List.all_eq_false]
  refine ⟨'o', ?_, by decide⟩
  rw [toList_manifestText]
  exact List.mem_append_right _ hclosing

theorem parse_manifestText_eq_ok_iff (dirs : List String) (m : Manifest) :
    Manifest.parse (manifestText dirs) = .ok m ↔
      ((Token.ofText? (manifestText dirs)).bind Node.ofTokens?).bind Manifest.ofNode? = some m := by
  rw [Manifest.parse, not_allBlank_manifestText, if_neg (by decide), Node.read?]
  cases ((Token.ofText? (manifestText dirs)).bind Node.ofTokens?).bind Manifest.ofNode? with
  | none => simp
  | some other => simp

-- Directories that may stand between quotes as they are read back.
theorem parse_manifestText {dirs : List String} (h : ∀ dir ∈ dirs, Quotable dir.toList) :
    Manifest.parse (manifestText dirs) = .ok (setUp dirs) := by
  rw [parse_manifestText_eq_ok_iff, ofText?_manifestText h, Option.bind_some,
    ofTokens?_manifestTokens, Option.bind_some, ofNode?_manifestNode]

end Parsing

section Misreading

-- The first entry of a mapping gives the sources, if it is named for them.
theorem strings?_of_ofNode? {value : Node} {entries : List (Node × Node)} {m : Manifest}
    (h : Manifest.ofNode? (.mapping ((.scalar "sources" true, value) :: entries)) = some m) :
    value.strings? = some m.sources := by
  rw [Manifest.ofNode?, Node.entries?] at h
  simp only [Option.bind_eq_bind, Option.bind_some] at h
  obtain ⟨fields, hfields, h⟩ := Option.bind_eq_some_iff.1 h
  rw [List.mapM_cons] at hfields
  obtain ⟨first, hfirst, hfields⟩ := Option.bind_eq_some_iff.1 hfields
  obtain ⟨others, -, hfields⟩ := Option.bind_eq_some_iff.1 hfields
  cases hfirst
  cases hfields
  obtain ⟨sources, hsources, h⟩ := Option.bind_eq_some_iff.1 h
  obtain ⟨output, -, h⟩ := Option.bind_eq_some_iff.1 h
  obtain ⟨extensions, -, h⟩ := Option.bind_eq_some_iff.1 h
  obtain ⟨excludes, -, h⟩ := Option.bind_eq_some_iff.1 h
  obtain ⟨pretty, -, h⟩ := Option.bind_eq_some_iff.1 h
  cases h
  rw [Manifest.field?, List.filter_cons_of_pos (by rfl)] at hsources
  cases hmore : others.filter (·.1 == "sources") with
  | nil =>
      rw [hmore] at hsources
      exact hsources
  | cons second more =>
      rw [hmore] at hsources
      cases hsources

theorem not_unlike_of_map_string? {good : List String} {bad : String} {odd : Node}
    {more : List Node} {others : List String}
    (h : (Node.items (good.map String.toList) ++ odd :: more).map Node.string? =
      (good ++ bad :: others).map some) : ¬ Node.Unlike bad odd := by
  rw [List.map_append, List.map_append, List.map_cons, List.map_cons] at h
  have hlength : ((Node.items (good.map String.toList)).map Node.string?).length =
      (good.map some).length := by
    simp [Node.items]
  have hodd := (List.cons.inj (List.append_inj h hlength).2).1
  cases odd with
  | scalar read plain =>
      cases hodd
      exact fun hunlike => hunlike plain rfl
  | sequence items => cases hodd
  | mapping entries => cases hodd

-- The tokens in front of an item of the sources, some others being read.
def itemOpening (texts : List (List Char)) : List Token :=
  [.blockMappingStart, .key, .scalar "sources" true, .value] ++
    .blockSequenceStart :: itemTokens texts ++ [.blockEntry]

theorem rooted_of_run {texts : List (List Char)} (htexts : ∀ text ∈ texts, Quotable text)
    {bad : String} (hbad : ¬ Quotable bad.toList) (hallowed : ∀ c ∈ bad.toList, Yaml.isAllowed c)
    (hescape : '\\' ∉ bad.toList) {rest : List Char} {s s' : Yaml.Scanner}
    (hs : s = lineStart { rest := "sources:\n".toList ++ (texts.flatMap item ++
      ' ' :: ' ' :: '-' :: ' ' :: '"' :: (unifyBreaks bad.toList ++ '"' :: rest)) } [] [])
    (hrun : Yaml.Scanner.run (s.cursor.rest.length + 1) s = some s') :
    Yaml.Scanner.Rooted (itemOpening texts).reverse bad s' := by
  subst hs
  have hstarts := @Yaml.Scanner.startsLine_items _ texts
    (Yaml.Scanner.startsLine_dash (' ' :: '"' :: (unifyBreaks bad.toList ++ '"' :: rest)))
  obtain ⟨c₁, hc₁, hcolumn₁, hreaches₁⟩ := reaches_sources hstarts
  obtain ⟨c₂, hc₂, hcolumn₂, hreaches₂⟩ := Yaml.Scanner.reaches_last_dash
    [.blockMappingStart, .key, .scalar "sources" true, .value] htexts hcolumn₁ hc₁
  obtain ⟨n, hlength, hreaches⟩ := hreaches₁.trans hreaches₂
  obtain ⟨fuel, hfuel⟩ := Nat.exists_eq_add_of_le' (Nat.le_of_add_right_le hlength)
  rw [hfuel, show fuel + n + 1 = fuel + 1 + n by omega, hreaches,
    Yaml.Scanner.run_behindDash _ hcolumn₂ hc₂] at hrun
  obtain ⟨read, hread, hrun⟩ := Option.bind_eq_some_iff.1 hrun
  have hnext : c₂.next.rest = '"' :: (unifyBreaks bad.toList ++ '"' :: rest) := by
    rw [Yaml.Cursor.rest_next, hc₂]
    rfl
  have hne := Yaml.ne_of_quoted?_eq_some hallowed hescape hbad hnext hread
  refine Yaml.Scanner.Rooted.run ⟨⟨.scalar (String.ofList read.text) false, ?_, ?_⟩, ?_⟩ hrun
  · intro heq
    rw [← heq, String.toList_ofList] at hne
    exact hne rfl
  · exact List.suffix_rfl
  · intro k hk
    cases List.mem_singleton.1 hk
    simp [itemOpening]

-- A directory that cannot stand between quotes as it is spoils the list.
theorem quotable_of_parse {dirs : List String} (hescape : ∀ dir ∈ dirs, '\\' ∉ dir.toList)
    (h : Manifest.parse (manifestText dirs) = .ok (setUp dirs)) :
    ∀ dir ∈ dirs, Quotable dir.toList := by
  rw [parse_manifestText_eq_ok_iff] at h
  obtain ⟨node, hread, hmanifest⟩ := Option.bind_eq_some_iff.1 h
  obtain ⟨tokens, htokens, hnode⟩ := Option.bind_eq_some_iff.1 hread
  have hallowed : (manifestText dirs).toList.all Yaml.isAllowed := by
    by_contra hnot
    rw [Token.ofText?, if_neg hnot] at htokens
    cases htokens
  rw [Token.ofText?, if_pos hallowed, unifyBreaks_manifestText] at htokens
  obtain ⟨s, hs, rfl⟩ := Option.map_eq_some_iff.1 htokens
  -- the first directory that cannot be quoted
  by_contra hnot
  obtain ⟨bad, hfind⟩ := Option.isSome_iff_exists.1
    (show (dirs.find? fun dir => !decide (Quotable dir.toList)).isSome by simpa using hnot)
  obtain ⟨hbad, good, others, rfl, hgood⟩ := List.find?_eq_some_iff_append.1 hfind
  have hbad : ¬ Quotable bad.toList := by simpa using hbad
  have hgood : ∀ text ∈ good.map String.toList, Quotable text := by simpa using hgood
  rw [if_neg (by simp), List.map_append, List.map_append, map_unifyBreaks hgood] at hs
  have hchars : "sources:\n".toList ++ (good.map String.toList ++
      ((bad :: others).map String.toList).map unifyBreaks).flatMap item ++ closing =
      "sources:\n".toList ++ ((good.map String.toList).flatMap item ++
        ' ' :: ' ' :: '-' :: ' ' :: '"' :: (unifyBreaks bad.toList ++ '"' :: '\n' ::
          (((others.map String.toList).map unifyBreaks).flatMap item ++ closing))) := by
    simp [item]
  rw [hchars] at hs
  have hrooted := rooted_of_run hgood hbad ((isAllowed_manifestText_iff _).1 hallowed bad (by simp))
    (hescape bad (by simp)) rfl hs
  obtain ⟨t, ht, later, hlater⟩ := hrooted.strange
  have hreverse : s.tokens.reverse = itemOpening (good.map String.toList) ++ t :: later.reverse := by
    rw [← hlater]
    simp
  have hopening : itemOpening (good.map String.toList) ++ t :: later.reverse =
      .blockMappingStart :: .key :: .scalar "sources" true :: .value :: .blockSequenceStart ::
        (itemTokens (good.map String.toList) ++ .blockEntry :: t :: later.reverse) := by
    simp [itemOpening]
  rw [hreverse, hopening, ofTokens?_mapping] at hnode
  obtain ⟨parsed, hparsed, hnode⟩ := Option.bind_eq_some_iff.1 hnode
  obtain ⟨odd, more, entries, hodd, hvalue⟩ :=
    Node.exists_unlike_of_node? ht (by decide) hparsed
  split at hnode
  · cases hnode
    rw [hvalue] at hmanifest
    have hsources := strings?_of_ofNode? hmanifest
    rw [setUp, if_neg (by simp)] at hsources
    exact not_unlike_of_map_string? (Yaml.map_eq_of_mapM hsources) hodd
  · cases hnode

end Misreading

end ApiCatalog.Command
