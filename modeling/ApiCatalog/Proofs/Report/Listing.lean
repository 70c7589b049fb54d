import ApiCatalog.Listing
import ApiCatalog.Proofs.Contribution.Complete
import ApiCatalog.Proofs.Record.Plain
import ApiCatalog.Proofs.Report.Order
import Mathlib.Algebra.BigOperators.Group.List.Basic
import Mathlib.Algebra.Order.BigOperators.Group.List

namespace ApiCatalog

namespace Text

theorem count_newline_flatMap (ls : List (List Char)) :
    (ls.flatMap (· ++ ['\n'])).count '\n' = ls.length + (ls.map (·.count '\n')).sum := by
  induction ls with
  | nil => rfl
  | cons l ls ih =>
      rw [List.flatMap_cons, List.count_append, ih, List.count_append, List.count_singleton_self,
        List.map_cons, List.sum_cons, List.length_cons]
      omega

-- Texts that a break ends are as many lines as they are texts, if none is broken inside.
theorem count_newline_flatMap_iff (ls : List (List Char)) :
    (ls.flatMap (· ++ ['\n'])).count '\n' = ls.length ↔ ∀ l ∈ ls, '\n' ∉ l := by
  rw [count_newline_flatMap, Nat.add_eq_left, List.sum_eq_zero_iff]
  simp [List.count_eq_zero]

end Text

namespace Document

def lines (d : Document) : List (List Char) :=
  d.groups.entries.flatMap fun (name, g) => groupLines name g

theorem toList_listing (d : Document) : d.listing.toList = d.lines.flatMap (· ++ ['\n']) :=
  String.toList_ofList

theorem length_groupLines (name : String) (g : Group) :
    (groupLines name g).length = g.endpoints.length + 1 := by
  rw [groupLines, List.length_cons, List.length_map]

theorem length_lines (d : Document) : d.lines.length = d.size + d.endpointCount := by
  rw [endpointCount_eq_sum, lines, size, NameMap.size, NameMap.values]
  induction d.groups.entries with
  | nil => rfl
  | cons entry rest ih =>
      obtain ⟨name, g⟩ := entry
      simp only [List.flatMap_cons, List.length_append, ih, length_groupLines, List.length_cons,
        List.map_cons, List.sum_cons]
      omega

-- What the line of an endpoint begins with.
def endpointHead (e : Endpoint) : List Char :=
  let method := e.method.text.toList
  ' ' :: ' ' :: method ++ List.replicate (7 - method.length) ' ' ++ ' ' :: e.url.toList

-- What the lines begin with: for each group its name, and then for each of its
-- endpoints two spaces, the method and the url.
def heads (d : Document) : List (List Char) :=
  d.groups.entries.flatMap fun (name, g) => name.toList :: g.endpoints.map endpointHead

-- As many lines as there are groups and endpoints, each ended by a break.
def IsListing (d : Document) (text : List Char) : Prop :=
  ∃ lines : List (List Char), text = lines.flatMap (· ++ ['\n']) ∧
    (∀ line ∈ lines, '\n' ∉ line) ∧ lines.length = d.size + d.endpointCount ∧
    List.Forall₂ (· <+: ·) d.heads lines

-- No name and no url goes over several lines.
def Unbroken (d : Document) : Prop :=
  ∀ entry ∈ d.groups.entries, '\n' ∉ entry.1.toList ∧ '\n' ∉ entry.2.url.toList ∧
    ∀ e ∈ entry.2.endpoints, '\n' ∉ e.url.toList

theorem count_of_isListing {d : Document} {text : List Char} (h : d.IsListing text) :
    text.count '\n' = d.size + d.endpointCount := by
  obtain ⟨lines, rfl, hbreak, hlength, -⟩ := h
  rw [(Text.count_newline_flatMap_iff lines).2 hbreak, hlength]

theorem newline_mem_groupLine_iff (name : String) (g : Group) :
    '\n' ∈ groupLine name g ↔ '\n' ∈ name.toList ∨ '\n' ∈ g.url.toList := by
  unfold groupLine
  split
  · rename_i hurl
    simp [hurl]
  · simp

theorem newline_not_mem_firstLine (text : List Char) : '\n' ∉ firstLine text := by
  have hline : '\n' ∉ text.takeWhile (· != '\n') := Text.not_mem_takeWhile_ne '\n' text
  simp only [firstLine]
  split
  · exact hline
  · cases hreturn : Text.dropSuffix? (text.takeWhile (· != '\n')) ['\r'] with
    | none => exact hline
    | some front =>
        intro hmem
        apply hline
        rw [Text.dropSuffix?_eq_some_iff.1 hreturn]
        exact List.mem_append_left _ hmem

end Document

-- What all endpoints that are read have in common, wherever their texts come from.
structure Endpoint.Listable (e : Endpoint) : Prop where
  method : '\n' ∉ e.method.text.toList
  url_ne : e.url ≠ ""
  url_trimmed : Text.Trimmed e.url.toList

namespace Document

-- The blanks at the end of a line go no further than to its url.
theorem endpointLine_eq {e : Endpoint} (h : e.Listable) :
    endpointLine e = endpointHead e ++ Text.trimEnd (' ' :: firstLine e.title.toList) := by
  have hne : e.url.toList ≠ [] := by simpa using h.url_ne
  obtain ⟨c, hc⟩ := Option.ne_none_iff_exists'.1 (mt List.getLast?_eq_none_iff.1 hne)
  have hlast : (endpointHead e).getLast? = some c := by
    rw [endpointHead, List.append_cons, List.getLast?_append, hc]
    rfl
  rw [← Text.trimEnd_append_of_getLast? hlast (h.url_trimmed.2 c hc)]
  simp [endpointLine, endpointHead]

theorem newline_mem_endpointLine_iff {e : Endpoint} (h : e.Listable) :
    '\n' ∈ endpointLine e ↔ '\n' ∈ e.url.toList := by
  have htail : '\n' ∉ Text.trimEnd (' ' :: firstLine e.title.toList) := by
    obtain ⟨blanks, htrim, -⟩ := Text.exists_trimEnd_append (' ' :: firstLine e.title.toList)
    have htitle : '\n' ∉ ' ' :: firstLine e.title.toList := by
      simpa using newline_not_mem_firstLine e.title.toList
    intro hmem
    apply htitle
    rw [htrim]
    exact List.mem_append_left _ hmem
  have hmethod := h.method
  rw [endpointLine_eq h]
  simp [endpointHead, htail, hmethod]

section Listable

variable {d : Document} (h : ∀ entry ∈ d.groups.entries, ∀ e ∈ entry.2.endpoints, e.Listable)

include h

theorem forall₂_heads : List.Forall₂ (· <+: ·) d.heads d.lines := by
  unfold heads lines
  generalize d.groups.entries = entries at h
  induction entries with
  | nil => exact .nil
  | cons entry rest ih =>
      have hname : entry.1.toList <+: groupLine entry.1 entry.2 := by
        unfold groupLine
        split
        · exact List.prefix_rfl
        · exact List.prefix_append ..
      have hendpoints : List.Forall₂ (· <+: ·) (entry.2.endpoints.map endpointHead)
          (entry.2.endpoints.map endpointLine) := by
        rw [List.forall₂_map_left_iff, List.forall₂_map_right_iff, List.forall₂_same]
        intro e he
        rw [endpointLine_eq (h entry (by simp) e he)]
        exact List.prefix_append ..
      have hrest := ih fun entry' hentry' => h entry' (List.mem_cons_of_mem entry hentry')
      exact List.rel_append (.cons hname hendpoints) hrest

theorem forall_lines_iff : (∀ line ∈ d.lines, '\n' ∉ line) ↔ d.Unbroken := by
  simp only [lines, List.forall_mem_flatMap, Unbroken]
  refine forall₂_congr fun entry hentry => ?_
  have hendpoints : (∀ line ∈ entry.2.endpoints.map endpointLine, '\n' ∉ line) ↔
      ∀ e ∈ entry.2.endpoints, '\n' ∉ e.url.toList := by
    rw [List.forall_mem_map]
    exact forall₂_congr fun e he => not_congr (newline_mem_endpointLine_iff (h entry hentry e he))
  simp only [groupLines, List.forall_mem_cons, hendpoints, newline_mem_groupLine_iff, not_or,
    and_assoc]

-- A listing is one line for each group and each endpoint, or has too many of them.
theorem isListing_listing_iff :
    (d.IsListing d.listing.toList ↔ d.Unbroken) ∧
      (d.listing.toList.count '\n' = d.size + d.endpointCount ↔ d.Unbroken) := by
  have hcount : d.listing.toList.count '\n' = d.size + d.endpointCount ↔ d.Unbroken := by
    rw [toList_listing, ← length_lines, Text.count_newline_flatMap_iff, forall_lines_iff h]
  refine ⟨⟨fun hlisting => hcount.1 (count_of_isListing hlisting), fun hunbroken => ?_⟩, hcount⟩
  exact ⟨d.lines, d.toList_listing, (forall_lines_iff h).2 hunbroken, d.length_lines,
    forall₂_heads h⟩

end Listable

end Document

-- A name or a url over several lines, of a group or of an endpoint.
def TagLine.Breaks (l : TagLine) : Prop :=
  (l.tag = "group" ∨ l.tag = "url") ∧ '\n' ∈ (Record.plainText l.detail).toList

instance (l : TagLine) : Decidable l.Breaks :=
  inferInstanceAs (Decidable ((l.tag = "group" ∨ l.tag = "url") ∧
    '\n' ∈ (Record.plainText l.detail).toList))

namespace Record

-- Declarations break nothing: their names, urls and methods stand on one line.
structure BreaksFrom (lines : List TagLine) (r : Record) : Prop where
  method : '\n' ∉ r.method.toList
  url_trimmed : r.identity ≠ some .group → Text.Trimmed r.url.toList
  group : '\n' ∈ r.group.toList → ∃ l ∈ lines, l.Breaks
  url : '\n' ∈ r.url.toList → ∃ l ∈ lines, l.Breaks

theorem BreaksFrom.append {lines : List TagLine} {r : Record} (h : r.BreaksFrom lines)
    (l : TagLine) : r.BreaksFrom (lines ++ [l]) := by
  have hmore : (∃ m ∈ lines, m.Breaks) → ∃ m ∈ lines ++ [l], m.Breaks := by
    rintro ⟨m, hm, hbreaks⟩
    exact ⟨m, List.mem_append_left _ hm, hbreaks⟩
  exact ⟨h.method, h.url_trimmed, fun hg => hmore (h.group hg), fun hu => hmore (h.url hu)⟩

theorem trimmed_plainText (detail : String) : Text.Trimmed (plainText detail).toList := by
  obtain ⟨gap, dash, gap', trail, -, -, htrimmed, -⟩ := isPlainText_plainText detail
  exact htrimmed

theorem Step.breaksFrom {r r' : Record} {earlier : List TagLine} {l : TagLine}
    (hr : r.BreaksFrom earlier) (h : r.Step l.tag l.detail r') :
    r'.BreaksFrom (earlier ++ [l]) := by
  have hkept := hr.append l
  cases h with
  | defineGroup htag hfree =>
      obtain ⟨hparen, -, hname⟩ := Section.newline_not_mem_parse l.detail .nameOnly
      exact ⟨hr.method, fun hgroup => absurd rfl hgroup, fun hbreak => absurd hbreak hparen,
        fun hbreak => absurd hbreak hname⟩
  | declareEndpoint htag hfree =>
      obtain ⟨-, hcurly, hname⟩ := Section.newline_not_mem_parse l.detail .withName
      refine ⟨?_, fun _ => Section.trimmed_name_parse l.detail, hkept.group,
        fun hbreak => absurd hbreak hname⟩
      rw [String.toList_ofList]
      exact fun hbreak => hcurly (Text.mem_of_mem_upper hbreak (by decide))
  | setPlain =>
      rw [setPlain_eq]
      refine ⟨hr.method, fun hidentity => ?_, fun hbreak => ?_, fun hbreak => ?_⟩
      · dsimp only
        split
        · exact trimmed_plainText l.detail
        · exact hr.url_trimmed hidentity
      · dsimp only at hbreak
        split at hbreak
        · rename_i htag
          exact ⟨l, by simp, .inl htag, hbreak⟩
        · exact hkept.group hbreak
      · dsimp only at hbreak
        split at hbreak
        · rename_i htag
          exact ⟨l, by simp, .inr htag, hbreak⟩
        · exact hkept.url hbreak
  | _ => exact ⟨hkept.method, hkept.url_trimmed, hkept.group, hkept.url⟩

theorem breaksFrom_ofBlock {block : Block} {r : Record} (h : ofBlock block = .ok r) :
    r.BreaksFrom block.lines := by
  have hstart : BreaksFrom [] { src := block.path } :=
    ⟨by simp, fun _ => Text.trimmed_of_solid (by simp), by simp, by simp⟩
  obtain ⟨s, title, description, hs, rfl⟩ :=
    ofBlock_keeps (P := fun lines r => r.BreaksFrom lines) Step.breaksFrom hstart h
  exact ⟨hs.method, hs.url_trimmed, hs.group, hs.url⟩

end Record

namespace Contribution

-- The url of a definition or of an endpoint.
def url : Contribution → String
  | definition _ shared => shared.url
  | endpoint _ operation => operation.url

theorem breaks_of_ofRecord? {block : Block} {r : Record} {c : Contribution}
    (hr : Record.ofBlock block = .ok r) (hc : ofRecord? r = some c)
    (hbreak : '\n' ∈ c.group.toList ∨ '\n' ∈ c.url.toList) : ∃ l ∈ block.lines, l.Breaks := by
  have hfrom := Record.breaksFrom_ofBlock hr
  have hgroup : '\n' ∈ (groupOf r).toList → ∃ l ∈ block.lines, l.Breaks := by
    unfold groupOf
    split
    · exact fun hmem => absurd hmem (by decide)
    · exact hfrom.group
  rcases ofRecord?_eq_some_iff.1 hc with ⟨-, rfl⟩ | ⟨-, -, -, rfl⟩
  · exact hbreak.elim hgroup hfrom.url
  · exact hbreak.elim hgroup hfrom.url

theorem listable_of_ofRecord? {block : Block} {r : Record} {name : String} {e : Endpoint}
    (hr : Record.ofBlock block = .ok r) (he : ofRecord? r = some (endpoint name e)) :
    e.Listable := by
  have hfrom := Record.breaksFrom_ofBlock hr
  obtain ⟨hidentity, -, hurl, -, rfl⟩ := eq_of_ofRecord?_endpoint he
  have hgroup : r.identity ≠ some .group := by simp [hidentity]
  refine ⟨?_, hurl, hfrom.url_trimmed hgroup⟩
  simp only [operationOf, Method.text_ofText, String.toList_ofList]
  intro hmem
  exact hfrom.method (Text.mem_of_mem_trim (Text.mem_of_mem_upper hmem (by decide)))

end Contribution

namespace Group

theorem firstText_mem {texts : List String} (h : firstText texts ≠ "") :
    firstText texts ∈ texts := by
  unfold firstText at h ⊢
  cases hfind : texts.find? (· ≠ "") with
  | none =>
      rw [hfind] at h
      exact absurd rfl h
  | some text => exact List.mem_of_find?_eq_some hfind

theorem url_flat_mem {name : String} {cs : List Contribution} (h : (flat name cs).url ≠ "") :
    ∃ c ∈ cs, c.url = (flat name cs).url := by
  rw [flat_eq_sort] at h ⊢
  obtain ⟨shared, hshared, hurl⟩ := List.mem_map.1 (firstText_mem h)
  obtain ⟨c, hc, hsome⟩ := List.mem_filterMap.1 hshared
  obtain rfl := Contribution.definitionOf?_eq_some_iff.1 hsome
  exact ⟨_, hc, hurl⟩

theorem mem_endpoints_flat {name : String} {cs : List Contribution} {e : Endpoint}
    (h : e ∈ (flat name cs).endpoints) :
    ∃ operation, Contribution.endpoint name operation ∈ cs ∧ e = kept operation := by
  rw [flat_eq_sort] at h
  obtain ⟨operation, hmem, rfl⟩ :=
    List.mem_map.1 ((StableSort.perm_sort Endpoint.le _).mem_iff.1 h)
  obtain ⟨c, hc, hsome⟩ := List.mem_filterMap.1 hmem
  obtain rfl := Contribution.endpointOf?_eq_some_iff.1 hsome
  exact ⟨operation, hc, rfl⟩

end Group

namespace Document

theorem Holds.eq_flat_of_mem {d : Document} {cs : List Contribution} (h : d.Holds cs)
    {entry : String × Group} (hentry : entry ∈ d.groups.entries) :
    entry.2 = Group.flat entry.1 cs ∧ ∃ c ∈ cs, c.group = entry.1 := by
  have hget : d.get? entry.1 = some entry.2 := NameMap.get?_of_mem hentry
  refine ⟨h.eq_flat hget, (h.mem_groupNames_iff entry.1).1 ?_⟩
  rw [Document.mem_groupNames_iff, hget]
  rfl

theorem Holds.listable {d : Document} {cs : List Contribution} (h : d.Holds cs)
    (hcs : ∀ name e, Contribution.endpoint name e ∈ cs → e.Listable) :
    ∀ entry ∈ d.groups.entries, ∀ e ∈ entry.2.endpoints, e.Listable := by
  intro entry hentry e he
  rw [(h.eq_flat_of_mem hentry).1] at he
  obtain ⟨operation, hmem, rfl⟩ := Group.mem_endpoints_flat he
  obtain ⟨hmethod, hne, htrimmed⟩ := hcs _ _ hmem
  exact ⟨hmethod, hne, htrimmed⟩

theorem Holds.unbroken {d : Document} {cs : List Contribution} (h : d.Holds cs)
    (hcs : ∀ c ∈ cs, '\n' ∉ c.group.toList ∧ '\n' ∉ c.url.toList) : d.Unbroken := by
  intro entry hentry
  obtain ⟨hflat, c, hc, hname⟩ := h.eq_flat_of_mem hentry
  refine ⟨hname ▸ (hcs c hc).1, fun hbreak => ?_, fun e he hbreak => ?_⟩
  · rw [hflat] at hbreak
    have hne : (Group.flat entry.1 cs).url ≠ "" := by
      intro hempty
      simp [hempty] at hbreak
    obtain ⟨source, hsource, hurl⟩ := Group.url_flat_mem hne
    exact (hcs source hsource).2 (hurl ▸ hbreak)
  · rw [hflat] at he
    obtain ⟨operation, hmem, rfl⟩ := Group.mem_endpoints_flat he
    exact (hcs _ hmem).2 hbreak

end Document

namespace Report

-- The listing of some files is one line for each group, and below it one line for each of
-- its endpoints, if and only if no name and no url of the catalog goes over several lines.
-- Methods and titles never do. The others can: through a tag of their own.
theorem listing_ofFiles_iff (files : List SourceFile) :
    (ofFiles files).document.groupNames.Pairwise (· < ·) ∧
    ((ofFiles files).document.IsListing (ofFiles files).document.listing.toList ↔
      (ofFiles files).document.Unbroken) ∧
    ((ofFiles files).document.listing.toList.count '\n' =
        (ofFiles files).document.size + (ofFiles files).document.endpointCount ↔
      (ofFiles files).document.Unbroken) ∧
    ((∀ file ∈ files, ∀ block ∈ file.blocks, ∀ l ∈ block.lines, ¬ l.Breaks) →
      (ofFiles files).document.Unbroken) := by
  have hholds := (accounts_ofFiles files).document
  have hlistable := hholds.listable fun name e he => by
    obtain ⟨file, -, hmem⟩ := List.mem_flatMap.1 he
    obtain ⟨block, -, r, hr, hc⟩ := SourceFile.exists_record_of_mem hmem
    exact Contribution.listable_of_ofRecord? hr hc
  obtain ⟨hlisting, hcount⟩ := Document.isListing_listing_iff hlistable
  refine ⟨(ofFiles files).document.groups.pairwise_keys, hlisting, hcount, fun hplain => ?_⟩
  refine hholds.unbroken fun c hc => ?_
  obtain ⟨file, hfile, hmem⟩ := List.mem_flatMap.1 hc
  obtain ⟨block, hblock, r, hr, hrecord⟩ := SourceFile.exists_record_of_mem hmem
  rw [← not_or]
  intro hbreak
  obtain ⟨l, hl, hbreaks⟩ := Contribution.breaks_of_ofRecord? hr hrecord hbreak
  exact hplain file hfile block hblock l hl hbreaks

def petsFile : SourceFile where
  path := "pets.js"
  text := "/**\n * @api \x7bget\x7d /pets All\n * pets\n * @apiGroup - Pets\n *\n */\n"

theorem listing_petsFile :
    (∀ file ∈ [petsFile], ∀ block ∈ file.blocks, ∀ l ∈ block.lines, ¬ l.Breaks) ∧
    (ofFiles [petsFile]).document.IsListing "Pets\n  GET     /pets All\n".toList := by
  have hplain : ∀ file ∈ [petsFile], ∀ block ∈ file.blocks, ∀ l ∈ block.lines, ¬ l.Breaks := by
    decide +kernel
  have hlisting : (ofFiles [petsFile]).document.listing = "Pets\n  GET     /pets All\n" := by
    decide +kernel
  obtain ⟨-, hiff, -, hunbroken⟩ := listing_ofFiles_iff [petsFile]
  rw [hlisting] at hiff
  exact ⟨hplain, hiff.2 (hunbroken hplain)⟩

def brokenUrl : SourceFile := ⟨"a.js", "/**\n * @api \x7bget\x7d /a\n * @apiUrl /a\n * /b\n */"⟩

-- One group and one endpoint, and three lines.
theorem listing_breaks_url :
    (ofFiles [brokenUrl]).document.listing = "General\n  GET     /a\n/b\n" ∧
    ¬ (ofFiles [brokenUrl]).document.IsListing "General\n  GET     /a\n/b\n".toList := by
  have hsize : (ofFiles [brokenUrl]).document.size +
      (ofFiles [brokenUrl]).document.endpointCount = 2 := by decide +kernel
  refine ⟨by decide +kernel, fun hlisting => ?_⟩
  have hcount := Document.count_of_isListing hlisting
  rw [hsize] at hcount
  exact absurd hcount (by decide)

end Report

end ApiCatalog
