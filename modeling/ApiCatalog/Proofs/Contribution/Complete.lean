import ApiCatalog.Proofs.Offence
import ApiCatalog.Proofs.Text.Case

namespace ApiCatalog

namespace Method

theorem text_ofText (value : String) :
    (ofText value).text = String.ofList (Text.upper (Text.trim value.toList)) := by
  simp only [ofText]
  split_ifs with hget hpost hput hdelete hpatch
  · exact hget.symm
  · exact hpost.symm
  · exact hput.symm
  · exact hdelete.symm
  · exact hpatch.symm
  · rfl

theorem text_ofText_eq_empty_iff (value : String) :
    (ofText value).text = "" ↔ Text.allBlank value.toList := by
  rw [text_ofText, ← Text.trim_eq_nil_iff, ← Text.upper_eq_nil_iff]
  rw [String.ofList_eq_empty_iff]

end Method

namespace TagLine

-- What stands in curly brackets where an endpoint is declared.
def methodText (l : TagLine) : String := (Section.parse l.detail .withName).curly

-- The brackets are not empty, but hold nothing to name a method by.
structure DeclaresBlankMethod (l : TagLine) : Prop where
  tag_eq : l.tag = "api"
  bracketed : l.methodText ≠ ""
  blank : Text.allBlank l.methodText.toList

end TagLine

namespace Record

theorem method_setPlain (r : Record) (tag detail : String) :
    (r.setPlain tag detail).method = r.method := by
  simp only [setPlain]
  split_ifs <;> rfl

-- Only a declaration touches the method, and it finds none before it.
theorem Step.method_eq {r r' : Record} {tag detail : String} (h : r.Step tag detail r') :
    if tag = "api" then
      r.identity = none ∧
        r'.method = String.ofList (Text.upper (Section.parse detail .withName).curly.toList)
    else
      r'.method = r.method := by
  cases h with
  | defineGroup htag => rw [htag]; rfl
  | declareEndpoint htag hfree => rw [if_pos htag]; exact ⟨hfree, rfl⟩
  | addParam htag => rw [htag]; rfl
  | setPermissions htag => rw [htag]; rfl
  | @addValue side htag => cases side <;> (rw [htag]; rfl)
  | @addExample side htag => cases side <;> (rw [htag]; rfl)
  | setPlain htag =>
      have hapi : tag ≠ "api" := by
        rintro rfl
        cases htag
      rw [if_neg hapi, method_setPlain]

-- The record is an endpoint exactly if one of the lines declares it, and its
-- method is the one declared there.
structure MethodFrom (lines : List TagLine) (r : Record) : Prop where
  declared : r.identity = some .endpoint → ∃ l ∈ lines, l.tag = "api"
  method : ∀ l ∈ lines, l.tag = "api" →
    r.identity = some .endpoint ∧ r.method = String.ofList (Text.upper l.methodText.toList)

theorem Step.methodFrom {r r' : Record} {earlier : List TagLine} {l : TagLine}
    (hr : r.MethodFrom earlier) (h : r.Step l.tag l.detail r') :
    r'.MethodFrom (earlier ++ [l]) := by
  have hidentity := h.identity_eq
  have hmethod := h.method_eq
  by_cases hapi : l.tag = "api"
  · rw [if_pos hapi] at hmethod
    obtain ⟨hfree, hmethod⟩ := hmethod
    have hendpoint : r'.identity = some .endpoint := by
      rw [hidentity, hfree, hapi]
      rfl
    refine ⟨fun _ => ⟨l, by simp, hapi⟩, fun m hm htag => ?_⟩
    rcases List.mem_append.1 hm with hm | hm
    · rw [(hr.method m hm htag).1] at hfree
      cases hfree
    · rw [List.mem_singleton.1 hm]
      exact ⟨hendpoint, hmethod⟩
  · rw [if_neg hapi] at hmethod
    refine ⟨fun hendpoint => ?_, fun m hm htag => ?_⟩
    · have hr' : r.identity = some .endpoint := by
        rw [hidentity] at hendpoint
        unfold Identity.ofTag? at hendpoint
        rw [if_neg hapi] at hendpoint
        cases hfree : r.identity <;> simp_all
      obtain ⟨m, hm, htag⟩ := hr.declared hr'
      exact ⟨m, by simp [hm], htag⟩
    · rcases List.mem_append.1 hm with hm | hm
      · obtain ⟨hendpoint, hdeclared⟩ := hr.method m hm htag
        rw [hidentity, hendpoint, hmethod]
        exact ⟨rfl, hdeclared⟩
      · rw [List.mem_singleton.1 hm] at htag
        exact absurd htag hapi

theorem methodFrom_ofBlock {block : Block} {r : Record} (h : ofBlock block = .ok r) :
    r.MethodFrom block.lines := by
  have hstart : MethodFrom [] { src := block.path } := ⟨by simp, by simp⟩
  obtain ⟨s, title, description, hs, rfl⟩ :=
    ofBlock_keeps (P := fun lines r => r.MethodFrom lines) Step.methodFrom hstart h
  exact ⟨hs.declared, hs.method⟩

-- A method that passes for one and still has no name.
theorem blankMethod_iff {block : Block} {r : Record} (h : ofBlock block = .ok r) :
    (r.identity = some .endpoint ∧ r.method ≠ "" ∧ (Method.ofText r.method).text = "") ↔
      ∃ l ∈ block.lines, l.DeclaresBlankMethod := by
  have hfrom := methodFrom_ofBlock h
  have hempty : ∀ s : String, String.ofList (Text.upper s.toList) = "" ↔ s = "" := by
    intro s
    rw [String.ofList_eq_empty_iff, Text.upper_eq_nil_iff, String.toList_eq_nil_iff]
  rw [Method.text_ofText_eq_empty_iff]
  constructor
  · rintro ⟨hendpoint, hmethod, hblank⟩
    obtain ⟨l, hl, htag⟩ := hfrom.declared hendpoint
    rw [(hfrom.method l hl htag).2] at hmethod hblank
    rw [String.toList_ofList, Text.allBlank_upper] at hblank
    exact ⟨l, hl, htag, mt (hempty _).2 hmethod, hblank⟩
  · rintro ⟨l, hl, hblank⟩
    obtain ⟨hendpoint, hmethod⟩ := hfrom.method l hl hblank.tag_eq
    rw [hmethod, String.toList_ofList, Text.allBlank_upper]
    exact ⟨hendpoint, mt (hempty _).1 hblank.bracketed, hblank.blank⟩

end Record

namespace Contribution

theorem group_ne_empty_of_ofRecord? {r : Record} {c : Contribution} (h : ofRecord? r = some c) :
    c.group ≠ "" := by
  have hgroup : groupOf r ≠ "" := by
    unfold groupOf
    split
    · decide
    · assumption
  rcases ofRecord?_eq_some_iff.1 h with ⟨-, rfl⟩ | ⟨-, -, -, rfl⟩ <;> exact hgroup

-- The method is compared with the empty text first and read after that.
theorem ofRecord?_endpoint_iff {r : Record} {method : Method} {url : String} :
    (∃ name e, ofRecord? r = some (endpoint name e) ∧ e.method = method ∧ e.url = url) ↔
      r.identity = some .endpoint ∧ r.method ≠ "" ∧ r.url ≠ "" ∧
        .ofText r.method = method ∧ r.url = url := by
  constructor
  · rintro ⟨name, e, he, rfl, rfl⟩
    obtain ⟨hidentity, hmethod, hurl, -, rfl⟩ := eq_of_ofRecord?_endpoint he
    refine ⟨hidentity, hmethod, hurl, ?_, ?_⟩ <;> simp only [operationOf]
  · rintro ⟨hidentity, hmethod, hurl, rfl, rfl⟩
    refine ⟨groupOf r, operationOf r,
      ofRecord?_eq_some_iff.2 (.inr ⟨hidentity, hmethod, hurl, rfl⟩), ?_, ?_⟩ <;>
      simp only [operationOf]

-- Groups and urls are never empty. A method can be: brackets that hold blanks
-- alone pass the comparison with the empty text and are trimmed after it.
theorem ofSource_complete_iff {path source : String} {cs : List Contribution}
    (h : ofSource path source = .ok cs) :
    (∀ c ∈ cs, c.group ≠ "") ∧
    (∀ name e, endpoint name e ∈ cs → e.url ≠ "") ∧
    ((∀ name e, endpoint name e ∈ cs → e.method.text ≠ "") ↔
      ∀ block ∈ Block.find path (Text.unifyBreaks source.toList),
        (∃ l ∈ block.lines, l.DeclaresBlankMethod) →
          ∃ r, Record.ofBlock block = .ok r ∧ r.url = "") := by
  refine ⟨fun c hc => ?_, fun name e he => ?_, fun hmethods block hblock hblank => ?_, ?_⟩
  · obtain ⟨block, -, r, -, hr⟩ := (mem_of_ofSource h).1 hc
    exact group_ne_empty_of_ofRecord? hr
  · obtain ⟨block, -, r, -, hr⟩ := (mem_of_ofSource h).1 he
    obtain ⟨-, -, hurl, -, heq⟩ := ofRecord?_endpoint_iff.1 ⟨name, e, hr, rfl, rfl⟩
    rwa [← heq]
  · obtain ⟨r, hr⟩ := (ofBlocks_ok h).1 block hblock
    obtain ⟨hidentity, hmethod, hempty⟩ := (Record.blankMethod_iff hr).2 hblank
    refine ⟨r, hr, by_contra fun hurl => ?_⟩
    obtain ⟨name, e, he, heq, -⟩ :=
      ofRecord?_endpoint_iff.2 ⟨hidentity, hmethod, hurl, rfl, rfl⟩
    have hmem := (mem_of_ofSource h).2 ⟨block, hblock, r, hr, he⟩
    exact hmethods name e hmem (heq ▸ hempty)
  · intro hblocks name e he hempty
    obtain ⟨block, hblock, r, hr, hrecord⟩ := (mem_of_ofSource h).1 he
    obtain ⟨hidentity, hmethod, hurl, heq, -⟩ :=
      ofRecord?_endpoint_iff.1 ⟨name, e, hrecord, rfl, rfl⟩
    have hblank := (Record.blankMethod_iff hr).1 ⟨hidentity, hmethod, heq ▸ hempty⟩
    obtain ⟨s, hs, hnone⟩ := hblocks block hblock hblank
    rw [hr] at hs
    cases hs
    exact hurl hnone

def completeSample : String :=
  "/**\n * @api { } /a\n * @apiUrl -\n */\n/**\n * @api { get } /b\n */"

def sampleEndpoint (method : Method) (url : String) : Endpoint :=
  { src := "a.js", method, url, title := "", description := "", permissions := {}, params := [],
    examples := ∅, extra := ∅ }

theorem ofSource_complete_sample :
    ofSource "a.js" completeSample =
      .ok [endpoint "General" (sampleEndpoint .get "/b")] ∧
    ∀ block ∈ Block.find "a.js" (Text.unifyBreaks completeSample.toList),
      (∃ l ∈ block.lines, l.DeclaresBlankMethod) →
        ∃ r, Record.ofBlock block = .ok r ∧ r.url = "" := by
  have hok : ofSource "a.js" completeSample =
      .ok [endpoint "General" (sampleEndpoint .get "/b")] := by
    decide +kernel
  refine ⟨hok, (ofSource_complete_iff hok).2.2.1 fun name e he => ?_⟩
  obtain ⟨rfl, rfl⟩ := endpoint.inj (List.mem_singleton.1 he)
  decide

theorem ofSource_blank_method :
    ofSource "a.js" "/**\n * @api { } /a\n */" =
      .ok [endpoint "General" (sampleEndpoint (.other "") "/a")] ∧
    (Method.other "").text = "" := by
  decide +kernel

end Contribution

end ApiCatalog
