import ApiCatalog.Proofs.Param
import ApiCatalog.Proofs.Report.Listing

namespace ApiCatalog

namespace Text

-- What is trimmed and lowered is both already.
theorem lower_trim_lower_trim (s : List Char) : lower (trim (lower (trim s))) = lower (trim s) := by
  have htrimmed : Trimmed (lower (trim s)) := (recased_lowerFrom [] _).trimmed (trimmed_trim s)
  rw [htrimmed.trim_eq, lower_lower]

-- Capital letters may come before the blanks go or after that, or both.
theorem upper_trim_upper (s : List Char) : upper (trim (upper s)) = upper (trim s) := by
  rw [trim_upper, upper_upper]

end Text

namespace ParamKind

theorem ofText_lower_trim (value : String) :
    ofText (String.ofList (Text.lower (Text.trim value.toList))) = ofText value := by
  simp only [ofText, String.toList_ofList, Text.lower_trim_lower_trim]

theorem text_ofText {value : String}
    (h : String.ofList (Text.lower (Text.trim value.toList)) ≠ "") :
    (ofText value).text = String.ofList (Text.lower (Text.trim value.toList)) := by
  simp only [ofText]
  split_ifs with hbody hpath hquery hheader hcookie
  · exact (hbody.resolve_left h).symm
  · exact hpath.symm
  · exact hquery.symm
  · exact hheader.symm
  · exact hcookie.symm
  · rfl

-- Only blanks have another text than their own.
theorem ofText_text_ofText (value : String) : ofText (ofText value).text = ofText value := by
  by_cases hname : String.ofList (Text.lower (Text.trim value.toList)) = ""
  · have hbody : ofText value = body := by simp only [ofText, hname, true_or, if_true]
    rw [hbody]
    decide
  · rw [text_ofText hname, ofText_lower_trim]

theorem not_mem_order_of_ofText {value name : String} (h : ofText value = other name) :
    name ∉ order := by
  simp only [ofText] at h
  split_ifs at h
  cases h
  simp_all [order]

theorem rank_ofText_eq_length_iff (value : String) :
    (ofText value).rank = order.length ↔ ∃ name, ofText value = other name := by
  rw [rank, List.idxOf_eq_length_iff]
  constructor
  · intro hunknown
    cases hkind : ofText value with
    | other name => exact ⟨name, rfl⟩
    | _ =>
        rw [hkind] at hunknown
        exact absurd (by decide) hunknown
  · rintro ⟨name, hname⟩
    rw [hname]
    exact not_mem_order_of_ofText hname

end ParamKind

namespace Method

theorem ofText_upper (value : String) :
    ofText (String.ofList (Text.upper value.toList)) = ofText value := by
  simp only [ofText, String.toList_ofList, Text.upper_trim_upper]

theorem ofText_trim (value : String) :
    ofText (String.ofList (Text.trim value.toList)) = ofText value := by
  simp only [ofText, String.toList_ofList, (Text.trimmed_trim _).trim_eq]

theorem ofText_text_ofText (value : String) : ofText (ofText value).text = ofText value := by
  have hupper := ofText_upper (String.ofList (Text.trim value.toList))
  rw [String.toList_ofList] at hupper
  rw [text_ofText, hupper, ofText_trim]

theorem not_mem_order_of_ofText {value name : String} (h : ofText value = other name) :
    name ∉ order := by
  simp only [ofText] at h
  split_ifs at h
  cases h
  simp_all [order]

theorem rank_ofText_eq_length_iff (value : String) :
    (ofText value).rank = order.length ↔ ∃ name, ofText value = other name := by
  rw [rank, List.idxOf_eq_length_iff]
  constructor
  · intro hunknown
    cases hmethod : ofText value with
    | other name => exact ⟨name, rfl⟩
    | _ =>
        rw [hmethod] at hunknown
        exact absurd (by decide) hunknown
  · rintro ⟨name, hname⟩
    rw [hname]
    exact not_mem_order_of_ofText hname

end Method

theorem Param.kind_parse (detail : String) :
    (parse detail).kind = .ofText (Section.parse detail .withName).paren := by
  rw [parse_eq]

theorem Param.faithful_parse (detail : String) : (parse detail).Faithful := by
  rw [Faithful, kind_parse, ParamKind.ofText_text_ofText]

namespace Record

-- The params of a record are those of its lines, in their order.
def ParamsFrom (lines : List TagLine) (r : Record) : Prop :=
  r.params = (lines.filter (·.tag = "param")).map fun l => Param.parse l.detail

theorem Step.paramsFrom {r r' : Record} {earlier : List TagLine} {l : TagLine}
    (hr : r.ParamsFrom earlier) (h : r.Step l.tag l.detail r') :
    r'.ParamsFrom (earlier ++ [l]) := by
  have hskip : ∀ {s : Record}, s.params = r.params → l.tag ≠ "param" →
      s.ParamsFrom (earlier ++ [l]) := by
    intro s hsame htag
    rw [ParamsFrom, hsame, hr, List.filter_append, List.filter_cons_of_neg (by simpa using htag)]
    simp
  cases h with
  | addParam htag =>
      rw [ParamsFrom, Record.addParam, hr, List.filter_append,
        List.filter_cons_of_pos (by simpa using htag)]
      simp
  | defineGroup htag => exact hskip rfl (by rw [htag]; decide)
  | declareEndpoint htag => exact hskip rfl (by rw [htag]; decide)
  | setPermissions htag => exact hskip rfl (by rw [htag]; decide)
  | @addValue side htag => exact hskip rfl (by rw [htag]; cases side <;> decide)
  | @addExample side htag => exact hskip rfl (by rw [htag]; cases side <;> decide)
  | setPlain htag =>
      refine hskip (by rw [setPlain_eq]) ?_
      intro hparam
      rw [hparam] at htag
      cases htag

theorem paramsFrom_ofBlock {block : Block} {r : Record} (h : ofBlock block = .ok r) :
    r.ParamsFrom block.lines := by
  obtain ⟨s, title, description, hs, rfl⟩ :=
    ofBlock_keeps (P := fun lines r => r.ParamsFrom lines) Step.paramsFrom rfl h
  exact hs

theorem faithful_of_mem_params {block : Block} {r : Record} (h : ofBlock block = .ok r) :
    ∀ p ∈ r.params, p.Faithful := by
  intro p hp
  rw [paramsFrom_ofBlock h] at hp
  obtain ⟨l, -, rfl⟩ := List.mem_map.1 hp
  exact Param.faithful_parse l.detail

end Record

namespace Contribution

-- A block's own capital letters and those of the endpoint are the same.
theorem exists_methodText {block : Block} {r : Record} {name : String} {e : Endpoint}
    (hr : Record.ofBlock block = .ok r) (he : ofRecord? r = some (endpoint name e)) :
    ∃ l ∈ block.lines, l.tag = "api" ∧ e.method = .ofText l.methodText := by
  obtain ⟨hidentity, -, -, -, rfl⟩ := eq_of_ofRecord?_endpoint he
  have hfrom := Record.methodFrom_ofBlock hr
  obtain ⟨l, hl, htag⟩ := hfrom.declared hidentity
  refine ⟨l, hl, htag, ?_⟩
  rw [operationOf, (hfrom.method l hl htag).2, Method.ofText_upper]

def Faithful : Contribution → Prop
  | definition _ shared => ∀ p ∈ shared.params, p.Faithful
  | endpoint _ operation => operation.Faithful

theorem faithful_of_ofRecord? {block : Block} {r : Record} {c : Contribution}
    (hr : Record.ofBlock block = .ok r) (hc : ofRecord? r = some c) : c.Faithful := by
  have hparams := Record.faithful_of_mem_params hr
  rcases ofRecord?_eq_some_iff.1 hc with ⟨-, rfl⟩ | ⟨-, -, -, rfl⟩
  · exact hparams
  · have hmethod : (operationOf r).method = .ofText r.method := by rw [operationOf]
    refine ⟨by rw [hmethod, Method.ofText_text_ofText], hparams, fun name hname hfield => ?_⟩
    exact Record.not_mem_keys_of_mem_fieldNames (Record.extraFrom_ofBlock hr) hfield hname

end Contribution

namespace Group

theorem mem_params_flat {name : String} {cs : List Contribution} {p : Param}
    (h : p ∈ (flat name cs).params) :
    ∃ shared, Contribution.definition name shared ∈ cs ∧ p ∈ shared.params := by
  rw [flat_eq_sort] at h
  obtain ⟨shared, hmem, hp⟩ := List.mem_flatMap.1 ((StableSort.perm_sort Param.le _).mem_iff.1 h)
  obtain ⟨c, hc, hsome⟩ := List.mem_filterMap.1 hmem
  obtain rfl := Contribution.definitionOf?_eq_some_iff.1 hsome
  exact ⟨shared, hc, hp⟩

theorem faithful_kept {e : Endpoint} (h : e.Faithful) : (kept e).Faithful where
  method := h.method
  params p hp := h.params p ((StableSort.perm_sort Param.le _).mem_iff.1 hp)
  extra := h.extra

theorem faithful_flat (name : String) {cs : List Contribution} (h : ∀ c ∈ cs, c.Faithful) :
    (flat name cs).Faithful where
  params p hp := by
    obtain ⟨shared, hmem, hp⟩ := mem_params_flat hp
    exact h _ hmem p hp
  endpoints e he := by
    obtain ⟨operation, hmem, rfl⟩ := mem_endpoints_flat he
    exact faithful_kept (h _ hmem)

end Group

theorem Document.Holds.faithful {d : Document} {cs : List Contribution} (h : d.Holds cs)
    (hcs : ∀ c ∈ cs, c.Faithful) : d.Faithful := by
  intro g hg
  obtain ⟨entry, hentry, rfl⟩ := List.mem_map.1 hg
  rw [(h.eq_flat_of_mem hentry).1]
  exact Group.faithful_flat entry.1 hcs

namespace Report

theorem faithful_ofFiles (files : List SourceFile) : (ofFiles files).document.Faithful := by
  refine (accounts_ofFiles files).document.faithful fun c hc => ?_
  obtain ⟨file, -, hmem⟩ := List.mem_flatMap.1 hc
  obtain ⟨block, -, r, hr, hrecord⟩ := SourceFile.exists_record_of_mem hmem
  exact Contribution.faithful_of_ofRecord? hr hrecord

-- Kinds and methods are read once and for all: their texts are read as they are, and so is the
-- whole of what the files give.
theorem ofFiles_names_settled :
    (∀ value, ParamKind.ofText (ParamKind.ofText value).text = .ofText value) ∧
    (∀ value, Method.ofText (Method.ofText value).text = .ofText value) ∧
    (∀ value : String, Method.ofText (String.ofList (Text.upper value.toList)) = .ofText value) ∧
    (∀ block r group e, Record.ofBlock block = .ok r →
      Contribution.ofRecord? r = some (.endpoint group e) →
        ∃ l ∈ block.lines, l.tag = "api" ∧ e.method = .ofText l.methodText) ∧
    (∀ value, (ParamKind.ofText value).rank = ParamKind.order.length ↔
      ∃ name, ParamKind.ofText value = .other name) ∧
    (∀ value, (Method.ofText value).rank = Method.order.length ↔
      ∃ name, Method.ofText value = .other name) ∧
    ∀ files, (ofFiles files).document.Faithful ∧
      ∀ pretty, (Json.read? ((ofFiles files).document.render pretty)).bind Document.ofJson? =
        some (ofFiles files).document := by
  refine ⟨ParamKind.ofText_text_ofText, Method.ofText_text_ofText, Method.ofText_upper,
    fun _ _ _ _ => Contribution.exists_methodText, ParamKind.rank_ofText_eq_length_iff,
    Method.rank_ofText_eq_length_iff, fun files => ⟨faithful_ofFiles files, fun pretty => ?_⟩⟩
  have hcoded := Document.coded (faithful_ofFiles files)
  rw [Document.render, Json.read?_print hcoded.wellformed, Option.bind_some, hcoded.read_write]

end Report

end ApiCatalog
