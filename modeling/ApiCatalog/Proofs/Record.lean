import ApiCatalog.Record
import Mathlib.Tactic.SplitIfs

namespace ApiCatalog

theorem Side.exists_iff {p : Side → Prop} : (∃ side, p side) ↔ p .request ∨ p .response := by
  constructor
  · rintro ⟨_ | _, hside⟩
    · exact .inl hside
    · exact .inr hside
  · rintro (hside | hside)
    · exact ⟨.request, hside⟩
    · exact ⟨.response, hside⟩

namespace Keyword

-- How a tag of the vocabulary is spelled.
def name : Keyword → String
  | defineGroup => "definegroup"
  | api => "api"
  | param => "param"
  | permissions => "permissions"
  | value .request => "requestvalue"
  | value .response => "responsevalue"
  | .sample .request => "requestexample"
  | .sample .response => "responseexample"

theorem ofTag?_eq_some_iff {tag : String} {keyword : Keyword} :
    ofTag? tag = some keyword ↔ tag = keyword.name := by
  constructor
  · intro h
    obtain ⟨front, back, hsplit, -⟩ := List.lookup_eq_some_iff.1 h
    have hmem : (tag, keyword) ∈ vocabulary := by simp [hsplit]
    simp only [vocabulary, List.mem_cons, Prod.mk.injEq, List.not_mem_nil, or_false] at hmem
    rcases hmem with h | h | h | h | h | h | h | h <;> rw [h.1, h.2] <;> rfl
  · rintro rfl
    rcases keyword with _ | _ | _ | _ | (_ | _) | (_ | _) <;> rfl

theorem exists_value_iff {tag : String} :
    (∃ side, tag = (value side).name) ↔ tag = "requestvalue" ∨ tag = "responsevalue" :=
  Side.exists_iff (p := fun side => tag = (value side).name)

theorem exists_sample_iff {tag : String} :
    (∃ side, tag = (Keyword.sample side).name) ↔
      tag = "requestexample" ∨ tag = "responseexample" :=
  Side.exists_iff (p := fun side => tag = (Keyword.sample side).name)

end Keyword

namespace Record

-- All that one line can do to a record without breaking a rule.
inductive Step (r : Record) (tag detail : String) : Record → Prop where
  | defineGroup (htag : tag = "definegroup") (hfree : r.identity = none) :
      Step r tag detail { r with
        identity := some .group
        url := (Section.parse detail .nameOnly).name
        group := (Section.parse detail .nameOnly).paren
        description := (Section.parse detail .nameOnly).description }
  | declareEndpoint (htag : tag = "api") (hfree : r.identity = none) :
      Step r tag detail { r with
        identity := some .endpoint
        method := String.ofList (Text.upper (Section.parse detail .withName).curly.toList)
        url := (Section.parse detail .withName).name
        title := (Section.parse detail .withName).description }
  | addParam (htag : tag = "param") : Step r tag detail (r.addParam detail)
  | setPermissions {access : Access} (htag : tag = "permissions")
      (haccess : Access.ofText? (Section.parse detail .descriptionOnly).paren = some access) :
      Step r tag detail { r with
        permissions := ⟨access, if access = .role then
          some (Section.parse detail .descriptionOnly).description else none⟩ }
  | addValue {side : Side} (htag : tag = (Keyword.value side).name)
      (hstatus : (Param.parse detail).status ≠ "") :
      Step r tag detail { r with
        examples := r.examples.upsert (Param.parse detail).status fun s =>
          (s.getD {}).addValue side (Param.parse detail).kind.text (Param.parse detail).field
            (Param.parse detail).description }
  | addExample {side : Side} (htag : tag = (Keyword.sample side).name)
      (hstatus : (Example.parse detail).status ≠ "") :
      Step r tag detail { r with
        examples := r.examples.upsert (Example.parse detail).status fun s =>
          (s.getD {}).setExample side (Example.parse detail) }
  | setPlain (htag : Keyword.ofTag? tag = none) : Step r tag detail (r.setPlain tag detail)

-- All the ways in which it can break one.
inductive Breach (r : Record) (tag detail : String) : Violation → Prop where
  | secondIdentity {existing : Identity} (htag : tag = "definegroup" ∨ tag = "api")
      (hdeclared : r.identity = some existing) :
      Breach r tag detail (.secondIdentity (r.declared existing))
  | unknownAccess (htag : tag = "permissions")
      (haccess : Access.ofText? (Section.parse detail .descriptionOnly).paren = none) :
      Breach r tag detail (.unknownAccess (Section.parse detail .descriptionOnly).paren)
  | valueStatus {side : Side} (htag : tag = (Keyword.value side).name)
      (hstatus : (Param.parse detail).status = "") :
      Breach r tag detail (.missingStatus r.title (Keyword.valueTag side))
  | exampleStatus {side : Side} (htag : tag = (Keyword.sample side).name)
      (hstatus : (Example.parse detail).status = "") :
      Breach r tag detail (.missingStatus r.title (Keyword.sampleTag side))

-- Every line does one of the two.
theorem apply_cases (r : Record) (tag detail : String) :
    (∃ r', r.apply tag detail = .ok r' ∧ r.Step tag detail r') ∨
      ∃ v, r.apply tag detail = .error v ∧ r.Breach tag detail v := by
  cases hkey : Keyword.ofTag? tag with
  | none => exact .inl ⟨_, by simp only [apply, hkey], .setPlain hkey⟩
  | some keyword =>
      have htag := Keyword.ofTag?_eq_some_iff.1 hkey
      cases keyword with
      | defineGroup =>
          simp only [apply, hkey, Record.defineGroup, claim]
          cases hidentity : r.identity with
          | none => exact .inl ⟨_, rfl, .defineGroup htag hidentity⟩
          | some existing => exact .inr ⟨_, rfl, .secondIdentity (.inl htag) hidentity⟩
      | api =>
          simp only [apply, hkey, Record.declareEndpoint, claim]
          cases hidentity : r.identity with
          | none => exact .inl ⟨_, rfl, .declareEndpoint htag hidentity⟩
          | some existing => exact .inr ⟨_, rfl, .secondIdentity (.inr htag) hidentity⟩
      | param => exact .inl ⟨_, by simp only [apply, hkey], .addParam htag⟩
      | permissions =>
          simp only [apply, hkey, setPermissions]
          cases haccess : Access.ofText? (Section.parse detail .descriptionOnly).paren with
          | none => exact .inr ⟨_, rfl, .unknownAccess htag haccess⟩
          | some access => exact .inl ⟨_, rfl, .setPermissions htag haccess⟩
      | value side =>
          simp only [apply, hkey, addValue]
          split
          · rename_i hstatus
            exact .inr ⟨_, rfl, .valueStatus htag hstatus⟩
          · rename_i hstatus
            exact .inl ⟨_, rfl, .addValue htag hstatus⟩
      | sample side =>
          simp only [apply, hkey, addExample]
          split
          · rename_i hstatus
            exact .inr ⟨_, rfl, .exampleStatus htag hstatus⟩
          · rename_i hstatus
            exact .inl ⟨_, rfl, .addExample htag hstatus⟩

theorem step_of_apply {r r' : Record} {tag detail : String} (h : r.apply tag detail = .ok r') :
    r.Step tag detail r' := by
  rcases r.apply_cases tag detail with ⟨r'', hok, hstep⟩ | ⟨v, herror, -⟩
  · rw [h] at hok
    cases hok
    exact hstep
  · rw [h] at herror
    cases herror

-- The tags that overwrite a text field.
def textNames : List String := ["group", "description", "title", "url", "src"]

-- All that a plain tag writes, field by field.
theorem setPlain_eq (r : Record) (tag detail : String) :
    r.setPlain tag detail = { r with
      group := if tag = "group" then plainText detail else r.group
      description := if tag = "description" then plainText detail else r.description
      title := if tag = "title" then plainText detail else r.title
      url := if tag = "url" then plainText detail else r.url
      src := if tag = "src" then plainText detail else r.src
      extra := if tag ∈ textNames ++ structuredNames then r.extra
        else r.extra.insert tag (plainText detail) } := by
  by_cases htext : tag ∈ textNames
  · simp only [textNames, List.mem_cons, List.not_mem_nil, or_false] at htext
    rcases htext with rfl | rfl | rfl | rfl | rfl <;> rfl
  · obtain ⟨hgroup, hdescription, htitle, hurl, hsrc⟩ : tag ≠ "group" ∧ tag ≠ "description" ∧
        tag ≠ "title" ∧ tag ≠ "url" ∧ tag ≠ "src" := by
      simpa [textNames] using htext
    simp only [setPlain, if_neg hgroup, if_neg hdescription, if_neg htitle, if_neg hurl,
      if_neg hsrc, List.contains_iff_mem, List.mem_append, htext, false_or]
    split <;> rfl

theorem src_setPlain {tag : String} (h : tag ≠ "src") (r : Record) (detail : String) :
    (r.setPlain tag detail).src = r.src := by
  simp only [setPlain]
  split_ifs <;> rfl

theorem Step.src_eq {r r' : Record} {tag detail : String} (h : r.Step tag detail r')
    (htag : tag ≠ "src") : r'.src = r.src := by
  cases h with
  | setPlain => exact src_setPlain htag r detail
  | _ => rfl

theorem applyLines_cons_ok {r r' : Record} {path : String} {l : TagLine} {rest : List TagLine}
    (h : r.applyLines path (l :: rest) = .ok r') :
    ∃ s, r.Step l.tag l.detail s ∧ s.applyLines path rest = .ok r' := by
  rw [applyLines] at h
  split at h
  · rename_i s hs
    exact ⟨s, step_of_apply hs, h⟩
  · cases h

theorem src_applyLines {r r' : Record} {path : String} {lines : List TagLine}
    (hsrc : ∀ l ∈ lines, l.tag ≠ "src") (h : r.applyLines path lines = .ok r') :
    r'.src = r.src := by
  induction lines generalizing r with
  | nil =>
      cases h
      rfl
  | cons l rest ih =>
      obtain ⟨s, hstep, hrest⟩ := applyLines_cons_ok h
      have hl : l.tag ≠ "src" := hsrc l (by simp)
      rw [ih (fun m hm => hsrc m (List.mem_cons_of_mem l hm)) hrest, hstep.src_eq hl]

theorem exists_withSummary (r : Record) (summary : String) :
    ∃ title description, r.withSummary summary = { r with title, description } := by
  unfold withSummary
  split
  · split
    · exact ⟨summary, r.description, rfl⟩
    · exact ⟨r.title, r.description, rfl⟩
  · split
    · exact ⟨r.title, summary, rfl⟩
    · exact ⟨r.title, r.description, rfl⟩
  · exact ⟨r.title, r.description, rfl⟩

theorem ofBlock_ok {block : Block} {r : Record} (h : ofBlock block = .ok r) :
    ∃ s, applyLines { src := block.path } block.path block.lines = .ok s ∧
      r = s.withSummary block.summary := by
  unfold ofBlock at h
  split at h
  · rename_i s hs
    cases h
    exact ⟨s, hs, rfl⟩
  · cases h

section Runs

variable {P : List TagLine → Record → Prop}
  (hstep : ∀ {earlier l r r'}, P earlier r → r.Step l.tag l.detail r' → P (earlier ++ [l]) r')

include hstep

-- What one line keeps of the record and the lines above it is kept by all lines.
theorem applyLines_keeps {r r' : Record} {path : String} {earlier lines : List TagLine}
    (hr : P earlier r) (h : r.applyLines path lines = .ok r') : P (earlier ++ lines) r' := by
  induction lines generalizing r earlier with
  | nil =>
      cases h
      simpa using hr
  | cons l rest ih =>
      obtain ⟨s, hs, hrest⟩ := applyLines_cons_ok h
      simpa using ih (hstep hr hs) hrest

-- A block's record is what its lines make of it, but for a title or a description that the
-- summary stands in for.
theorem ofBlock_keeps {block : Block} {r : Record} (hstart : P [] { src := block.path })
    (h : ofBlock block = .ok r) :
    ∃ s title description, P block.lines s ∧ r = { s with title, description } := by
  obtain ⟨s, hs, rfl⟩ := ofBlock_ok h
  obtain ⟨title, description, hsummary⟩ := s.exists_withSummary block.summary
  exact ⟨s, title, description, by simpa using applyLines_keeps hstep hstart hs, hsummary⟩

end Runs

-- Only one tag can move an endpoint to another file.
theorem src_ofBlock {block : Block} {r : Record} (hsrc : ∀ l ∈ block.lines, l.tag ≠ "src")
    (h : ofBlock block = .ok r) : r.src = block.path := by
  obtain ⟨s, hs, rfl⟩ := ofBlock_ok h
  obtain ⟨title, description, hsummary⟩ := s.exists_withSummary block.summary
  rw [hsummary]
  exact src_applyLines hsrc hs

end Record

end ApiCatalog
