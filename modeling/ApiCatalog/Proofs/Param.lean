import ApiCatalog.Proofs.Section
import ApiCatalog.Record

namespace ApiCatalog.Param

-- The field, with what it falls back to if there is something.
def bare (p : Param) : String :=
  if p.fallback = "" then p.field else p.field ++ "=" ++ p.fallback

-- Square brackets stand around what may be left out.
def token (p : Param) : String := if p.optional then "[" ++ p.bare ++ "]" else p.bare

-- All that stands in front of the description.
def lead (p : Param) : String :=
  (if p.status = "" then "" else "<" ++ p.status ++ "> ") ++ "(" ++ p.kind.text ++ ") \x7b" ++
    p.constraint ++ "\x7d " ++ p.token ++ " - "

def write (p : Param) : String := p.lead ++ p.description

-- No piece of the param can be mistaken for the end of the place it is written in.
structure Writable (p : Param) : Prop where
  kind_ne : p.kind.text ≠ ""
  kind_unclosed : ')' ∉ p.kind.text.toList
  kind_unbroken : '\n' ∉ p.kind.text.toList
  kind_fixed : ParamKind.ofText p.kind.text = p.kind
  status_unclosed : '>' ∉ p.status.toList
  status_unbroken : '\n' ∉ p.status.toList
  constraint_ne : p.constraint ≠ ""
  constraint_unclosed : '}' ∉ p.constraint.toList
  constraint_unbroken : '\n' ∉ p.constraint.toList
  field_ne : p.field ≠ ""
  field_solid : ∀ c ∈ p.field.toList, Text.isBlank c = false
  field_unassigned : '=' ∉ p.field.toList
  field_bare : p.optional = false → p.field.toList.head? ≠ some '['
  fallback_solid : ∀ c ∈ p.fallback.toList, Text.isBlank c = false
  description_trimmed : Text.Trimmed p.description.toList

section Token

-- What stands in square brackets, and whether it does.
def unwrap (name : List Char) : List Char × Bool :=
  match name with
  | '[' :: rest =>
      match Text.dropSuffix? rest [']'] with
      | some inner@(_ :: _) => (inner, true)
      | _ => (name, false)
  | _ => (name, false)

-- What stands in front of an equals sign, and behind it.
def assignment (token : List Char) : List Char × List Char :=
  match Text.cut? ['='] token with
  | some (field, value) => (Text.trim field, Text.trim value)
  | none => (token, [])

theorem parse_eq (detail : String) :
    let s := Section.parse detail .withName
    let name := unwrap s.name.toList
    parse detail =
      { kind := .ofText s.paren
        field := String.ofList (assignment name.1).1
        constraint := if s.curly = "" then "string" else s.curly
        description := String.ofList (Text.trim s.description.toList)
        fallback := String.ofList (assignment name.1).2
        status := s.tag
        optional := name.2 } := by
  -- With the section left open, there is nothing that could be computed from the text.
  unfold parse
  generalize Section.parse detail .withName = s
  rfl

theorem unwrap_bracketed {inner : List Char} (hne : inner ≠ []) :
    unwrap ('[' :: (inner ++ [']'])) = (inner, true) := by
  obtain ⟨c, rest, rfl⟩ := List.exists_cons_of_ne_nil hne
  simp only [unwrap, Text.dropSuffix?_eq_some_iff.2 rfl]

theorem unwrap_bare {name : List Char} (h : name.head? ≠ some '[') :
    unwrap name = (name, false) := by
  unfold unwrap
  split
  · exact absurd rfl h
  · rfl

theorem assignment_append_cons {field value : List Char} (hfield : '=' ∉ field)
    (hsolid : ∀ c ∈ field, Text.isBlank c = false) (hvalue : ∀ c ∈ value, Text.isBlank c = false) :
    assignment (field ++ '=' :: value) = (field, value) := by
  simp only [assignment, Text.cut?_append_cons hfield, (Text.trimmed_of_solid hsolid).trim_eq,
    (Text.trimmed_of_solid hvalue).trim_eq]

theorem assignment_of_not_mem {token : List Char} (h : '=' ∉ token) :
    assignment token = (token, []) := by
  have hnone : Text.cut? ['='] token = none := by
    rw [Text.cut?_eq_none_iff, List.singleton_infix_iff]
    exact h
  simp only [assignment, hnone]

theorem equals_not_mem_assignment (token : List Char) : '=' ∉ (assignment token).1 := by
  unfold assignment
  split
  · rename_i field value hcut
    exact fun hmem => Text.not_mem_of_cut?_eq_some hcut (Text.mem_of_mem_trim hmem)
  · rename_i hnone
    rw [Text.cut?_eq_none_iff, List.singleton_infix_iff] at hnone
    exact hnone

end Token

section Writing

variable {p : Param}

theorem Writable.assignment_bare (h : p.Writable) :
    assignment p.bare.toList = (p.field.toList, p.fallback.toList) := by
  unfold bare
  split
  · rename_i hnone
    rw [assignment_of_not_mem h.field_unassigned, hnone]
    rfl
  · rw [String.toList_append, String.toList_append, List.append_assoc]
    exact assignment_append_cons h.field_unassigned h.field_solid h.fallback_solid

theorem Writable.bare_solid (h : p.Writable) : ∀ c ∈ p.bare.toList, Text.isBlank c = false := by
  intro c hc
  unfold bare at hc
  split at hc
  · exact h.field_solid c hc
  · rw [String.toList_append, String.toList_append, List.append_assoc, List.mem_append] at hc
    rcases hc with hc | hc
    · exact h.field_solid c hc
    · rcases List.mem_cons.1 hc with rfl | hc
      · decide
      · exact h.fallback_solid c hc

theorem Writable.head?_bare (h : p.Writable) : p.bare.toList.head? = p.field.toList.head? := by
  have hne : p.field.toList ≠ [] := mt String.toList_eq_nil_iff.1 h.field_ne
  unfold bare
  split
  · rfl
  · rw [String.toList_append, String.toList_append, List.append_assoc,
      List.head?_append_of_ne_nil _ hne]

theorem Writable.bare_ne_nil (h : p.Writable) : p.bare.toList ≠ [] := by
  intro hnil
  have hhead := h.head?_bare
  rw [hnil] at hhead
  exact h.field_ne (String.toList_eq_nil_iff.1 (List.head?_eq_none_iff.1 hhead.symm))

theorem toList_token (p : Param) :
    p.token.toList = if p.optional then '[' :: (p.bare.toList ++ [']']) else p.bare.toList := by
  unfold token
  split <;> simp

theorem Writable.token_solid (h : p.Writable) : ∀ c ∈ p.token.toList, Text.isBlank c = false := by
  intro c hc
  rw [toList_token] at hc
  split at hc
  · simp only [List.mem_cons, List.mem_append, List.not_mem_nil, or_false] at hc
    rcases hc with rfl | hc | rfl
    · decide
    · exact h.bare_solid c hc
    · decide
  · exact h.bare_solid c hc

theorem Writable.token_ne_nil (h : p.Writable) : p.token.toList ≠ [] := by
  rw [toList_token]
  split
  · simp
  · exact h.bare_ne_nil

theorem Writable.unwrap_token (h : p.Writable) :
    unwrap p.token.toList = (p.bare.toList, p.optional) := by
  rw [toList_token]
  cases hoptional : p.optional with
  | true => exact unwrap_bracketed h.bare_ne_nil
  | false => exact unwrap_bare (h.head?_bare ▸ h.field_bare hoptional)

-- Where each piece stands on the first line.
def layout (p : Param) : Section.Layout where
  beforeTag := []
  tag := p.status.toList
  beforeParen := if p.status = "" then [] else [' ']
  paren := p.kind.text.toList
  beforeCurly := [' ']
  curly := p.constraint.toList
  beforeName := [' ']
  name := p.token.toList
  beforeDash := [' ']
  dash := true
  beforeText := [' ']
  text := (Section.splitFirst p.description.toList).1

theorem Writable.line_layout (h : p.Writable) :
    p.layout.line = p.lead.toList ++ (Section.splitFirst p.description.toList).1 := by
  have hkind := h.kind_ne
  have hconstraint := h.constraint_ne
  by_cases hstatus : p.status = "" <;>
    simp [Section.Layout.line, Section.Layout.fromParen, Section.Layout.fromCurly,
      Section.Layout.fromName, Section.Layout.fromDash, Section.enclosed, Section.dashText, layout,
      lead, hkind, hconstraint, hstatus]

theorem Writable.lead_unbroken (h : p.Writable) : '\n' ∉ p.lead.toList := by
  have htoken : '\n' ∉ p.token.toList := fun hmem => absurd (h.token_solid _ hmem) (by decide)
  have hkind := h.kind_unbroken
  have hconstraint := h.constraint_unbroken
  have hstatus := h.status_unbroken
  unfold lead
  split <;> simp [htoken, hkind, hconstraint, hstatus]

theorem Writable.proper_layout (h : p.Writable) : p.layout.Proper .withName := by
  obtain ⟨c, hc⟩ := List.exists_mem_of_ne_nil _ h.token_ne_nil
  have hmem : c ∈ p.layout.fromName := by simp [Section.Layout.fromName, layout, hc]
  have hleft : ∀ before : List Char, ¬ Text.allBlank (before ++ p.layout.fromName) := fun before =>
    Text.not_allBlank_of_mem (List.mem_append_right before hmem) (h.token_solid c hc)
  refine ⟨?_, ?_, ?_, ?_, ?_⟩
  · by_cases hstatus : p.status = ""
    · have hnext : p.layout.fromParen.head? = some '(' := by
        simp [Section.Layout.fromParen, Section.enclosed, layout, hstatus, h.kind_ne]
      have habsent : p.layout.tag = [] := by simp [layout, hstatus]
      rw [habsent]
      refine Section.part_of_head? (by decide) fun d hd => ?_
      rw [hnext] at hd
      cases hd
      decide
    · refine Section.part_of_offered rfl (by simpa [layout] using hstatus) h.status_unclosed
        fun _ => ?_
      rw [Section.Layout.fromParen, Section.Layout.fromCurly, ← List.append_assoc]
      exact hleft _
  · refine Section.part_of_offered ?_ (by simpa [layout] using h.kind_ne) h.kind_unclosed
      fun _ => hleft _
    unfold layout
    split <;> rfl
  · exact Section.part_of_offered rfl (by simpa [layout] using h.constraint_ne)
      h.constraint_unclosed fun _ => hleft []
  · refine ⟨rfl, h.token_solid, fun _ => ⟨h.token_ne_nil, fun d hd => ?_⟩,
      fun hother => absurd rfl hother⟩
    have hspace : p.layout.fromDash.head? = some ' ' := rfl
    rw [hspace] at hd
    cases hd
    decide
  · refine ⟨rfl, rfl, fun d hd => ?_, fun hdash => by cases hdash⟩
    have hfirst : d ∈ (p.description.toList.takeWhile (· != '\n')).head? := hd
    rw [List.head?_takeWhile, Option.mem_def, Option.filter_eq_some_iff] at hfirst
    exact h.description_trimmed.1 d hfirst.1

theorem Writable.section_write (h : p.Writable) :
    Section.parse p.write .withName =
      { tag := p.status
        paren := p.kind.text
        curly := p.constraint
        name := p.token
        description := p.description } := by
  have hsplit : Section.splitFirst p.write.toList =
      (p.layout.line, (Section.splitFirst p.description.toList).2) := by
    rw [write, String.toList_append, Section.splitFirst_append h.lead_unbroken, h.line_layout]
  have hdescription := Section.continued_splitFirst h.description_trimmed
  rw [h.proper_layout.parse_eq (by rw [hsplit]), hsplit, Section.Layout.toSection]
  simp only [← Section.continued_eq]
  simp [layout, hdescription]

end Writing

-- Reading a written param gives it back, and no field that is read has an equals sign in it.
theorem parse_undoes_write :
    (∀ p : Param, p.Writable → parse p.write = p) ∧
      ∀ detail : String, '=' ∉ (parse detail).field.toList := by
  refine ⟨fun p h => ?_, fun detail => ?_⟩
  · simp only [parse_eq, h.section_write, h.unwrap_token, h.assignment_bare, h.kind_fixed,
      if_neg h.constraint_ne, h.description_trimmed.trim_eq, String.ofList_toList]
  · rw [parse_eq, String.toList_ofList]
    exact equals_not_mem_assignment _

-- Brackets, dashes and equals signs stand where they could mislead, and the description has
-- two lines.
def writableSample : Param :=
  { kind := .other "f(o", field := "[a]-", constraint := "\x7b>(",
    description := "- <b> \n (c)-",
    fallback := "]=x]", status := "(2\x7b", optional := true }

theorem parse_write_sample :
    writableSample.Writable ∧
      writableSample.write = "<(2\x7b> (f(o) \x7b\x7b>(\x7d [[a]-=]=x]] - - <b> \n (c)-" ∧
      parse writableSample.write = writableSample := by
  have hsolid : ∀ s : List Char, s.all (!Text.isBlank ·) → ∀ c ∈ s, Text.isBlank c = false := by
    simp
  have h : writableSample.Writable := by
    constructor
    case field_solid => exact hsolid _ (by decide +kernel)
    case fallback_solid => exact hsolid _ (by decide +kernel)
    all_goals decide +kernel
  exact ⟨h, by decide +kernel, parse_undoes_write.1 writableSample h⟩

end ApiCatalog.Param
