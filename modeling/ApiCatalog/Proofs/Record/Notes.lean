import ApiCatalog.Proofs.NameMap
import ApiCatalog.Proofs.Offence

namespace ApiCatalog

namespace Keyword

theorem name_inj {a b : Keyword} (h : a.name = b.name) : a = b := by
  have hb : ofTag? a.name = some b := ofTag?_eq_some_iff.2 h
  rw [ofTag?_eq_some_iff.2 rfl] at hb
  exact Option.some.inj hb

end Keyword

namespace NameMap

theorem upsert_ne_empty {α : Type} (m : NameMap α) (name : String) (f : Option α → α) :
    m.upsert name f ≠ ∅ := by
  intro hempty
  have hget := get?_upsert m name f name
  rw [hempty, if_pos rfl, get?_empty] at hget
  cases hget

end NameMap

namespace ValueTable

def lookup (table : ValueTable) (kind field : String) : Option String :=
  (table.get? kind).bind (·.get? field)

theorem get?_add (table : ValueTable) (kind field description kind' : String) :
    (table.add kind field description).get? kind' =
      if kind' = kind then some (((table.get? kind).getD ∅).insert field description)
      else table.get? kind' :=
  NameMap.get?_upsert table kind _ kind'

theorem lookup_add (table : ValueTable) (kind field description kind' field' : String) :
    (table.add kind field description).lookup kind' field' =
      if kind' = kind ∧ field' = field then some description else table.lookup kind' field' := by
  unfold lookup
  rw [get?_add]
  by_cases hkind : kind' = kind
  · subst hkind
    simp only [if_true, true_and, Option.bind_some, NameMap.insert, NameMap.get?_upsert]
    cases table.get? kind' <;> rfl
  · simp only [hkind, if_false, false_and]

-- Nothing is kept that holds nothing.
def Filled (table : ValueTable) : Prop :=
  table ≠ ∅ ∧ ∀ kind fields, table.get? kind = some fields → fields ≠ ∅

theorem filled_add {table : ValueTable} (h : table = ∅ ∨ table.Filled)
    (kind field description : String) : (table.add kind field description).Filled := by
  refine ⟨NameMap.upsert_ne_empty _ _ _, fun kind' fields hget => ?_⟩
  rw [get?_add] at hget
  split at hget
  · cases hget
    exact NameMap.upsert_ne_empty _ _ _
  · rcases h with rfl | hfilled
    · cases hget
    · exact hfilled.2 kind' fields hget

end ValueTable

namespace StatusExamples

theorem values_addValue (s : StatusExamples) (side side' : Side)
    (kind field description : String) :
    (s.addValue side kind field description).values side' =
      if side' = side then some (((s.values side).getD ∅).add kind field description)
      else s.values side' := by
  cases side <;> cases side' <;> rfl

theorem example?_addValue (s : StatusExamples) (side side' : Side)
    (kind field description : String) :
    (s.addValue side kind field description).example? side' = s.example? side' := by
  cases side <;> cases side' <;> rfl

theorem values_setExample (s : StatusExamples) (side side' : Side) (e : Example) :
    (s.setExample side e).values side' = s.values side' := by
  cases side <;> cases side' <;> rfl

theorem example?_setExample (s : StatusExamples) (side side' : Side) (e : Example) :
    (s.setExample side e).example? side' = if side' = side then some e else s.example? side' := by
  cases side <;> cases side' <;> rfl

-- The value of a field, on one side.
def lookup (s : StatusExamples) (side : Side) (kind field : String) : Option String :=
  (s.values side).bind (·.lookup kind field)

theorem lookup_addValue (s : StatusExamples) (side side' : Side)
    (kind field description kind' field' : String) :
    (s.addValue side kind field description).lookup side' kind' field' =
      if side' = side ∧ kind' = kind ∧ field' = field then some description
      else s.lookup side' kind' field' := by
  unfold lookup
  rw [values_addValue]
  by_cases hside : side' = side
  · subst hside
    simp only [if_true, true_and, Option.bind_some, ValueTable.lookup_add]
    cases s.values side' <;> rfl
  · simp only [hside, if_false, false_and]

theorem lookup_setExample (s : StatusExamples) (side side' : Side) (e : Example)
    (kind field : String) :
    (s.setExample side e).lookup side' kind field = s.lookup side' kind field := by
  rw [lookup, values_setExample, lookup]

end StatusExamples

-- What a line says of a status code: a value of a field, or an example.
inductive Note where
  | value (side : Side) (p : Param)
  | sample (side : Side) (e : Example)

namespace Note

def status : Note → String
  | value _ p => p.status
  | sample _ e => e.status

def addTo (s : StatusExamples) : Note → StatusExamples
  | value side p => s.addValue side p.kind.text p.field p.description
  | sample side e => s.setExample side e

def putIn (m : NameMap StatusExamples) (n : Note) : NameMap StatusExamples :=
  m.upsert n.status fun s => n.addTo (s.getD {})

def ofLine? (tag detail : String) : Option Note :=
  match Keyword.ofTag? tag with
  | some (.value side) => some (value side (Param.parse detail))
  | some (.sample side) => some (sample side (Example.parse detail))
  | _ => none

theorem ofLine?_value (side : Side) (detail : String) :
    ofLine? (Keyword.value side).name detail = some (value side (Param.parse detail)) := by
  simp only [ofLine?, Keyword.ofTag?_eq_some_iff.2 rfl]

theorem ofLine?_sample (side : Side) (detail : String) :
    ofLine? (Keyword.sample side).name detail = some (sample side (Example.parse detail)) := by
  simp only [ofLine?, Keyword.ofTag?_eq_some_iff.2 rfl]

theorem eq_of_ofLine? {tag detail : String} {n : Note} (h : ofLine? tag detail = some n) :
    (∃ side, tag = (Keyword.value side).name ∧ n = value side (Param.parse detail)) ∨
      ∃ side, tag = (Keyword.sample side).name ∧ n = sample side (Example.parse detail) := by
  unfold ofLine? at h
  split at h
  · rename_i side hkey
    exact .inl ⟨side, Keyword.ofTag?_eq_some_iff.1 hkey, (Option.some.inj h).symm⟩
  · rename_i side hkey
    exact .inr ⟨side, Keyword.ofTag?_eq_some_iff.1 hkey, (Option.some.inj h).symm⟩
  · cases h

variable (m : NameMap StatusExamples) (n : Note) (status : String)

theorem get?_putIn :
    (n.putIn m).get? status =
      if status = n.status then some (n.addTo ((m.get? status).getD {})) else m.get? status := by
  rw [putIn, NameMap.get?_upsert]
  split
  · rename_i hstatus
    rw [hstatus]
  · rfl

-- Whatever is read under a status is read from the old entry with the note added to it, or
-- from the old entry as it was.
theorem bind_get?_putIn {α : Type} (read : StatusExamples → Option α) (hempty : read {} = none) :
    ∃ old, read old = (m.get? status).bind read ∧
      ((n.putIn m).get? status).bind read =
        if status = n.status then read (n.addTo old) else (m.get? status).bind read := by
  refine ⟨(m.get? status).getD {}, ?_, ?_⟩
  · cases m.get? status with
    | none => exact hempty
    | some s => rfl
  · rw [get?_putIn]
    split <;> rfl

end Note

namespace StatusExamples

-- Something is said, and nothing is kept that holds nothing.
structure Filled (s : StatusExamples) : Prop where
  said : ∃ side, (s.values side).isSome ∨ (s.example? side).isSome
  tables : ∀ side table, s.values side = some table → table.Filled

theorem filled_addTo {s : StatusExamples} (h : s = {} ∨ s.Filled) (n : Note) :
    (n.addTo s).Filled := by
  have htables : ∀ side table, s.values side = some table → table.Filled := by
    rcases h with rfl | hfilled
    · intro side table htable
      cases side <;> cases htable
    · exact hfilled.tables
  cases n with
  | value side p =>
      have hold : (s.values side).getD ∅ = ∅ ∨ ((s.values side).getD ∅).Filled := by
        cases hvalues : s.values side with
        | none => exact .inl rfl
        | some table => exact .inr (htables side table hvalues)
      refine ⟨⟨side, .inl ?_⟩, fun side' table htable => ?_⟩
      · rw [Note.addTo, values_addValue, if_pos rfl]
        rfl
      · rw [Note.addTo, values_addValue] at htable
        split at htable
        · cases htable
          exact ValueTable.filled_add hold _ _ _
        · exact htables side' table htable
  | sample side e =>
      refine ⟨⟨side, .inr ?_⟩, fun side' table htable => ?_⟩
      · rw [Note.addTo, example?_setExample, if_pos rfl]
        rfl
      · rw [Note.addTo, values_setExample] at htable
        exact htables side' table htable

end StatusExamples

namespace TagLine

-- The line gives the value of a field, on that side and under that status.
def GivesValue (side : Side) (status kind field : String) (l : TagLine) : Prop :=
  l.tag = (Keyword.value side).name ∧ (Param.parse l.detail).status = status ∧
    (Param.parse l.detail).kind.text = kind ∧ (Param.parse l.detail).field = field

instance (side : Side) (status kind field : String) :
    DecidablePred (GivesValue side status kind field) :=
  fun _ => inferInstanceAs (Decidable (_ ∧ _))

def GivesExample (side : Side) (status : String) (l : TagLine) : Prop :=
  l.tag = (Keyword.sample side).name ∧ (Example.parse l.detail).status = status

instance (side : Side) (status : String) : DecidablePred (GivesExample side status) :=
  fun _ => inferInstanceAs (Decidable (_ ∧ _))

-- The line says something under that status.
def Documents (status : String) (l : TagLine) : Prop :=
  ∃ side, (l.tag = (Keyword.value side).name ∧ (Param.parse l.detail).status = status) ∨
    (l.tag = (Keyword.sample side).name ∧ (Example.parse l.detail).status = status)

-- The last line of that sort.
def last? (p : TagLine → Prop) [DecidablePred p] (lines : List TagLine) : Option TagLine :=
  lines.reverse.find? (p ·)

theorem last?_append_singleton (p : TagLine → Prop) [DecidablePred p] (lines : List TagLine)
    (l : TagLine) : last? p (lines ++ [l]) = if p l then some l else last? p lines := by
  unfold last?
  rw [List.reverse_append, List.reverse_singleton, List.singleton_append, List.find?_cons]
  by_cases hl : p l <;> simp [hl]

end TagLine

namespace NameMap

-- What is stored for a field, on one side of a status.
def valueAt (m : NameMap StatusExamples) (side : Side) (status kind field : String) :
    Option String :=
  (m.get? status).bind (·.lookup side kind field)

def exampleAt (m : NameMap StatusExamples) (side : Side) (status : String) : Option Example :=
  (m.get? status).bind (·.example? side)

end NameMap

namespace Note

section Lookups

variable {l : TagLine} {n : Note} (h : ofLine? l.tag l.detail = some n)

include h

theorem documents_iff (status : String) : l.Documents status ↔ status = n.status := by
  rcases eq_of_ofLine? h with ⟨side, htag, rfl⟩ | ⟨side, htag, rfl⟩
  · constructor
    · rintro ⟨side', ⟨-, hstatus⟩ | ⟨htag', -⟩⟩
      · exact hstatus.symm
      · cases Keyword.name_inj (htag.symm.trans htag')
    · intro hstatus
      exact ⟨side, .inl ⟨htag, hstatus.symm⟩⟩
  · constructor
    · rintro ⟨side', ⟨htag', -⟩ | ⟨-, hstatus⟩⟩
      · cases Keyword.name_inj (htag.symm.trans htag')
      · exact hstatus.symm
    · intro hstatus
      exact ⟨side, .inr ⟨htag, hstatus.symm⟩⟩

theorem valueAt_putIn (m : NameMap StatusExamples) (side : Side) (status kind field : String) :
    (n.putIn m).valueAt side status kind field =
      if l.GivesValue side status kind field then some (Param.parse l.detail).description
      else m.valueAt side status kind field := by
  obtain ⟨old, hold, hread⟩ := bind_get?_putIn m n status (·.lookup side kind field)
    (by cases side <;> rfl)
  unfold NameMap.valueAt
  rw [hread, ← hold]
  rcases eq_of_ofLine? h with ⟨side', htag, rfl⟩ | ⟨side', htag, rfl⟩
  · have hgives : l.GivesValue side status kind field ↔ status = (Param.parse l.detail).status ∧
        side = side' ∧ kind = (Param.parse l.detail).kind.text ∧
        field = (Param.parse l.detail).field := by
      constructor
      · rintro ⟨htag', hstatus, hkind, hfield⟩
        cases Keyword.name_inj (htag.symm.trans htag')
        exact ⟨hstatus.symm, rfl, hkind.symm, hfield.symm⟩
      · rintro ⟨hstatus, rfl, hkind, hfield⟩
        exact ⟨htag, hstatus.symm, hkind.symm, hfield.symm⟩
    simp only [addTo, StatusExamples.lookup_addValue, Note.status, hgives, ite_and]
  · have hgives : ¬ l.GivesValue side status kind field := by
      rintro ⟨htag', -⟩
      cases Keyword.name_inj (htag.symm.trans htag')
    simp only [addTo, StatusExamples.lookup_setExample, hgives, if_false, ite_self]

theorem exampleAt_putIn (m : NameMap StatusExamples) (side : Side) (status : String) :
    (n.putIn m).exampleAt side status =
      if l.GivesExample side status then some (Example.parse l.detail)
      else m.exampleAt side status := by
  obtain ⟨old, hold, hread⟩ := bind_get?_putIn m n status (·.example? side) (by cases side <;> rfl)
  unfold NameMap.exampleAt
  rw [hread, ← hold]
  rcases eq_of_ofLine? h with ⟨side', htag, rfl⟩ | ⟨side', htag, rfl⟩
  · have hgives : ¬ l.GivesExample side status := by
      rintro ⟨htag', -⟩
      cases Keyword.name_inj (htag.symm.trans htag')
    simp only [addTo, StatusExamples.example?_addValue, hgives, if_false, ite_self]
  · have hgives : l.GivesExample side status ↔
        status = (Example.parse l.detail).status ∧ side = side' := by
      constructor
      · rintro ⟨htag', hstatus⟩
        cases Keyword.name_inj (htag.symm.trans htag')
        exact ⟨hstatus.symm, rfl⟩
      · rintro ⟨hstatus, rfl⟩
        exact ⟨htag, hstatus.symm⟩
    simp only [addTo, StatusExamples.example?_setExample, Note.status, hgives, ite_and]

end Lookups

end Note

namespace Record

-- The examples of a record are an index of its lines: each place holds what the last line for
-- it says, and there is no place that no line speaks of.
structure Indexes (lines : List TagLine) (m : NameMap StatusExamples) : Prop where
  value_eq : ∀ side status kind field,
    m.valueAt side status kind field =
      (TagLine.last? (TagLine.GivesValue side status kind field) lines).map
        fun l => (Param.parse l.detail).description
  example_eq : ∀ side status,
    m.exampleAt side status =
      (TagLine.last? (TagLine.GivesExample side status) lines).map
        fun l => Example.parse l.detail
  mem_keys_iff : ∀ status, status ∈ m.keys ↔ ∃ l ∈ lines, l.Documents status
  filled : ∀ status s, m.get? status = some s → status ≠ "" ∧ s.Filled

theorem indexes_nil : Indexes [] ∅ where
  value_eq _ _ _ _ := rfl
  example_eq _ _ := rfl
  mem_keys_iff status := by simp [NameMap.mem_keys_iff]
  filled status s hs := by cases hs

theorem Indexes.putIn {lines : List TagLine} {m : NameMap StatusExamples} {l : TagLine} {n : Note}
    (h : Indexes lines m) (hn : Note.ofLine? l.tag l.detail = some n) (hstatus : n.status ≠ "") :
    Indexes (lines ++ [l]) (n.putIn m) where
  value_eq side status kind field := by
    rw [Note.valueAt_putIn hn, TagLine.last?_append_singleton, h.value_eq]
    split <;> rfl
  example_eq side status := by
    rw [Note.exampleAt_putIn hn, TagLine.last?_append_singleton, h.example_eq]
    split <;> rfl
  mem_keys_iff status := by
    rw [NameMap.mem_keys_iff, Note.get?_putIn]
    simp only [List.mem_append, List.mem_singleton, or_and_right, exists_or, exists_eq_left,
      Note.documents_iff hn, ← h.mem_keys_iff, NameMap.mem_keys_iff]
    split <;> simp_all
  filled status s hs := by
    rw [Note.get?_putIn] at hs
    split at hs
    · rename_i heq
      cases hs
      refine ⟨heq ▸ hstatus, StatusExamples.filled_addTo ?_ n⟩
      cases hold : m.get? status with
      | none => exact .inl rfl
      | some old => exact .inr (h.filled status old hold).2
    · exact h.filled status s hs

theorem Indexes.skip {lines : List TagLine} {m : NameMap StatusExamples} {l : TagLine}
    (h : Indexes lines m) (hl : Note.ofLine? l.tag l.detail = none) :
    Indexes (lines ++ [l]) m := by
  have hvalue : ∀ side, l.tag ≠ (Keyword.value side).name := by
    intro side htag
    rw [htag, Note.ofLine?_value] at hl
    cases hl
  have hsample : ∀ side, l.tag ≠ (Keyword.sample side).name := by
    intro side htag
    rw [htag, Note.ofLine?_sample] at hl
    cases hl
  refine ⟨fun side status kind field => ?_, fun side status => ?_, fun status => ?_, h.filled⟩
  · rw [TagLine.last?_append_singleton, if_neg fun hgives => hvalue side hgives.1, h.value_eq]
  · rw [TagLine.last?_append_singleton, if_neg fun hgives => hsample side hgives.1, h.example_eq]
  · rw [h.mem_keys_iff]
    have hdocuments : ¬ l.Documents status := by
      rintro ⟨side, hgives | hgives⟩
      · exact hvalue side hgives.1
      · exact hsample side hgives.1
    simp only [List.mem_append, List.mem_singleton, or_and_right, exists_or, exists_eq_left,
      hdocuments, or_false]

theorem Step.examples_cases {r r' : Record} {tag detail : String} (h : r.Step tag detail r') :
    (∃ n, Note.ofLine? tag detail = some n ∧ n.status ≠ "" ∧ r'.examples = n.putIn r.examples) ∨
      (Note.ofLine? tag detail = none ∧ r'.examples = r.examples) := by
  cases h with
  | defineGroup htag => exact .inr ⟨by rw [htag]; rfl, rfl⟩
  | declareEndpoint htag => exact .inr ⟨by rw [htag]; rfl, rfl⟩
  | addParam htag => exact .inr ⟨by rw [htag]; rfl, rfl⟩
  | setPermissions htag => exact .inr ⟨by rw [htag]; rfl, rfl⟩
  | @addValue side htag hstatus =>
      exact .inl ⟨.value side (Param.parse detail), by rw [htag, Note.ofLine?_value], hstatus, rfl⟩
  | @addExample side htag hstatus =>
      exact .inl ⟨.sample side (Example.parse detail), by rw [htag, Note.ofLine?_sample], hstatus,
        rfl⟩
  | setPlain htag => exact .inr ⟨by simp only [Note.ofLine?, htag], by rw [setPlain_eq]⟩

theorem Step.indexes {r r' : Record} {earlier : List TagLine} {l : TagLine}
    (hr : Indexes earlier r.examples) (h : r.Step l.tag l.detail r') :
    Indexes (earlier ++ [l]) r'.examples := by
  rcases h.examples_cases with ⟨n, hn, hstatus, heq⟩ | ⟨hnone, heq⟩
  · rw [heq]
    exact hr.putIn hn hstatus
  · rw [heq]
    exact hr.skip hnone

theorem indexes_ofBlock {block : Block} {r : Record} (h : ofBlock block = .ok r) :
    Indexes block.lines r.examples := by
  obtain ⟨s, title, description, hs, rfl⟩ :=
    ofBlock_keeps (P := fun lines r => Indexes lines r.examples) Step.indexes indexes_nil h
  exact hs

-- The examples of a block are the last word of its lines on each place, and nothing else.
theorem ofBlock_indexes_examples {block : Block} {r : Record} (h : ofBlock block = .ok r) :
    Indexes block.lines r.examples ∧
      ∀ side status e, r.examples.exampleAt side status = some e → e.status = status := by
  have hindexes := indexes_ofBlock h
  refine ⟨hindexes, fun side status e he => ?_⟩
  rw [hindexes.example_eq] at he
  obtain ⟨l, hl, rfl⟩ := Option.map_eq_some_iff.1 he
  have hgives := List.find?_some hl
  exact (of_decide_eq_true hgives).2

def greetingBlock : Block :=
  { path := "greet.js", location := .start, summary := "",
    lines :=
      [⟨"api", "\x7bget\x7d /greet", 2⟩, ⟨"requestvalue", "<200> (body) name - Ann", 3⟩,
        ⟨"responsevalue", "<200> (body) name - Eve", 4⟩, ⟨"responseexample", "<200> First", 5⟩,
        ⟨"requestvalue", "<200> (body) name - Bob", 6⟩, ⟨"responseexample", "<200> Second", 7⟩] }

theorem ofBlock_greetingBlock_indexes :
    ∃ r, ofBlock greetingBlock = .ok r ∧ Indexes greetingBlock.lines r.examples ∧
      r.examples.valueAt .request "200" "body" "name" = some "Bob" ∧
      r.examples.valueAt .response "200" "body" "name" = some "Eve" ∧
      r.examples.exampleAt .response "200" = some (Example.parse "<200> Second") ∧
      r.examples.exampleAt .request "200" = none := by
  have hclean : greetingBlock.offences = [] := by decide +kernel
  obtain ⟨r, hr, -⟩ := ofBlock_of_clean hclean
  have hindexes := (ofBlock_indexes_examples hr).1
  refine ⟨r, hr, hindexes, ?_, ?_, ?_, ?_⟩
  · rw [hindexes.value_eq]
    decide +kernel
  · rw [hindexes.value_eq]
    decide +kernel
  · rw [hindexes.example_eq]
    decide +kernel
  · rw [hindexes.example_eq]
    decide +kernel

end Record

end ApiCatalog
