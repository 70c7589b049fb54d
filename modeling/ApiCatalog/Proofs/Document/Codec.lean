import ApiCatalog.Document.Codec
import ApiCatalog.Proofs.Json.Reading
import ApiCatalog.Proofs.NameMap
import Mathlib.Tactic.MkIffOfInductiveProp

namespace ApiCatalog

namespace Json

theorem mapM_eq_some {α β : Type} {g : α → Option β} {f : α → β} {l : List α}
    (h : ∀ x ∈ l, g x = some (f x)) : l.mapM g = some (l.map f) := by
  induction l with
  | nil => rfl
  | cons x rest ih =>
      have hrest := ih fun y hy => h y (List.mem_cons_of_mem x hy)
      rw [List.mapM_cons, h x List.mem_cons_self, hrest]
      rfl

-- The members of a record, one for each of its parts that is there.
def present : List String → List (Option Json) → List (String × Json)
  | name :: names, part :: parts => (part.map (name, ·)).toList ++ present names parts
  | _, _ => []

theorem fst_mem_of_mem_present {names : List String} {parts : List (Option Json)}
    {m : String × Json} (h : m ∈ present names parts) : m.1 ∈ names := by
  induction names generalizing parts with
  | nil => simp [present] at h
  | cons name names ih =>
      cases parts with
      | nil => simp [present] at h
      | cons part parts =>
          rw [present, List.mem_append] at h
          rcases h with hpart | hrest
          · obtain ⟨value, -, rfl⟩ := Option.map_eq_some_iff.1 (Option.mem_toList.1 hpart)
            exact List.mem_cons_self
          · exact List.mem_cons_of_mem name (ih hrest)

theorem filter_name_eq_nil {members : List (String × Json)} {name : String}
    (h : ∀ m ∈ members, m.1 ≠ name) : members.filter (·.1 == name) = [] := by
  rw [List.filter_eq_nil_iff]
  intro m hm
  simpa using h m hm

theorem member?_head {name : String} {rest : List (String × Json)} (h : ∀ m ∈ rest, m.1 ≠ name)
    (part : Option Json) : member? ((part.map (name, ·)).toList ++ rest) name = some part := by
  cases part with
  | none => simp [member?, filter_name_eq_nil h]
  | some value => simp [member?, filter_name_eq_nil h]

theorem member?_tail {name other : String} (h : other ≠ name) (part : Option Json)
    (rest : List (String × Json)) :
    member? ((part.map (other, ·)).toList ++ rest) name = member? rest name := by
  cases part with
  | none => rfl
  | some value => simp [member?, h]

-- Each part is found under its name, whatever other members there are.
theorem member?_present {names : List String} {parts : List (Option Json)} (hnodup : names.Nodup)
    {extra : List (String × Json)} (hextra : ∀ m ∈ extra, m.1 ∉ names) {name : String}
    {part : Option Json} (hmem : (name, part) ∈ names.zip parts) :
    member? (present names parts ++ extra) name = some part := by
  induction names generalizing parts with
  | nil => simp at hmem
  | cons first names ih =>
      cases parts with
      | nil => simp at hmem
      | cons firstPart parts =>
          obtain ⟨hfirst, hnames⟩ := List.nodup_cons.1 hnodup
          rw [present, List.append_assoc]
          rcases List.mem_cons.1 hmem with heq | hlater
          · obtain ⟨rfl, rfl⟩ : name = first ∧ part = firstPart := Prod.mk.inj heq
            refine member?_head (fun m hm hname => ?_) part
            rcases List.mem_append.1 hm with hpresent | hm
            · exact hfirst (hname ▸ fst_mem_of_mem_present hpresent)
            · exact hextra m hm (hname ▸ List.mem_cons_self)
          · have hne : first ≠ name := by
              rintro rfl
              exact hfirst (List.of_mem_zip hlater).1
            rw [member?_tail hne]
            exact ih hnames (fun m hm hin => hextra m hm (List.mem_cons_of_mem first hin)) hlater

theorem mapM_member? {names : List String} {parts : List (Option Json)} (hnodup : names.Nodup)
    (hlength : names.length = parts.length) {extra : List (String × Json)}
    (hextra : ∀ m ∈ extra, m.1 ∉ names) :
    names.mapM (member? (present names parts ++ extra)) = some parts := by
  have hparts := mapM_eq_some (f := Prod.snd) (l := names.zip parts)
    (g := member? (present names parts ++ extra) ∘ Prod.fst) fun _ hmem => member?_present hnodup hextra hmem
  rw [← List.mapM_map, List.map_fst_zip hlength.le, List.map_snd_zip hlength.ge] at hparts
  exact hparts

theorem record?_present {names : List String} {parts : List (Option Json)} (hnodup : names.Nodup)
    (hlength : names.length = parts.length) :
    (object (present names parts)).record? names = some parts := by
  have hextra : ∀ m ∈ ([] : List (String × Json)), m.1 ∉ names := by simp
  have hparts := mapM_member? hnodup hlength hextra
  rwa [List.append_nil] at hparts

theorem optional?_map {α : Type} {write : α → Json} {read : Json → Option α} {part : Option α}
    (h : ∀ x ∈ part, read (write x) = some x) (hnull : read null = none) :
    optional? read (part.map write) = some part := by
  cases part with
  | none => rfl
  | some x =>
      have hread := h x rfl
      have hwrite : write x ≠ null := by
        intro heq
        rw [heq, hnull] at hread
        exact absurd hread (by simp)
      rw [Option.map_some, optional?, hread, Option.map_some]
      exact hwrite

theorem wellformed_present {names : List String} {parts : List (Option Json)}
    (h : ∀ part ∈ parts, ∀ value ∈ part, Wellformed value) :
    ∀ m ∈ present names parts, Wellformed m.2 := by
  induction names generalizing parts with
  | nil => simp [present]
  | cons name names ih =>
      cases parts with
      | nil => simp [present]
      | cons part parts =>
          intro m hm
          rw [present, List.mem_append] at hm
          rcases hm with hpart | hrest
          · obtain ⟨value, hvalue, rfl⟩ := Option.map_eq_some_iff.1 (Option.mem_toList.1 hpart)
            exact h part List.mem_cons_self value hvalue
          · exact ih (fun part hpart => h part (List.mem_cons_of_mem _ hpart)) m hrest

end Json

theorem Json.wellformed_array {α : Type} {write : α → Json} {l : List α}
    (h : ∀ x ∈ l, (write x).Wellformed) : (Json.array (l.map write)).Wellformed := by
  refine .array _ fun item hitem => ?_
  obtain ⟨x, hx, rfl⟩ := List.mem_map.1 hitem
  exact h x hx

theorem NameMap.wellformed_toJson {α : Type} {write : α → Json} {m : NameMap α}
    (h : ∀ x ∈ m.values, (write x).Wellformed) : (m.toJson write).Wellformed := by
  refine .object _ fun member hmember => ?_
  obtain ⟨e, he, rfl⟩ := List.mem_map.1 hmember
  exact h e.2 (List.mem_map_of_mem he)

-- What is written of `x` is a text to be read, and reads as `x`.
structure Coded {α : Type} (write : α → Json) (read : Json → Option α) (x : α) : Prop where
  wellformed : (write x).Wellformed
  read_write : read (write x) = some x

theorem coded_string (s : String) : Coded Json.string Json.string? s where
  wellformed := .string s
  read_write := rfl

theorem Coded.array {α : Type} {write : α → Json} {read : Json → Option α} {l : List α}
    (h : ∀ x ∈ l, Coded write read x) :
    Coded (fun l => Json.array (l.map write)) (fun j => j.array?.bind (·.mapM read)) l where
  wellformed := Json.wellformed_array fun x hx => (h x hx).wellformed
  read_write := by
    have hread := Json.mapM_eq_some (g := read ∘ write) (f := id) fun x hx => (h x hx).read_write
    rw [← List.mapM_map, List.map_id] at hread
    exact hread

theorem NameMap.coded {α : Type} {write : α → Json} {read : Json → Option α} {m : NameMap α}
    (h : ∀ x ∈ m.values, Coded write read x) :
    Coded (NameMap.toJson write) (NameMap.ofJson? read) m where
  wellformed := wellformed_toJson fun x hx => (h x hx).wellformed
  read_write := by
    have hread : (m.entries.map fun e => (e.1, write e.2)).mapM
        (fun e => (read e.2).map (e.1, ·)) = some m.entries := by
      have hread := Json.mapM_eq_some (l := m.entries) (f := id)
        (g := fun e => (read (write e.2)).map (e.1, ·)) fun e he => by
          rw [(h e.2 (List.mem_map_of_mem he)).read_write]
          rfl
      rw [List.map_id] at hread
      rw [List.mapM_map]
      exact hread
    have hjson : (m.toJson write).object? = some (m.entries.map fun e => (e.1, write e.2)) := rfl
    simp only [ofJson?, hjson, Option.bind_eq_bind, Option.bind_some, hread, ofList_entries]
    rfl

theorem ValueTable.coded (table : ValueTable) : Coded toJson ofJson? table :=
  NameMap.coded fun _ _ => NameMap.coded fun s _ => coded_string s

theorem Example.coded (e : Example) : Coded toJson ofJson? e where
  wellformed := .object _ (by simp [Json.Wellformed.string])
  read_write := by
    have hjson : e.toJson = .object (Json.present ["format", "type", "status", "title", "example"]
        [some (.string e.format), some (.string e.type), some (.string e.status),
          some (.string e.title), some (.string e.body)]) := rfl
    rw [hjson, ofJson?, Json.record?_present (by decide) (by rfl)]
    rfl

theorem Permissions.coded (p : Permissions) : Coded toJson ofJson? p := by
  have hjson : p.toJson = .object (Json.present ["type", "permissions"]
      [some (.string p.access.text), p.roles.map .string]) := by
    simp [toJson, optionalMember, Json.present, Function.comp_def]
  constructor
  · rw [hjson]
    refine .object _ (Json.wellformed_present ?_)
    simp [Json.Wellformed.string]
  · have hroles := Json.optional?_map (fun s (_ : s ∈ p.roles) => (coded_string s).read_write) rfl
    rw [hjson, ofJson?, Json.record?_present (by decide) (by rfl)]
    simp [Json.string?, Access.ofText?_text, hroles]

theorem StatusExamples.coded (s : StatusExamples) : Coded toJson ofJson? s := by
  have hjson : s.toJson = .object (Json.present
      ["requestValues", "responseValues", "request", "response"]
      [s.requestValues.map ValueTable.toJson, s.responseValues.map ValueTable.toJson,
        s.request.map Example.toJson, s.response.map Example.toJson]) := by
    simp [toJson, optionalMember, Json.present, Function.comp_def]
  constructor
  · rw [hjson]
    refine .object _ (Json.wellformed_present ?_)
    simp [(ValueTable.coded _).wellformed, (Example.coded _).wellformed]
  · have hvalues : ∀ part : Option ValueTable,
        Json.optional? ValueTable.ofJson? (part.map ValueTable.toJson) = some part :=
      fun part => Json.optional?_map (fun table _ => table.coded.read_write) rfl
    have hexample : ∀ part : Option Example,
        Json.optional? Example.ofJson? (part.map Example.toJson) = some part :=
      fun part => Json.optional?_map (fun e _ => e.coded.read_write) rfl
    rw [hjson, ofJson?, Json.record?_present (by decide) (by rfl)]
    simp [hvalues, hexample]

-- A param whose kind is what its text is read as.
def Param.Faithful (p : Param) : Prop := ParamKind.ofText p.kind.text = p.kind

instance (p : Param) : Decidable p.Faithful :=
  inferInstanceAs (Decidable (ParamKind.ofText p.kind.text = p.kind))

theorem Param.wellformed_toJson (p : Param) : p.toJson.Wellformed :=
  .object _ (by simp [Json.Wellformed.string, Json.Wellformed.bool])

theorem Param.coded {p : Param} (h : p.Faithful) : Coded toJson ofJson? p where
  wellformed := p.wellformed_toJson
  read_write := by
    have hjson : p.toJson = .object (Json.present
        ["type", "field", "constraint", "description", "default", "status", "optional"]
        [some (.string p.kind.text), some (.string p.field), some (.string p.constraint),
          some (.string p.description), some (.string p.fallback), some (.string p.status),
          some (.bool p.optional)]) := rfl
    have hread : ofJson? p.toJson = some { p with kind := .ofText p.kind.text } := by
      rw [hjson, ofJson?, Json.record?_present (by decide) (by rfl)]
      rfl
    rw [hread, h]

theorem Param.coded_list {params : List Param} (h : ∀ p ∈ params, p.Faithful) :
    Coded (fun params => Json.array (params.map toJson)) listOfJson? params :=
  Coded.array fun p hp => Param.coded (h p hp)

@[mk_iff] structure Endpoint.Faithful (e : Endpoint) : Prop where
  method : Method.ofText e.method.text = e.method
  params : ∀ p ∈ e.params, p.Faithful
  extra : ∀ name ∈ e.extra.keys, name ∉ fieldNames

instance (e : Endpoint) : Decidable e.Faithful := decidable_of_iff' _ (Endpoint.faithful_iff e)

namespace Endpoint

def fieldParts (e : Endpoint) : List (Option Json) :=
  [some (.string e.src), some (.string e.method.text), some (.string e.url),
    some (.string e.title), some (.string e.description), some e.permissions.toJson,
    some (.array (e.params.map Param.toJson)), some (e.examples.toJson StatusExamples.toJson)]

def extraMembers (e : Endpoint) : List (String × Json) :=
  e.extra.entries.map fun (name, value) => (name, .string value)

theorem toJson_eq (e : Endpoint) :
    e.toJson = .object (Json.present fieldNames e.fieldParts ++ e.extraMembers) := rfl

-- Whatever an endpoint holds, what is written of it can be read.
theorem wellformed_toJson (e : Endpoint) : e.toJson.Wellformed := by
  have hparams : (Json.array (e.params.map Param.toJson)).Wellformed :=
    Json.wellformed_array fun p _ => p.wellformed_toJson
  have hexamples : (e.examples.toJson StatusExamples.toJson).Wellformed :=
    NameMap.wellformed_toJson fun s _ => s.coded.wellformed
  rw [toJson_eq]
  refine .object _ (List.forall_mem_append.2 ⟨Json.wellformed_present ?_, ?_⟩)
  · simp [fieldParts, Json.Wellformed.string, e.permissions.coded.wellformed, hparams, hexamples]
  · intro m hm
    obtain ⟨entry, -, rfl⟩ := List.mem_map.1 hm
    exact .string entry.2

theorem fst_not_mem_fieldNames {e : Endpoint} (h : e.Faithful) :
    ∀ m ∈ e.extraMembers, m.1 ∉ fieldNames := by
  intro m hm
  obtain ⟨entry, hentry, rfl⟩ := List.mem_map.1 hm
  exact h.extra entry.1 (List.mem_map_of_mem hentry)

-- The members without a field are the extra tags again.
theorem filter_members {e : Endpoint} (h : e.Faithful) :
    (Json.present fieldNames e.fieldParts ++ e.extraMembers).filter
      (fun (name, _) => !fieldNames.contains name) = e.extraMembers := by
  rw [List.filter_append]
  have hfields : (Json.present fieldNames e.fieldParts).filter
      (fun (name, _) => !fieldNames.contains name) = [] := by
    rw [List.filter_eq_nil_iff]
    intro m hm
    simpa using Json.fst_mem_of_mem_present hm
  have hextra : e.extraMembers.filter (fun (name, _) => !fieldNames.contains name) =
      e.extraMembers := by
    rw [List.filter_eq_self]
    intro m hm
    simpa using fst_not_mem_fieldNames h m hm
  rw [hfields, hextra, List.nil_append]

theorem coded {e : Endpoint} (h : e.Faithful) : Coded toJson ofJson? e := by
  have hparams := Param.coded_list h.params
  have hexamples : Coded (NameMap.toJson StatusExamples.toJson) _ e.examples :=
    NameMap.coded fun s _ => s.coded
  have hextra : Coded (NameMap.toJson .string) _ e.extra := NameMap.coded fun s _ => coded_string s
  constructor
  · exact e.wellformed_toJson
  · have hlength : fieldNames.length = e.fieldParts.length := rfl
    have hfields := Json.mapM_member? (by decide) hlength (fst_not_mem_fieldNames h)
    have hmembers : NameMap.ofJson? Json.string? (.object e.extraMembers) = some e.extra :=
      hextra.read_write
    rw [toJson_eq, ofJson?]
    simp only [Json.object?, Option.bind_eq_bind, Option.bind_some, hfields, filter_members h]
    simp [fieldParts, Json.string?, h.method, e.permissions.coded.read_write, hparams.read_write,
      hexamples.read_write, hmembers]

end Endpoint

@[mk_iff] structure Group.Faithful (g : Group) : Prop where
  params : ∀ p ∈ g.params, p.Faithful
  endpoints : ∀ e ∈ g.endpoints, e.Faithful

instance (g : Group) : Decidable g.Faithful := decidable_of_iff' _ (Group.faithful_iff g)

theorem Group.wellformed_toJson (g : Group) : g.toJson.Wellformed := by
  have hparams : (Json.array (g.params.map Param.toJson)).Wellformed :=
    Json.wellformed_array fun p _ => p.wellformed_toJson
  have hendpoints : (Json.array (g.endpoints.map Endpoint.toJson)).Wellformed :=
    Json.wellformed_array fun e _ => e.wellformed_toJson
  exact .object _ (by simp [Json.Wellformed.string, hparams, hendpoints])

theorem Group.coded {g : Group} (h : g.Faithful) : Coded toJson ofJson? g := by
  have hparams := Param.coded_list h.params
  have hendpoints := Coded.array fun e he => Endpoint.coded (h.endpoints e he)
  constructor
  · exact g.wellformed_toJson
  · have hjson : g.toJson = .object (Json.present ["description", "url", "params", "endpoints"]
        [some (.string g.description), some (.string g.url),
          some (.array (g.params.map Param.toJson)),
          some (.array (g.endpoints.map Endpoint.toJson))]) := rfl
    rw [hjson, ofJson?, Json.record?_present (by decide) (by rfl)]
    simp [Json.string?, hparams.read_write, hendpoints.read_write]

namespace Document

-- Every kind and method is what its text is read as, and no extra tag is named like a field.
def Faithful (d : Document) : Prop := ∀ g ∈ d.groups.values, g.Faithful

instance (d : Document) : Decidable d.Faithful :=
  inferInstanceAs (Decidable (∀ g ∈ d.groups.values, g.Faithful))

theorem wellformed_toJson (d : Document) : d.toJson.Wellformed :=
  NameMap.wellformed_toJson fun g _ => g.wellformed_toJson

theorem coded {d : Document} (h : d.Faithful) : Coded toJson ofJson? d := by
  have hgroups := NameMap.coded fun g hg => Group.coded (h g hg)
  constructor
  · exact d.wellformed_toJson
  · have hread : NameMap.ofJson? Group.ofJson? d.toJson = some d.groups := hgroups.read_write
    rw [ofJson?, hread]
    rfl

-- The text of a catalog, in either layout, is read as the catalog again.
theorem ofJson?_read?_render {d : Document} (h : d.Faithful) (pretty : Bool) :
    (Json.read? (d.render pretty)).bind ofJson? = some d := by
  have hcoded := coded h
  rw [render, Json.read?_print hcoded.wellformed, Option.bind_some, hcoded.read_write]

def sample : Document where
  groups := (∅ : NameMap Group).insert "\"users\" \\ rôles" {
    description := "a\ttab,\n a bell \x07 and a face 😀"
    params := [⟨.other "matrix", "id", "", "", "0", "", true⟩]
    endpoints := [{
      src := "roles.js"
      method := .other "LINK"
      url := "/roles"
      title := "Link"
      description := ""
      permissions := ⟨.role, some "admin"⟩
      params := [⟨.path, "id", "^\\d+$", "", "", "404", false⟩]
      examples := (∅ : NameMap StatusExamples).insert "200" {
        requestValues := some (ValueTable.add ∅ "body" "name" "of the role")
        response := some ⟨"json", "object", "200", "", "[null, 1.5]"⟩ }
      extra := (∅ : NameMap String).insert "version" "2" }] }

theorem ofJson?_read?_render_sample : sample.Faithful ∧
    (Json.read? (sample.render true)).bind ofJson? = some sample ∧
    (Json.read? (sample.render false)).bind ofJson? = some sample := by
  have hfaithful : sample.Faithful := by decide +kernel
  exact ⟨hfaithful, ofJson?_read?_render hfaithful true, ofJson?_read?_render hfaithful false⟩

end Document

end ApiCatalog
