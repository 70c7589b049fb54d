import ApiCatalog.Document
import ApiCatalog.Json.Printer

namespace ApiCatalog

namespace NameMap

variable {α : Type}

def toJson (write : α → Json) (m : NameMap α) : Json :=
  .object (m.entries.map fun (name, value) => (name, write value))

-- Of two members with one name the later counts.
def ofJson? (read : Json → Option α) (j : Json) : Option (NameMap α) := do
  let members ← j.object?
  let bindings ← members.mapM fun (name, value) => (read value).map (name, ·)
  return ofList bindings

end NameMap

namespace Param

def toJson (p : Param) : Json :=
  .object [("type", .string p.kind.text), ("field", .string p.field),
    ("constraint", .string p.constraint), ("description", .string p.description),
    ("default", .string p.fallback), ("status", .string p.status), ("optional", .bool p.optional)]

def ofJson? (j : Json) : Option Param := do
  let fields ← j.record?
    ["type", "field", "constraint", "description", "default", "status", "optional"]
  match fields with
  | [some kind, some field, some constraint, some description, some fallback, some status,
      some optional] =>
      return {
        kind := .ofText (← kind.string?)
        field := ← field.string?
        constraint := ← constraint.string?
        description := ← description.string?
        fallback := ← fallback.string?
        status := ← status.string?
        optional := ← optional.bool? }
  | _ => none

def listOfJson? (j : Json) : Option (List Param) := j.array?.bind (·.mapM ofJson?)

end Param

-- A member that is written only when the part is there.
def optionalMember {α : Type} (name : String) (write : α → Json) (part : Option α) :
    List (String × Json) :=
  (part.map fun value => (name, write value)).toList

namespace Permissions

def toJson (p : Permissions) : Json :=
  .object (("type", .string p.access.text) :: optionalMember "permissions" .string p.roles)

def ofJson? (j : Json) : Option Permissions := do
  match ← j.record? ["type", "permissions"] with
  | [some access, roles] =>
      return {
        access := ← Access.ofText? (← access.string?)
        roles := ← Json.optional? Json.string? roles }
  | _ => none

end Permissions

namespace Example

def toJson (e : Example) : Json :=
  .object [("format", .string e.format), ("type", .string e.type), ("status", .string e.status),
    ("title", .string e.title), ("example", .string e.body)]

def ofJson? (j : Json) : Option Example := do
  match ← j.record? ["format", "type", "status", "title", "example"] with
  | [some format, some type, some status, some title, some body] =>
      return {
        format := ← format.string?
        type := ← type.string?
        status := ← status.string?
        title := ← title.string?
        body := ← body.string? }
  | _ => none

end Example

namespace ValueTable

def toJson (table : ValueTable) : Json := NameMap.toJson (NameMap.toJson .string) table

def ofJson? (j : Json) : Option ValueTable := NameMap.ofJson? (NameMap.ofJson? Json.string?) j

end ValueTable

namespace StatusExamples

def toJson (s : StatusExamples) : Json :=
  .object (optionalMember "requestValues" ValueTable.toJson s.requestValues ++
    optionalMember "responseValues" ValueTable.toJson s.responseValues ++
    optionalMember "request" Example.toJson s.request ++
    optionalMember "response" Example.toJson s.response)

def ofJson? (j : Json) : Option StatusExamples := do
  match ← j.record? ["requestValues", "responseValues", "request", "response"] with
  | [requestValues, responseValues, request, response] =>
      return {
        requestValues := ← Json.optional? ValueTable.ofJson? requestValues
        responseValues := ← Json.optional? ValueTable.ofJson? responseValues
        request := ← Json.optional? Example.ofJson? request
        response := ← Json.optional? Example.ofJson? response }
  | _ => none

end StatusExamples

namespace Endpoint

def fieldNames : List String :=
  ["src", "method", "url", "title", "description", "permissions", "params", "examples"]

-- The fields in their order, then the extra tags in the order of their names.
def toJson (e : Endpoint) : Json :=
  .object ([("src", .string e.src), ("method", .string e.method.text), ("url", .string e.url),
    ("title", .string e.title), ("description", .string e.description),
    ("permissions", e.permissions.toJson), ("params", .array (e.params.map Param.toJson)),
    ("examples", e.examples.toJson StatusExamples.toJson)] ++
    e.extra.entries.map fun (name, value) => (name, .string value))

-- Every member that is no field is an extra tag. Since those go by name, an
-- endpoint is written as an object only.
def ofJson? (j : Json) : Option Endpoint := do
  let members ← j.object?
  let extra := members.filter fun (name, _) => !fieldNames.contains name
  match ← fieldNames.mapM (Json.member? members) with
  | [some src, some method, some url, some title, some description, some permissions,
      some params, some examples] =>
      return {
        src := ← src.string?
        method := .ofText (← method.string?)
        url := ← url.string?
        title := ← title.string?
        description := ← description.string?
        permissions := ← Permissions.ofJson? permissions
        params := ← Param.listOfJson? params
        examples := ← NameMap.ofJson? StatusExamples.ofJson? examples
        extra := ← NameMap.ofJson? Json.string? (.object extra) }
  | _ => none

end Endpoint

namespace Group

def toJson (g : Group) : Json :=
  .object [("description", .string g.description), ("url", .string g.url),
    ("params", .array (g.params.map Param.toJson)),
    ("endpoints", .array (g.endpoints.map Endpoint.toJson))]

def ofJson? (j : Json) : Option Group := do
  match ← j.record? ["description", "url", "params", "endpoints"] with
  | [some description, some url, some params, some endpoints] =>
      return {
        description := ← description.string?
        url := ← url.string?
        params := ← Param.listOfJson? params
        endpoints := ← endpoints.array?.bind (·.mapM Endpoint.ofJson?) }
  | _ => none

end Group

namespace Document

def toJson (d : Document) : Json := d.groups.toJson Group.toJson

def ofJson? (j : Json) : Option Document := (NameMap.ofJson? Group.ofJson? j).map (⟨·⟩)

-- The text of the catalog, on one line or indented.
def render (d : Document) (pretty : Bool) : String :=
  d.toJson.print (.ofPretty pretty)

end Document

end ApiCatalog
