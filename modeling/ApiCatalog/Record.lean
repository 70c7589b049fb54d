import ApiCatalog.Block
import ApiCatalog.Diagnostic
import ApiCatalog.Endpoint
import ApiCatalog.Section

namespace ApiCatalog

-- An optional field stands in square brackets, and what follows an equals sign
-- is its default.
def Param.parse (detail : String) : Param :=
  let s := Section.parse detail .withName
  let name := s.name.toList
  let (token, optional) :=
    match name with
    | '[' :: rest =>
        match Text.dropSuffix? rest [']'] with
        | some inner@(_ :: _) => (inner, true)
        | _ => (name, false)
    | _ => (name, false)
  let (field, fallback) :=
    match Text.cut? ['='] token with
    | some (field, value) => (Text.trim field, Text.trim value)
    | none => (token, [])
  { kind := .ofText s.paren
    field := String.ofList field
    constraint := if s.curly = "" then "string" else s.curly
    description := String.ofList (Text.trim s.description.toList)
    fallback := String.ofList fallback
    status := s.tag
    optional }

def Example.parse (detail : String) : Example :=
  let s := Section.parse detail .nameOnly
  { format := if s.paren = "" then "application/json" else s.paren
    type := if s.curly = "" then "object" else s.curly
    status := s.tag
    title := s.name
    body := s.description }

-- The tags with a grammar of their own.
inductive Keyword where
  | defineGroup
  | api
  | param
  | permissions
  | value (side : Side)
  | sample (side : Side)
  deriving DecidableEq, Repr

namespace Keyword

def vocabulary : List (String × Keyword) :=
  [("definegroup", defineGroup), ("api", api), ("param", param), ("permissions", permissions),
    ("requestvalue", value .request), ("responsevalue", value .response),
    ("requestexample", .sample .request), ("responseexample", .sample .response)]

def ofTag? (tag : String) : Option Keyword := vocabulary.lookup tag

-- How messages spell the tags that need a status.
def valueTag : Side → String
  | .request => "@apiRequestValue"
  | .response => "@apiResponseValue"

def sampleTag : Side → String
  | .request => "@apiRequestExample"
  | .response => "@apiResponseExample"

end Keyword

-- What a block declares.
inductive Identity where
  | endpoint
  | group
  deriving DecidableEq, Repr

-- A block under interpretation.
structure Record where
  src : String := ""
  identity : Option Identity := none
  method : String := ""
  url : String := ""
  title : String := ""
  description : String := ""
  group : String := ""
  permissions : Permissions := {}
  params : List Param := []
  examples : NameMap StatusExamples := ∅
  extra : NameMap String := ∅
  deriving DecidableEq, Inhabited

namespace Record

-- The declaration a record already has, as a message shows it.
def declared (r : Record) (identity : Identity) : String :=
  match identity with
  | .group => "@apiDefineGroup " ++ r.url
  | .endpoint =>
      "@api \x7b" ++ String.ofList (Text.lower r.method.toList) ++ "\x7d " ++ r.url

def claim (r : Record) (identity : Identity) : Except Violation Record :=
  match r.identity with
  | some existing => .error (.secondIdentity (r.declared existing))
  | none => .ok { r with identity := some identity }

def defineGroup (r : Record) (detail : String) : Except Violation Record := do
  let r ← r.claim .group
  let s := Section.parse detail .nameOnly
  return { r with url := s.name, group := s.paren, description := s.description }

def declareEndpoint (r : Record) (detail : String) : Except Violation Record := do
  let r ← r.claim .endpoint
  let s := Section.parse detail .withName
  return { r with
    method := String.ofList (Text.upper s.curly.toList)
    url := s.name
    title := s.description }

def addParam (r : Record) (detail : String) : Record :=
  { r with params := r.params ++ [Param.parse detail] }

-- Only roles carry a text.
def setPermissions (r : Record) (detail : String) : Except Violation Record :=
  let s := Section.parse detail .descriptionOnly
  match Access.ofText? s.paren with
  | none => .error (.unknownAccess s.paren)
  | some access =>
      .ok { r with permissions := ⟨access, if access = .role then some s.description else none⟩ }

def addValue (r : Record) (side : Side) (detail : String) : Except Violation Record :=
  let p := Param.parse detail
  if p.status = "" then
    .error (.missingStatus r.title (Keyword.valueTag side))
  else
    .ok { r with examples := r.examples.upsert p.status fun s =>
      (s.getD {}).addValue side p.kind.text p.field p.description }

def addExample (r : Record) (side : Side) (detail : String) : Except Violation Record :=
  let e := Example.parse detail
  if e.status = "" then
    .error (.missingStatus r.title (Keyword.sampleTag side))
  else
    .ok { r with examples := r.examples.upsert e.status fun s => (s.getD {}).setExample side e }

-- The text of a tag without a grammar: one leading dash is dropped.
def plainText (detail : String) : String :=
  match Text.trimStart detail.toList with
  | '-' :: rest => String.ofList (Text.trim rest)
  | rest => String.ofList (Text.trim rest)

-- Fields of an endpoint that no plain tag may shadow.
def structuredNames : List String := ["method", "permissions", "params", "examples"]

-- A tag named like a text field overwrites it; one named like another field is
-- ignored; any other is kept under its own name.
def setPlain (r : Record) (tag detail : String) : Record :=
  let text := plainText detail
  if tag = "group" then { r with group := text }
  else if tag = "description" then { r with description := text }
  else if tag = "title" then { r with title := text }
  else if tag = "url" then { r with url := text }
  else if tag = "src" then { r with src := text }
  else if structuredNames.contains tag then r
  else { r with extra := r.extra.insert tag text }

def apply (r : Record) (tag detail : String) : Except Violation Record :=
  match Keyword.ofTag? tag with
  | some .defineGroup => r.defineGroup detail
  | some .api => r.declareEndpoint detail
  | some .param => .ok (r.addParam detail)
  | some .permissions => r.setPermissions detail
  | some (.value side) => r.addValue side detail
  | some (.sample side) => r.addExample side detail
  | none => .ok (r.setPlain tag detail)

-- The summary stands in for a title, or for the description of a group, that
-- no tag gave.
def withSummary (r : Record) (summary : String) : Record :=
  match r.identity with
  | some .endpoint => if r.title = "" then { r with title := summary } else r
  | some .group => if r.description = "" then { r with description := summary } else r
  | none => r

-- The first line that breaks a rule ends the interpretation.
def applyLines (r : Record) (path : String) : List TagLine → Except Diagnostic Record
  | [] => .ok r
  | l :: rest =>
      match r.apply l.tag l.detail with
      | .ok r => r.applyLines path rest
      | .error v => .error (v.report path l.line)

def ofBlock (block : Block) : Except Diagnostic Record :=
  match applyLines { src := block.path } block.path block.lines with
  | .ok r => .ok (r.withSummary block.summary)
  | .error e => .error e

end Record

end ApiCatalog
