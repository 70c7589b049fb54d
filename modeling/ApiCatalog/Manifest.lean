import ApiCatalog.Diagnostic
import ApiCatalog.Path
import ApiCatalog.Text.Blank
import ApiCatalog.Yaml.Node

namespace ApiCatalog

-- What a project says about itself: where its sources lie, which of their
-- files count, and where the catalog goes.
structure Manifest where
  sources : List String := ["src/api"]
  output : Path := ⟨"dist/api/apidocs.json"⟩
  extensions : List String := ["js", "api"]
  excludes : List String := []
  pretty : Bool := false
  deriving DecidableEq, Repr, Inhabited

namespace Manifest

-- The name a manifest has in the root of its project.
def fileName : String := "apidoc.yaml"

-- An empty list of sources means the usual place.
def effectiveSources (m : Manifest) : List String :=
  if m.sources.isEmpty then ({} : Manifest).sources else m.sources

-- Extensions may be written with leading dots.
def accepts (m : Manifest) (path : Path) : Bool :=
  match path.extension? with
  | some extension =>
      m.extensions.any fun e => e.toList.dropWhile (· == '.') == extension.toList
  | none => false

-- `dir/*` covers what lies below a directory of that name at any depth, `*end`
-- without a separator what ends so, any other pattern what contains it. A
-- leading `**/` adds nothing.
def patternMatches (path pattern : List Char) : Bool :=
  let pattern := (['*', '*', '/'].isPrefixOf? pattern).getD pattern
  match Text.dropSuffix? pattern ['/', '*'] with
  | some dir =>
      (dir ++ ['/']).isPrefixOf path || Text.contains path ('/' :: dir ++ ['/'])
  | none =>
      match pattern with
      | '*' :: suffix =>
          if suffix.contains '/' then Text.contains path pattern else Text.endsWith path suffix
      | _ => Text.contains path pattern

def excludes? (m : Manifest) (path : Path) : Bool :=
  let text := Text.unifySlashes path.text.toList
  m.excludes.any fun pattern => patternMatches text pattern.toList

-- Whether a file found under a source directory is read.
def covers (m : Manifest) (path : Path) : Bool := !m.excludes? path && m.accepts path

end Manifest

namespace Yaml.Node

-- Any scalar is a text.
def string? : Node → Option String
  | scalar text _ => some text
  | _ => none

-- Only these plain words are truth values.
def bool? : Node → Option Bool
  | scalar text true =>
      if ["true", "True", "TRUE"].contains text then some true
      else if ["false", "False", "FALSE"].contains text then some false
      else none
  | _ => none

-- Nothing at all is an empty list.
def strings? : Node → Option (List String)
  | sequence items => items.mapM string?
  | scalar "" true => some []
  | _ => none

-- Nothing at all is an empty mapping.
def entries? : Node → Option (List (Node × Node))
  | mapping entries => some entries
  | scalar "" true => some []
  | _ => none

end Yaml.Node

namespace Manifest

-- A field given at most once, or its default.
def field? {α : Type} (fields : List (String × Yaml.Node)) (name : String) (default : α)
    (read : Yaml.Node → Option α) : Option α :=
  match fields.filter (·.1 == name) with
  | [] => some default
  | [(_, node)] => read node
  | _ => none

-- Every key is a text. Keys that are no field are passed over.
def ofNode? (node : Yaml.Node) : Option Manifest := do
  let entries ← node.entries?
  let fields ← entries.mapM fun (key, value) => key.string?.map (·, value)
  let standard : Manifest := {}
  return {
    sources := ← field? fields "sources" standard.sources Yaml.Node.strings?
    output := ← field? fields "output" standard.output fun n => n.string?.map (⟨·⟩)
    extensions := ← field? fields "extensions" standard.extensions Yaml.Node.strings?
    excludes := ← field? fields "excludes" standard.excludes Yaml.Node.strings?
    pretty := ← field? fields "pretty" standard.pretty Yaml.Node.bool? }

def invalid : Diagnostic :=
  .config "Invalid manifest" (some "Check apidoc.yaml syntax")

-- A text of blanks only leaves everything at its default.
def parse (content : String) : Except Diagnostic Manifest :=
  if Text.allBlank content.toList then
    .ok {}
  else
    match (Yaml.Node.read? content).bind ofNode? with
    | some m => .ok m
    | none => .error invalid

end Manifest

end ApiCatalog
