import ApiCatalog.Document
import ApiCatalog.Record

namespace ApiCatalog

-- What one block adds to the catalog.
inductive Contribution where
  | definition (name : String) (shared : Definition)
  | endpoint (name : String) (operation : Endpoint)
  deriving DecidableEq

namespace Contribution

def group : Contribution → String
  | definition name _ => name
  | endpoint name _ => name

-- The group of a block that names none.
def defaultGroup : String := "General"

-- A block that declares nothing adds nothing, nor does an endpoint without a
-- method or a url.
def ofRecord? (r : Record) : Option Contribution :=
  let group := if r.group = "" then defaultGroup else r.group
  match r.identity with
  | none => none
  | some .group => some (definition group ⟨r.description, r.url, r.params⟩)
  | some .endpoint =>
      if r.method = "" ∨ r.url = "" then
        none
      else
        some (endpoint group
          { src := r.src
            method := .ofText r.method
            url := r.url
            title := r.title
            description := r.description
            permissions := r.permissions
            params := r.params
            examples := r.examples
            extra := r.extra })

def ofBlocks : List Block → Except Diagnostic (List Contribution)
  | [] => .ok []
  | block :: rest =>
      match Record.ofBlock block with
      | .error e => .error e
      | .ok r =>
          match ofBlocks rest with
          | .error e => .error e
          | .ok contributions => .ok ((ofRecord? r).toList ++ contributions)

-- The contributions of a file in order, or the first violation in it. Lines
-- may end in a carriage return and a line feed.
def ofSource (path source : String) : Except Diagnostic (List Contribution) :=
  ofBlocks (Block.find path (Text.unifyBreaks source.toList))

def addTo (c : Contribution) (d : Document) : Document :=
  match c with
  | .definition name shared => d.addDefinition name shared
  | .endpoint name operation => d.addEndpoint name operation

end Contribution

namespace Document

def ofContributions (contributions : List Contribution) : Document :=
  contributions.foldl (fun d c => c.addTo d) {}

-- One file's share of the catalog.
def ofSource (path source : String) : Except Diagnostic Document :=
  (Contribution.ofSource path source).map ofContributions

end Document

end ApiCatalog
