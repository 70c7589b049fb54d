import ApiCatalog.StableSort
import ApiCatalog.Text.Blank
import ApiCatalog.Text.Case

namespace ApiCatalog

-- Where a parameter travels in a request.
inductive ParamKind where
  | path
  | query
  | header
  | cookie
  | body
  | other (name : String)
  deriving DecidableEq, Repr, Inhabited

namespace ParamKind

def text : ParamKind → String
  | path => "path"
  | query => "query"
  | header => "header"
  | cookie => "cookie"
  | body => "body"
  | other name => name

-- Case and surrounding blanks do not matter; nothing at all means the body.
def ofText (value : String) : ParamKind :=
  let name := String.ofList (Text.lower (Text.trim value.toList))
  if name = "" ∨ name = "body" then body
  else if name = "path" then path
  else if name = "query" then query
  else if name = "header" then header
  else if name = "cookie" then cookie
  else other name

-- The order in which parameters are listed.
def order : List String := ["path", "query", "header", "cookie", "body"]

-- A kind outside the order comes after all of it.
def rank (kind : ParamKind) : Nat := order.idxOf kind.text

def isKnown : ParamKind → Bool
  | other _ => false
  | _ => true

end ParamKind

structure Param where
  kind : ParamKind
  field : String
  constraint : String
  description : String
  fallback : String
  status : String
  optional : Bool
  deriving DecidableEq, Repr, Inhabited

namespace Param

-- By kind, then by field.
def le (a b : Param) : Bool :=
  a.kind.rank < b.kind.rank || (a.kind.rank == b.kind.rank && decide (a.field ≤ b.field))

def sort (params : List Param) : List Param := StableSort.sort le params

end Param

end ApiCatalog
