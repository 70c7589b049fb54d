import ApiCatalog.Text.Blank
import ApiCatalog.Text.Case

namespace ApiCatalog

inductive Method where
  | get
  | post
  | put
  | delete
  | patch
  | other (name : String)
  deriving DecidableEq, Repr, Inhabited

namespace Method

def text : Method → String
  | get => "GET"
  | post => "POST"
  | put => "PUT"
  | delete => "DELETE"
  | patch => "PATCH"
  | other name => name

-- Case and surrounding blanks do not matter.
def ofText (value : String) : Method :=
  let name := String.ofList (Text.upper (Text.trim value.toList))
  if name = "GET" then get
  else if name = "POST" then post
  else if name = "PUT" then put
  else if name = "DELETE" then delete
  else if name = "PATCH" then patch
  else other name

-- The order in which the endpoints of one file are listed.
def order : List String := ["GET", "POST", "PUT", "DELETE", "PATCH"]

-- A method outside the order comes after all of it.
def rank (method : Method) : Nat := order.idxOf method.text

def isKnown : Method → Bool
  | other _ => false
  | _ => true

end Method

end ApiCatalog
