import ApiCatalog.NameMap

namespace ApiCatalog

-- A request or response body shown as it travels.
structure Example where
  format : String
  type : String
  status : String
  title : String
  body : String
  deriving DecidableEq, Repr, Inhabited

-- Which half of an exchange a value or an example belongs to.
inductive Side where
  | request
  | response
  deriving DecidableEq, Repr

-- Parameter kind, then field, then description.
abbrev ValueTable := NameMap (NameMap String)

def ValueTable.add (table : ValueTable) (kind field description : String) : ValueTable :=
  table.upsert kind fun fields => (fields.getD ∅).insert field description

-- All that is documented for one status code. A part is absent until
-- something is put there.
structure StatusExamples where
  requestValues : Option ValueTable := none
  responseValues : Option ValueTable := none
  request : Option Example := none
  response : Option Example := none
  deriving DecidableEq, Inhabited

namespace StatusExamples

def values (s : StatusExamples) : Side → Option ValueTable
  | .request => s.requestValues
  | .response => s.responseValues

def example? (s : StatusExamples) : Side → Option Example
  | .request => s.request
  | .response => s.response

def addValue (s : StatusExamples) (side : Side) (kind field description : String) :
    StatusExamples :=
  let table := ((s.values side).getD ∅).add kind field description
  match side with
  | .request => { s with requestValues := some table }
  | .response => { s with responseValues := some table }

def setExample (s : StatusExamples) (side : Side) (e : Example) : StatusExamples :=
  match side with
  | .request => { s with request := some e }
  | .response => { s with response := some e }

end StatusExamples

end ApiCatalog
