import ApiCatalog.Group

namespace ApiCatalog

-- The catalog: groups by name. One file's share and the whole have this one shape.
structure Document where
  groups : NameMap Group := ∅
  deriving DecidableEq, Inhabited

namespace Document

def empty : Document := {}

def get? (d : Document) (name : String) : Option Group := d.groups.get? name

-- Change one group, which is an empty one if it was not there.
def update (d : Document) (name : String) (f : Group → Group) : Document :=
  ⟨d.groups.upsert name fun g => f (g.getD {})⟩

def touch (d : Document) (name : String) : Document := d.update name id

def addDefinition (d : Document) (name : String) (definition : Definition) : Document :=
  d.update name (·.addDefinition definition)

def addEndpoint (d : Document) (name : String) (endpoint : Endpoint) : Document :=
  d.update name (·.addEndpoint endpoint)

-- A group that only `d` has stays as it is, sorted or not.
def merge (d later : Document) : Document :=
  later.groups.entries.foldl (fun acc (name, group) => acc.update name (·.merge group)) d

def groupNames (d : Document) : List String := d.groups.keys

def size (d : Document) : Nat := d.groups.size

def isEmpty (d : Document) : Bool := d.groups.isEmpty

def endpointCount (d : Document) : Nat :=
  d.groups.values.foldr (fun g n => g.endpoints.length + n) 0

end Document

end ApiCatalog
