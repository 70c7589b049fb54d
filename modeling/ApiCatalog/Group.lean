import ApiCatalog.Endpoint

namespace ApiCatalog

-- What one block says about a whole group.
structure Definition where
  description : String := ""
  url : String := ""
  params : List Param := []
  deriving DecidableEq, Inhabited

structure Group where
  description : String := ""
  url : String := ""
  params : List Param := []
  endpoints : List Endpoint := []
  deriving DecidableEq, Inhabited

namespace Group

-- The first url that is not empty stays.
def firstUrl (old new : String) : String := if old = "" then new else old

def addDefinition (g : Group) (d : Definition) : Group :=
  { g with
    description := g.description ++ d.description
    url := firstUrl g.url d.url
    params := Param.sort (g.params ++ d.params) }

def addEndpoint (g : Group) (e : Endpoint) : Group :=
  { g with endpoints := Endpoint.sort (g.endpoints ++ [{ e with params := Param.sort e.params }]) }

-- `later` comes after `g`; its endpoints keep the params they have.
def merge (g later : Group) : Group where
  description := g.description ++ later.description
  url := firstUrl g.url later.url
  params := Param.sort (g.params ++ later.params)
  endpoints := Endpoint.sort (g.endpoints ++ later.endpoints)

end Group

end ApiCatalog
