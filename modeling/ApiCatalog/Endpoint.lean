import ApiCatalog.Example
import ApiCatalog.Method
import ApiCatalog.Param
import ApiCatalog.Permissions

namespace ApiCatalog

-- One documented operation. `examples` goes by status code, `extra` holds the
-- tags that have no field of their own.
structure Endpoint where
  src : String
  method : Method
  url : String
  title : String
  description : String
  permissions : Permissions
  params : List Param
  examples : NameMap StatusExamples
  extra : NameMap String
  deriving DecidableEq, Inhabited

namespace Endpoint

-- By source file, then by method.
def le (a b : Endpoint) : Bool :=
  decide (a.src < b.src) || (a.src == b.src && decide (a.method.rank ≤ b.method.rank))

def sort (endpoints : List Endpoint) : List Endpoint := StableSort.sort le endpoints

end Endpoint

end ApiCatalog
