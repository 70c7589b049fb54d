namespace ApiCatalog

-- Who may call an endpoint.
inductive Access where
  | none
  | user
  | role
  deriving DecidableEq, Repr, Inhabited

namespace Access

def text : Access → String
  | none => "none"
  | user => "user"
  | role => "role"

-- The spelling is exact.
def ofText? (value : String) : Option Access :=
  if value = "none" then some none
  else if value = "user" then some user
  else if value = "role" then some role
  else Option.none

theorem ofText?_text (access : Access) : ofText? access.text = some access := by
  cases access <;> decide

end Access

structure Permissions where
  access : Access := .none
  roles : Option String := Option.none
  deriving DecidableEq, Repr, Inhabited

end ApiCatalog
