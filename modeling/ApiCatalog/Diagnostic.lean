import ApiCatalog.Text.Cut

namespace ApiCatalog

-- A tag line that breaks the rules of its block.
inductive Violation where
  -- A second `@api` or `@apiDefineGroup`; `declared` is how the first reads.
  | secondIdentity (declared : String)
  | unknownAccess (found : String)
  -- `subject` is the title of the block, which may be empty.
  | missingStatus (subject tag : String)
  deriving DecidableEq, Repr

namespace Violation

def message : Violation → String
  | secondIdentity declared =>
      "a block may declare only one endpoint or group; already declared " ++ declared
  | unknownAccess found =>
      "the parenthesis value for @apiPermissions must be (none), (user) or (role), found (" ++
        found ++ ")"
  | missingStatus subject tag =>
      (if subject = "" then "block" else subject) ++ ": " ++ tag ++ " requires a <status> tag"

def help : Violation → String
  | secondIdentity _ => "Split the block into one comment per @api or @apiDefineGroup"
  | unknownAccess _ =>
      "Use @apiPermissions (none), (user), or (role) followed by the role list"
  | missingStatus _ _ => "Start the payload with a status such as <200>"

end Violation

-- What is reported to the user when something fails.
inductive Diagnostic where
  | io (path message : String)
  | grammar (path : String) (line : Nat) (message : String) (help : Option String)
  | config (message : String) (help : Option String)
  | validation (message : String) (help : Option String)
  | output (message : String) (help : Option String)
  deriving DecidableEq, Repr

namespace Diagnostic

def text : Diagnostic → String
  | io path message => "IO error with " ++ path ++ ": " ++ message
  | grammar path line message _ =>
      "Grammar violation in " ++ path ++ ":" ++ toString line ++ ": " ++ message
  | config message _ => "Config error: " ++ message
  | validation message _ => "Validation error: " ++ message
  | output message _ => "Output error: " ++ message

def code : Diagnostic → String
  | io .. => "apidoc::io"
  | grammar .. => "apidoc::grammar"
  | config .. => "apidoc::config"
  | validation .. => "apidoc::validate"
  | output .. => "apidoc::output"

def help? : Diagnostic → Option String
  | io .. => none
  | grammar _ _ _ help => help
  | config _ help => help
  | validation _ help => help
  | output _ help => help

def isGrammar : Diagnostic → Bool
  | grammar .. => true
  | _ => false

end Diagnostic

-- A violation with its place in a file.
def Violation.report (v : Violation) (path : String) (line : Nat) : Diagnostic :=
  .grammar path line v.message (some v.help)

end ApiCatalog
