import ApiCatalog.Json.Basic

namespace ApiCatalog.Json

-- On one line without spaces, or one item a line, two spaces a level.
inductive Layout where
  | compact
  | indented
  deriving DecidableEq, Repr

def Layout.ofPretty (pretty : Bool) : Layout := if pretty then .indented else .compact

def hexDigit (n : Nat) : Char := Nat.digitChar n

-- Quotes, backslashes and the controls below U+0020 are escaped; all other
-- characters stand for themselves.
def escapeChar (c : Char) : List Char :=
  match c with
  | '"' => ['\\', '"']
  | '\\' => ['\\', '\\']
  | '\n' => ['\\', 'n']
  | '\r' => ['\\', 'r']
  | '\t' => ['\\', 't']
  | _ =>
      if c.toNat = 8 then ['\\', 'b']
      else if c.toNat = 12 then ['\\', 'f']
      else if c.toNat < 32 then
        ['\\', 'u', '0', '0', hexDigit (c.toNat / 16), hexDigit (c.toNat % 16)]
      else [c]

def quote (s : String) : List Char := '"' :: s.toList.flatMap escapeChar ++ ['"']

-- What stands between an item and the bracket or comma before it.
def gap (layout : Layout) (depth : Nat) : List Char :=
  match layout with
  | .compact => []
  | .indented => '\n' :: List.replicate (2 * depth) ' '

def colon : Layout → List Char
  | .compact => [':']
  | .indented => [':', ' ']

mutual

def render (layout : Layout) (depth : Nat) : Json → List Char
  | null => ['n', 'u', 'l', 'l']
  | bool true => ['t', 'r', 'u', 'e']
  | bool false => ['f', 'a', 'l', 's', 'e']
  | number literal => literal.toList
  | string value => quote value
  | array [] => ['[', ']']
  | array (item :: items) =>
      '[' :: gap layout (depth + 1) ++ render layout (depth + 1) item ++
        renderItems layout depth items
  | object [] => ['{', '}']
  | object ((name, value) :: members) =>
      '{' :: gap layout (depth + 1) ++ quote name ++ colon layout ++
        render layout (depth + 1) value ++ renderMembers layout depth members

-- The items after the first, and the bracket that closes them.
def renderItems (layout : Layout) (depth : Nat) : List Json → List Char
  | [] => gap layout depth ++ [']']
  | item :: items =>
      ',' :: gap layout (depth + 1) ++ render layout (depth + 1) item ++
        renderItems layout depth items

-- The members after the first, and the brace that closes them.
def renderMembers (layout : Layout) (depth : Nat) : List (String × Json) → List Char
  | [] => gap layout depth ++ ['}']
  | (name, value) :: members =>
      ',' :: gap layout (depth + 1) ++ quote name ++ colon layout ++
        render layout (depth + 1) value ++ renderMembers layout depth members

end

def print (layout : Layout) (value : Json) : String := String.ofList (render layout 0 value)

end ApiCatalog.Json
