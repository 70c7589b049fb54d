import ApiCatalog.Json.Basic

namespace ApiCatalog.Json

inductive Token where
  | openArray
  | closeArray
  | openObject
  | closeObject
  | comma
  | colon
  | string (value : String)
  | scalar (value : Json)

def hexValue? (c : Char) : Option Nat :=
  if '0' ≤ c ∧ c ≤ '9' then some (c.toNat - 48)
  else if 'a' ≤ c ∧ c ≤ 'f' then some (c.toNat - 87)
  else if 'A' ≤ c ∧ c ≤ 'F' then some (c.toNat - 55)
  else none

def hexCode? (digits : List Char) : Option Nat :=
  digits.foldlM (fun n c => (hexValue? c).map (16 * n + ·)) 0

-- The escapes of one letter.
def simpleEscape? (c : Char) : Option Char :=
  match c with
  | '"' | '\\' | '/' => some c
  | 'b' => some (Char.ofNat 8)
  | 'f' => some (Char.ofNat 12)
  | 'n' => some '\n'
  | 'r' => some '\r'
  | 't' => some '\t'
  | _ => none

-- What stands between the quotes of a string, read character by character:
-- either plain text, or inside an escape with the digits so far, newest first.
-- `high` is the first half of a character written as two escapes.
inductive Spelling where
  | plain
  | backslash
  | code (digits : List Char)

-- The character of a `\u` escape with its four digits, or the half to wait for.
def unicodeEscape? (high : Option Nat) (code : Nat) : Option (Option Nat × List Char) :=
  match high with
  | some first =>
      if 0xDC00 ≤ code ∧ code ≤ 0xDFFF then
        some (none, [Char.ofNat (0x10000 + 0x400 * (first - 0xD800) + (code - 0xDC00))])
      else
        none
  | none =>
      if 0xD800 ≤ code ∧ code ≤ 0xDBFF then some (some code, [])
      else if 0xDC00 ≤ code ∧ code ≤ 0xDFFF then none
      else some (none, [Char.ofNat code])

def unescape : Spelling → Option Nat → List Char → Option (List Char)
  | .plain, none, [] => some []
  | _, _, [] => none
  | .plain, high, c :: rest =>
      if c = '\\' then unescape .backslash high rest
      else if high.isSome then none
      else (unescape .plain none rest).map (c :: ·)
  | .backslash, high, c :: rest =>
      if c = 'u' then unescape (.code []) high rest
      else if high.isSome then none
      else (simpleEscape? c).bind fun d => (unescape .plain none rest).map (d :: ·)
  | .code digits, high, c :: rest =>
      if digits.length < 3 then
        unescape (.code (c :: digits)) high rest
      else
        (hexCode? (c :: digits).reverse).bind fun code =>
          (unicodeEscape? high code).bind fun (high', chars) =>
            (unescape .plain high' rest).map (chars ++ ·)

def isDigit (c : Char) : Bool := '0' ≤ c && c ≤ '9'

-- An exponent, or nothing.
def isExponent : List Char → Bool
  | [] => true
  | e :: rest =>
      let digits := match rest with
        | '+' :: ds | '-' :: ds => ds
        | ds => ds
      (e == 'e' || e == 'E') && !digits.isEmpty && digits.all isDigit

-- An optional minus, an integer without a leading zero, a fraction, an exponent.
def isNumber (word : List Char) : Bool :=
  let unsigned := match word with
    | '-' :: rest => rest
    | rest => rest
  let whole := unsigned.takeWhile isDigit
  let after := unsigned.dropWhile isDigit
  let wholeFits := !whole.isEmpty && (whole.length == 1 || whole.head? != some '0')
  match after with
  | '.' :: rest =>
      wholeFits && !(rest.takeWhile isDigit).isEmpty && isExponent (rest.dropWhile isDigit)
  | _ => wholeFits && isExponent after

def wordToken? (word : List Char) : Option Token :=
  if word = ['n', 'u', 'l', 'l'] then some (.scalar .null)
  else if word = ['t', 'r', 'u', 'e'] then some (.scalar (.bool true))
  else if word = ['f', 'a', 'l', 's', 'e'] then some (.scalar (.bool false))
  else if isNumber word then some (.scalar (.number (String.ofList word)))
  else none

def punctuation? (c : Char) : Option Token :=
  match c with
  | '[' => some .openArray
  | ']' => some .closeArray
  | '{' => some .openObject
  | '}' => some .closeObject
  | ',' => some .comma
  | ':' => some .colon
  | _ => none

def isSpace (c : Char) : Bool := c == ' ' || c == '\n' || c == '\r' || c == '\t'

-- Where the scanner stands: between tokens, in a bare word, or in a string,
-- perhaps just past a backslash. What has been passed is kept newest first.
inductive Scanning where
  | between
  | word (passed : List Char)
  | text (passed : List Char)
  | escaped (passed : List Char)

def tokens? : Scanning → List Char → Option (List Token)
  | .between, [] => some []
  | .word passed, [] => (wordToken? passed.reverse).map ([·])
  | .text _, [] => none
  | .escaped _, [] => none
  | .between, c :: rest =>
      if isSpace c then tokens? .between rest
      else if c = '"' then tokens? (.text []) rest
      else match punctuation? c with
        | some token => (tokens? .between rest).map (token :: ·)
        | none => tokens? (.word [c]) rest
  | .word passed, c :: rest =>
      if isSpace c then
        (wordToken? passed.reverse).bind fun word => (tokens? .between rest).map (word :: ·)
      else match punctuation? c with
        | some token =>
            (wordToken? passed.reverse).bind fun word =>
              (tokens? .between rest).map (word :: token :: ·)
        | none => tokens? (.word (c :: passed)) rest
  | .text passed, c :: rest =>
      if c = '"' then
        (unescape .plain none passed.reverse).bind fun value =>
          (tokens? .between rest).map (.string (String.ofList value) :: ·)
      else if c = '\\' then tokens? (.escaped passed) rest
      else if c.toNat < 32 then none
      else tokens? (.text (c :: passed)) rest
  | .escaped passed, c :: rest => tokens? (.text (c :: '\\' :: passed)) rest

-- An open container with what it holds so far, newest first. `member` is an
-- object whose next value belongs to a name already read.
inductive Frame where
  | array (items : List Json)
  | object (members : List (String × Json))
  | member (members : List (String × Json)) (name : String)

-- What may come next. Just after an opening bracket the container may close.
inductive Want where
  | value
  | itemOrClose
  | name
  | nameOrClose
  | colon (name : String)
  | commaOrClose
  | nothing (result : Json)

structure Reading where
  opened : List Frame
  want : Want

-- A value is complete: it goes into the innermost open container.
def settle? (value : Json) : List Frame → Option Reading
  | [] => some ⟨[], .nothing value⟩
  | .array items :: outer => some ⟨.array (value :: items) :: outer, .commaOrClose⟩
  | .member members name :: outer =>
      some ⟨.object ((name, value) :: members) :: outer, .commaOrClose⟩
  | .object _ :: _ => none

def close? (token : Token) : List Frame → Option Reading
  | .array items :: outer =>
      match token with
      | .closeArray => settle? (.array items.reverse) outer
      | _ => none
  | .object members :: outer =>
      match token with
      | .closeObject => settle? (.object members.reverse) outer
      | _ => none
  | _ => none

def begin? (token : Token) (outer : List Frame) : Option Reading :=
  match token with
  | .openArray => some ⟨.array [] :: outer, .itemOrClose⟩
  | .openObject => some ⟨.object [] :: outer, .nameOrClose⟩
  | .string value => settle? (.string value) outer
  | .scalar value => settle? value outer
  | _ => none

def step? (r : Reading) (token : Token) : Option Reading :=
  match r.want, token with
  | .value, _ => begin? token r.opened
  | .itemOrClose, .closeArray => close? token r.opened
  | .itemOrClose, _ => begin? token r.opened
  | .name, .string name => some ⟨r.opened, .colon name⟩
  | .nameOrClose, .string name => some ⟨r.opened, .colon name⟩
  | .nameOrClose, .closeObject => close? token r.opened
  | .colon name, .colon =>
      match r.opened with
      | .object members :: outer => some ⟨.member members name :: outer, .value⟩
      | _ => none
  | .commaOrClose, .comma =>
      match r.opened with
      | .array _ :: _ => some ⟨r.opened, .value⟩
      | .object _ :: _ => some ⟨r.opened, .name⟩
      | _ => none
  | .commaOrClose, _ => close? token r.opened
  | _, _ => none

def ofTokens? (tokens : List Token) : Option Json :=
  (tokens.foldlM step? ⟨[], .value⟩).bind fun r =>
    match r.want with
    | .nothing result => some result
    | _ => none

def read? (text : String) : Option Json := (tokens? .between text.toList).bind ofTokens?

end ApiCatalog.Json
