import ApiCatalog.Yaml.Token

namespace ApiCatalog.Yaml

inductive Node where
  | scalar (text : String) (plain : Bool)
  | sequence (items : List Node)
  | mapping (entries : List (Node × Node))
  deriving Repr, Inhabited

namespace Node

-- What stands where nothing is written.
def blank : Node := scalar "" true

-- Nodes that were given a name, newest first.
abbrev Anchors := List (String × Node)

-- A node read, the tokens after it, and the names known from there on.
structure Parsed (α : Type) where
  value : α
  rest : List Token
  anchors : Anchors

def Parsed.map {α β : Type} (f : α → β) (p : Parsed α) : Parsed β :=
  ⟨f p.value, p.rest, p.anchors⟩

-- Where a node stands: `flow` is inside brackets, `entry` an item of a block
-- sequence or a whole document, `inMapping` a key or value of a block mapping,
-- whose sequence may stand at the mapping's own column.
inductive Place where
  | flow
  | entry
  | inMapping
  deriving DecidableEq

-- Properties in front of a node: the name it is given, and whether there were any.
def properties : List Token → Option String × Bool × List Token
  | .anchor name :: .tag :: rest => (some name, true, rest)
  | .tag :: .anchor name :: rest => (some name, true, rest)
  | .anchor name :: rest => (some name, true, rest)
  | .tag :: rest => (none, true, rest)
  | rest => (none, false, rest)

-- Tokens before which a key, a value or an item of a block is empty.
def endsBlockPart : List Token → Bool
  | .key :: _ | .value :: _ | .blockEnd :: _ => true
  | _ => false

def endsFlowPart : List Token → Bool
  | .flowEntry :: _ | .flowSequenceEnd :: _ | .flowMappingEnd :: _ | .value :: _ => true
  | _ => false

mutual

-- The fuel bounds the number of tokens that are still read.
def node? (place : Place) : Nat → Anchors → List Token → Option (Parsed Node)
  | 0, _, _ => none
  | fuel + 1, anchors, tokens =>
      match tokens with
      | .alias name :: rest => (anchors.lookup name).map fun value => ⟨value, rest, anchors⟩
      | _ =>
          let (name, hasProperties, rest) := properties tokens
          let content : Option (Parsed Node) := match rest with
            | .scalar text plain :: rest => some ⟨scalar text plain, rest, anchors⟩
            | .flowSequenceStart :: rest =>
                (flowItems? true fuel anchors rest).map (·.map sequence)
            | .flowMappingStart :: rest =>
                (flowEntries? true fuel anchors rest).map (·.map mapping)
            | .blockSequenceStart :: rest =>
                if place = .flow then none
                else (blockItems? fuel anchors rest).map (·.map sequence)
            | .blockMappingStart :: rest =>
                if place = .flow then none
                else (blockEntries? fuel anchors rest).map (·.map mapping)
            | .blockEntry :: _ =>
                if place = .inMapping then
                  (looseItems? fuel anchors rest).map (·.map sequence)
                else if hasProperties then some ⟨blank, rest, anchors⟩
                else none
            | _ => if hasProperties then some ⟨blank, rest, anchors⟩ else none
          content.map fun p => match name with
            | some name => { p with anchors := (name, p.value) :: p.anchors }
            | none => p

-- Items of a block sequence, up to the end of the block.
def blockItems? : Nat → Anchors → List Token → Option (Parsed (List Node))
  | 0, _, _ => none
  | fuel + 1, anchors, tokens =>
      match tokens with
      | .blockEnd :: rest => some ⟨[], rest, anchors⟩
      | .blockEntry :: rest =>
          let item : Option (Parsed Node) := match rest with
            | .blockEntry :: _ | .blockEnd :: _ => some ⟨blank, rest, anchors⟩
            | _ => node? .entry fuel anchors rest
          item.bind fun p =>
            (blockItems? fuel p.anchors p.rest).map (·.map (p.value :: ·))
      | _ => none

-- Items at the column of the mapping around them, which ends them.
def looseItems? : Nat → Anchors → List Token → Option (Parsed (List Node))
  | 0, _, _ => none
  | fuel + 1, anchors, tokens =>
      match tokens with
      | .blockEntry :: rest =>
          let item : Option (Parsed Node) := match rest with
            | .blockEntry :: _ => some ⟨blank, rest, anchors⟩
            | _ =>
                if endsBlockPart rest then some ⟨blank, rest, anchors⟩
                else node? .entry fuel anchors rest
          item.bind fun p =>
            (looseItems? fuel p.anchors p.rest).map (·.map (p.value :: ·))
      | _ => some ⟨[], tokens, anchors⟩

-- Entries of a block mapping, up to the end of the block. A key may lack its
-- value, and an explicit key its content.
def blockEntries? : Nat → Anchors → List Token → Option (Parsed (List (Node × Node)))
  | 0, _, _ => none
  | fuel + 1, anchors, tokens =>
      match tokens with
      | .blockEnd :: rest => some ⟨[], rest, anchors⟩
      | .key :: rest =>
          let key : Option (Parsed Node) :=
            if endsBlockPart rest then some ⟨blank, rest, anchors⟩
            else node? .inMapping fuel anchors rest
          key.bind fun k =>
            let value : Option (Parsed Node) := match k.rest with
              | .value :: rest =>
                  if endsBlockPart rest then some ⟨blank, rest, k.anchors⟩
                  else node? .inMapping fuel k.anchors rest
              | rest => some ⟨blank, rest, k.anchors⟩
            value.bind fun v =>
              (blockEntries? fuel v.anchors v.rest).map (·.map ((k.value, v.value) :: ·))
      | _ => none

-- A value in brackets, which may be missing.
def flowValue? : Nat → Anchors → List Token → Option (Parsed Node)
  | 0, _, _ => none
  | fuel + 1, anchors, tokens =>
      match tokens with
      | .value :: rest =>
          if endsFlowPart rest then some ⟨blank, rest, anchors⟩ else node? .flow fuel anchors rest
      | _ => some ⟨blank, tokens, anchors⟩

def flowKey? : Nat → Anchors → List Token → Option (Parsed Node)
  | 0, _, _ => none
  | fuel + 1, anchors, tokens =>
      if endsFlowPart tokens then some ⟨blank, tokens, anchors⟩
      else node? .flow fuel anchors tokens

-- Items between square brackets. A comma stands between two of them and may
-- follow the last; a key and a value make a mapping of their own.
def flowItems? (first : Bool) : Nat → Anchors → List Token → Option (Parsed (List Node))
  | 0, _, _ => none
  | fuel + 1, anchors, tokens =>
      match tokens with
      | .flowSequenceEnd :: rest => some ⟨[], rest, anchors⟩
      | _ =>
          let rest : Option (List Token) := if first then some tokens else match tokens with
            | .flowEntry :: rest => some rest
            | _ => none
          rest.bind fun rest =>
            match rest with
            | .flowSequenceEnd :: rest => some ⟨[], rest, anchors⟩
            | _ =>
                let item : Option (Parsed Node) := match rest with
                  | .key :: rest =>
                      (flowKey? fuel anchors rest).bind fun k =>
                        (flowValue? fuel k.anchors k.rest).map
                          (·.map fun v => mapping [(k.value, v)])
                  | _ => node? .flow fuel anchors rest
                item.bind fun p =>
                  (flowItems? false fuel p.anchors p.rest).map (·.map (p.value :: ·))

-- Entries between braces. An entry without a key mark is a key alone.
def flowEntries? (first : Bool) : Nat → Anchors → List Token → Option (Parsed (List (Node × Node)))
  | 0, _, _ => none
  | fuel + 1, anchors, tokens =>
      match tokens with
      | .flowMappingEnd :: rest => some ⟨[], rest, anchors⟩
      | _ =>
          let rest : Option (List Token) := if first then some tokens else match tokens with
            | .flowEntry :: rest => some rest
            | _ => none
          rest.bind fun rest =>
            match rest with
            | .flowMappingEnd :: rest => some ⟨[], rest, anchors⟩
            | _ =>
                let entry : Option (Parsed (Node × Node)) := match rest with
                  | .key :: rest =>
                      (flowKey? fuel anchors rest).bind fun k =>
                        (flowValue? fuel k.anchors k.rest).map (·.map (k.value, ·))
                  | _ => (node? .flow fuel anchors rest).map (·.map (·, blank))
                entry.bind fun p =>
                  (flowEntries? false fuel p.anchors p.rest).map (·.map (p.value :: ·))

end

-- A document after its start marker, which may be empty.
def marked? (tokens : List Token) : Option (Parsed Node) :=
  match tokens with
  | [] | .documentStart :: _ | .documentEnd :: _ | .directive :: _ => some ⟨blank, tokens, []⟩
  | _ => node? .entry (2 * tokens.length + 2) [] tokens

-- A document without a start marker, which is empty only if the stream is.
def unmarked? (tokens : List Token) : Option (Parsed Node) :=
  match tokens with
  | [] => some ⟨blank, [], []⟩
  | _ => node? .entry (2 * tokens.length + 2) [] tokens

-- The one document of a stream. At most one directive may precede it, and then
-- a start marker must; nothing but end markers may follow it.
def ofTokens? (tokens : List Token) : Option Node :=
  let parsed := match tokens with
    | .directive :: .documentStart :: rest => marked? rest
    | .documentStart :: rest => marked? rest
    | _ => unmarked? tokens
  parsed.bind fun p => if p.rest.all (· == .documentEnd) then some p.value else none

def read? (text : String) : Option Node := (Token.ofText? text).bind ofTokens?

end Node

end ApiCatalog.Yaml
