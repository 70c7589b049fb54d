import ApiCatalog.Path

namespace ApiCatalog

inductive Shell where
  | bash
  | elvish
  | fish
  | powershell
  | zsh
  deriving DecidableEq, Repr

def Shell.name : Shell → String
  | bash => "bash"
  | elvish => "elvish"
  | fish => "fish"
  | powershell => "powershell"
  | zsh => "zsh"

def Shell.all : List Shell := [bash, elvish, fish, powershell, zsh]

def Shell.ofName? (name : String) : Option Shell := Shell.all.find? (·.name == name)

structure BuildOptions where
  source : Option Path := none
  output : Option Path := none
  root : Path := ⟨"."⟩
  pretty : Bool := false
  stdout : Bool := false
  serial : Bool := false
  strict : Bool := false
  deriving DecidableEq, Repr

inductive Command where
  | build (options : BuildOptions)
  | init (path : Path) (force : Bool)
  | validate (source : Option Path) (root : Path)
  | list (source : Option Path) (root : Path)
  | completions (shell : Shell)
  deriving DecidableEq, Repr

-- Why a command line does not name a command to run.
inductive UsageError where
  | displayHelp
  | displayVersion
  | nothingGiven
  | invalidSubcommand
  | unknownArgument
  | invalidValue
  | argumentConflict
  | tooManyValues
  | missingRequiredArgument
  deriving DecidableEq, Repr

-- Asking for help or for the version is no failure.
def UsageError.exitCode : UsageError → Nat
  | displayHelp | displayVersion => 0
  | _ => 2

namespace Usage

-- What an option does when it is met.
inductive Effect where
  | flag
  | takesValue
  | showHelp
  | showVersion
  deriving DecidableEq, Repr

structure OptionSpec where
  long : String
  short : Option Char := none
  effect : Effect
  deriving DecidableEq, Repr

def helpOption : OptionSpec := ⟨"help", some 'h', .showHelp⟩

def versionOption : OptionSpec := ⟨"version", some 'V', .showVersion⟩

def rootOption : OptionSpec := { long := "root", effect := .takesValue }

def flagOption (long : String) : OptionSpec := { long, effect := .flag }

-- The one positional argument of a command: a path that may be left out, or
-- the name of a shell.
inductive Positional where
  | path
  | shell
  deriving DecidableEq, Repr

structure Spec where
  name : String
  options : List OptionSpec
  positional : Positional
  deriving DecidableEq, Repr

def commands : List Spec :=
  [⟨"build", [⟨"output", some 'o', .takesValue⟩, rootOption, flagOption "pretty",
      flagOption "stdout", flagOption "serial", flagOption "strict", helpOption], .path⟩,
    ⟨"init", [flagOption "force", helpOption], .path⟩,
    ⟨"validate", [rootOption, helpOption], .path⟩,
    ⟨"list", [rootOption, helpOption], .path⟩,
    ⟨"completions", [helpOption], .shell⟩]

-- Where a value goes.
inductive Slot where
  | positional
  | option (long : String)
  deriving DecidableEq, Repr

-- Arguments taken so far. `pending` was met last and is not settled yet: it may
-- still lack its value. `awaits` says that the next word can be that value.
structure Matches where
  taken : List (Slot × String) := []
  pending : Option (Slot × Option String) := none
  awaits : Bool := false
  deriving DecidableEq, Repr

namespace Matches

def has (m : Matches) (slot : Slot) : Bool := m.taken.any (·.1 == slot)

def value? (m : Matches) (slot : Slot) : Option String := m.taken.lookup slot

-- Whether the text fits the place it is given for.
def fits (spec : Spec) (slot : Slot) (value : String) : Bool :=
  match slot, spec.positional with
  | .positional, .shell => (Shell.ofName? value).isSome
  | _, _ => value != ""

-- Nothing is given twice, and a value must fit.
def take (spec : Spec) (m : Matches) (slot : Slot) (value : String) :
    Except UsageError Matches :=
  if m.has slot then .error .argumentConflict
  else if fits spec slot value then .ok { m with taken := m.taken ++ [(slot, value)] }
  else .error .invalidValue

def settle (spec : Spec) (m : Matches) : Except UsageError Matches :=
  match m.pending with
  | none => .ok m
  | some (_, none) => .error .invalidValue
  | some (slot, some value) => ({ m with pending := none, awaits := false }).take spec slot value

def takeFlag (m : Matches) (long : String) : Except UsageError Matches :=
  let slot := Slot.option long
  if m.has slot then .error .argumentConflict
  else .ok { m with taken := m.taken ++ [(slot, "")] }

-- A known option. A value may be attached to it; a flag takes none, which is
-- noticed before anything else.
def option (spec : Spec) (m : Matches) (o : OptionSpec) (attached : Option String) :
    Except UsageError Matches :=
  match o.effect, attached with
  | .takesValue, some value =>
      (m.settle spec).bind fun m => m.take spec (.option o.long) value
  | .takesValue, none =>
      (m.settle spec).map fun m => { m with pending := some (.option o.long, none), awaits := true }
  | _, some _ => .error .tooManyValues
  | .flag, none => (m.settle spec).bind fun m => m.takeFlag o.long
  | .showHelp, none => (m.settle spec).bind fun _ => .error .displayHelp
  | .showVersion, none => (m.settle spec).bind fun _ => .error .displayVersion

-- A word that is no option: the value waited for, or the positional argument.
def word (spec : Spec) (m : Matches) (text : String) : Except UsageError Matches :=
  match m.pending, m.awaits with
  | some (slot, none), true => .ok { m with pending := some (slot, some text), awaits := false }
  | _, _ =>
      if m.has .positional || m.pending.any (·.1 == .positional) then
        .error .unknownArgument
      else
        (m.settle spec).map fun m => { m with pending := some (.positional, some text) }

end Matches

-- A long option with what follows its equals sign.
def long? (word : List Char) : Option (String × Option String) :=
  match word with
  | '-' :: '-' :: rest =>
      match Text.cut? ['='] rest with
      | some (name, value) => some (String.ofList name, some (String.ofList value))
      | none => some (String.ofList rest, none)
  | _ => none

-- Letters after one dash. A lone dash is a word.
def shorts? (word : List Char) : Option (List Char) :=
  match word with
  | '-' :: c :: rest => if c = '-' then none else some (c :: rest)
  | _ => none

-- Letters from left to right. One that takes a value takes the rest for it, an
-- equals sign in front left out.
def readShorts (spec : Spec) (m : Matches) : List Char → Except UsageError Matches
  | [] => .ok m
  | c :: rest =>
      match spec.options.find? (·.short == some c) with
      | none => .error .unknownArgument
      | some o =>
          if o.effect = .takesValue then
            match rest with
            | [] => m.option spec o none
            | '=' :: value => m.option spec o (some (String.ofList value))
            | value => m.option spec o (some (String.ofList value))
          else
            (m.option spec o none).bind fun m => readShorts spec m rest

-- `onlyWords` holds after a `--`, which also ends the wait for a value.
def readArguments (spec : Spec) (m : Matches) (onlyWords : Bool) :
    List String → Except UsageError Matches
  | [] => m.settle spec
  | argument :: rest =>
      if onlyWords then
        (m.word spec argument).bind fun m => readArguments spec m true rest
      else if argument = "--" then
        readArguments spec { m with awaits := false } true rest
      else
        match long? argument.toList, shorts? argument.toList with
        | some (name, attached), _ =>
            match spec.options.find? (·.long == name) with
            | none => .error .unknownArgument
            | some o => (m.option spec o attached).bind fun m => readArguments spec m false rest
        | none, some letters =>
            (readShorts spec m letters).bind fun m => readArguments spec m false rest
        | none, none => (m.word spec argument).bind fun m => readArguments spec m false rest

def Matches.path? (m : Matches) (slot : Slot) : Option Path := (m.value? slot).map (⟨·⟩)

def Matches.root (m : Matches) : Path := (m.path? (.option "root")).getD ⟨"."⟩

def Matches.command (name : String) (m : Matches) : Except UsageError Command :=
  let source := m.path? .positional
  match name with
  | "build" =>
      .ok (.build {
        source
        output := m.path? (.option "output")
        root := m.root
        pretty := m.has (.option "pretty")
        stdout := m.has (.option "stdout")
        serial := m.has (.option "serial")
        strict := m.has (.option "strict") })
  | "init" => .ok (.init (source.getD ⟨"."⟩) (m.has (.option "force")))
  | "validate" => .ok (.validate source m.root)
  | "list" => .ok (.list source m.root)
  | _ =>
      match (m.value? .positional).bind Shell.ofName? with
      | some shell => .ok (.completions shell)
      | none => .error .missingRequiredArgument

def spec? (name : String) : Option Spec := commands.find? (·.name == name)

-- What `help` is asked about must be commands inside one another, and no
-- command holds others.
def help (words : List String) : UsageError :=
  match words with
  | [] => .displayHelp
  | [name] => if name == "help" || (spec? name).isSome then .displayHelp else .invalidSubcommand
  | _ => .invalidSubcommand

-- Options that may stand in front of a command.
def topOptions : List OptionSpec := [helpOption, versionOption]

-- Each of them ends the reading.
def topOption (o : Option OptionSpec) (attached : Option String) : UsageError :=
  match o with
  | none => .unknownArgument
  | some o =>
      if attached.isSome then .tooManyValues
      else if o.effect = .showVersion then .displayVersion
      else .displayHelp

-- The command of an argument list. After `--` no word is a command any more.
def parse : List String → Except UsageError Command
  | [] => .error .nothingGiven
  | first :: rest =>
      if first = "--" then
        match rest with
        | [] => .error .nothingGiven
        | word :: _ =>
            if word == "help" || (spec? word).isSome then .error .unknownArgument
            else .error .invalidSubcommand
      else
        match long? first.toList, shorts? first.toList with
        | some (name, attached), _ =>
            .error (topOption (topOptions.find? (·.long == name)) attached)
        | none, some (c :: _) => .error (topOption (topOptions.find? (·.short == some c)) none)
        | _, _ =>
            if first = "help" then
              .error (help rest)
            else
              match spec? first with
              | none => .error .invalidSubcommand
              | some spec => (readArguments spec {} false rest).bind (·.command spec.name)

-- How one option is written.
def OptionSpec.text (o : OptionSpec) : String :=
  let short := match o.short with
    | some c => String.ofList ['-', c, ',', ' ']
    | none => ""
  short ++ "--" ++ o.long ++ (if o.effect = .takesValue then " <value>" else "")

def Spec.text (s : Spec) : String :=
  let positional := match s.positional with
    | .path => " [path]"
    | .shell => " <shell>"
  "  " ++ s.name ++ positional ++ String.join (s.options.map fun o => " [" ++ o.text ++ "]") ++ "\n"

def helpText : String :=
  "Compile API annotation comments into a JSON document\n\n" ++
  "Usage: apidoc <command>\n\nCommands:\n" ++
    String.join (commands.map Spec.text) ++ "  help [command]\n"

def versionText : String := "apidoc 0.4.0\n"

end Usage

-- What is told to the user. Only the kind of an error and its exit code are settled; its words,
-- like those of the help text, are this library's own.
def UsageError.text : UsageError → String
  | displayHelp | nothingGiven => Usage.helpText
  | displayVersion => Usage.versionText
  | invalidSubcommand => "error: unrecognized subcommand\n"
  | unknownArgument => "error: unexpected argument found\n"
  | invalidValue => "error: a value is missing or invalid\n"
  | argumentConflict => "error: an argument cannot be used multiple times\n"
  | tooManyValues => "error: a value was given to an argument that takes none\n"
  | missingRequiredArgument => "error: a required argument was not provided\n"

end ApiCatalog
