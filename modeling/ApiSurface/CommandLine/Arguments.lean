import ApiSurface.Catalogue

/-!
The arguments of the command. An option is given by its long name or its letter, its value as the
next argument or attached; switches may stand before or behind the name of the subcommand. The
arguments are looked at from left to right, and the first that is wrong, or that asks for help,
decides.
-/

namespace ApiSurface.CommandLine

/-- Where a schema comes from. -/
inductive SchemaSource where
  /-- The catalogue, under this name. -/
  | project (name : String)
  /-- The declarations in a file. -/
  | declarations (path : String)
  deriving Repr, DecidableEq

/-- What the command is to do. -/
inductive Command where
  /-- Give a schema, written to a file if one is named. -/
  | infer (source : SchemaSource) (output : Option String)
  /-- Check the schema in a file, and plans against it. -/
  | validate (schema : String) (graph callSequence : Option String)
  deriving Repr, DecidableEq

/-- What the arguments ask for. -/
inductive Request where
  | run (command : Command) (json : Bool)
  | help
  | version
  /-- Nothing that the command does. -/
  | misuse
  deriving Repr, DecidableEq

/-- The options of the command and its subcommands. -/
inductive Opt where
  | json
  | verbose
  | help
  | version
  | project
  | decl
  | output
  | graph
  | callSequence
  deriving Repr, DecidableEq

namespace Opt

/-- The long name of an option. -/
def name : Opt → String
  | json => "json"
  | verbose => "verbose"
  | help => "help"
  | version => "version"
  | project => "project"
  | decl => "decl"
  | output => "output"
  | graph => "graph"
  | callSequence => "sequence"

/-- The letter of an option. -/
def letter? : Opt → Option Char
  | verbose => some 'v'
  | help => some 'h'
  | version => some 'V'
  | output => some 'o'
  | json | project | decl | graph | callSequence => none

/-- Whether an option has a value. -/
def hasValue : Opt → Bool
  | project | decl | output | graph | callSequence => true
  | json | verbose | help | version => false

/-- Whether an option may have the value: a project that there is, or a path. -/
def accepts : Opt → String → Bool
  | project, value => Catalogue.names.contains value
  | _, value => !value.isEmpty

end Opt

/-- A piece of the arguments. -/
inductive Item where
  | option (o : Opt) (value : String)
  | plain (value : String)
  /-- No option that there is, or one without its value. -/
  | wrong
  deriving Repr, DecidableEq

/-- Whether an argument is written as an option. -/
def isOption (arg : List Char) : Bool :=
  match arg with
  | '-' :: _ :: _ => true
  | _ => false

/-- The text before the first equals sign, and the text after it if there is one. -/
def splitValue : List Char → List Char × Option (List Char)
  | [] => ([], none)
  | '=' :: r => ([], some r)
  | c :: r =>
    let (a, b) := splitValue r
    (c :: a, b)

/-- An option whose value may be the next argument, and the arguments after it. -/
def withNext (o : Opt) : List String → Item × List String
  | [] => (.wrong, [])
  | a :: r => if isOption a.toList then (.wrong, a :: r) else (.option o a, r)

/-- The options of an argument that gives a long name, and the arguments after it. -/
def scanLong (opts : List Opt) (arg : List Char) (r : List String) : List Item × List String :=
  let (name, value) := splitValue arg
  match opts.find? fun o => o.name.toList == name, value with
  | none, _ => ([.wrong], r)
  | some o, some v => ([if o.hasValue then .option o (String.ofList v) else .wrong], r)
  | some o, none =>
    if o.hasValue then
      let (item, r) := withNext o r
      ([item], r)
    else ([.option o ""], r)

/-- The options of an argument that gives letters, and the arguments after it. -/
def scanLetters (opts : List Opt) (r : List String) : List Char → List Item × List String
  | [] => ([], r)
  | c :: cs =>
    match opts.find? fun o => o.letter? == some c with
    | none => ([.wrong], r)
    | some o =>
      if o.hasValue then
        match cs with
        | [] =>
          let (item, r) := withNext o r
          ([item], r)
        | '=' :: v => ([.option o (String.ofList v)], r)
        | v => ([.option o (String.ofList v)], r)
      else
        let (items, r) := scanLetters opts r cs
        (.option o "" :: items, r)

/-- What the first of the arguments says, and the arguments after it. -/
def scanOne (opts : List Opt) (a : String) (r : List String) : List Item × List String :=
  match a.toList with
  | '-' :: '-' :: name => scanLong opts name r
  | '-' :: c :: letters => scanLetters opts r (c :: letters)
  | _ => ([.plain a], r)

/-- The pieces of the arguments, of which at most `fuel` are looked at. Behind a double dash nothing
is an option. -/
def scan (opts : List Opt) : Nat → List String → List Item
  | 0, _ | _, [] => []
  | fuel + 1, a :: r =>
    if a = "--" then r.map .plain
    else
      let (items, r) := scanOne opts a r
      items ++ scan opts fuel r

/-- The options given so far, each at most once, and the plain arguments. -/
structure Given where
  options : List (Opt × String) := []
  plain : List String := []

namespace Given

/-- The value of an option, if it is given. -/
def value? (g : Given) (o : Opt) : Option String :=
  g.options.lookup o

/-- Whether an option is given. -/
def has (g : Given) (o : Opt) : Bool :=
  (g.value? o).isSome

/-- Takes one more piece, unless that ends the matter. Only `plain` plain arguments are wanted. -/
def add (plain : Nat) (g : Given) : Item → Except Request Given
  | .wrong => .error .misuse
  | .option .help _ => .error .help
  | .option .version _ => .error .version
  | .option o value =>
    if g.has o || (o.hasValue && !o.accepts value) then .error .misuse
    else .ok { g with options := g.options ++ [(o, value)] }
  | .plain value =>
    if g.plain.length < plain && !value.isEmpty then .ok { g with plain := g.plain ++ [value] }
    else .error .misuse

/-- What the arguments give. -/
def ofArguments (opts : List Opt) (plain : Nat) (args : List String) : Except Request Given :=
  (scan opts args.length args).foldlM (add plain) {}

end Given

/-- The options that may stand before the subcommand. -/
def commonOptions : List Opt := [.json, .verbose, .help, .version]

/-- The options of the subcommand that gives a schema. -/
def inferOptions : List Opt := [.json, .verbose, .help, .project, .decl, .output]

/-- The options of the subcommand that checks. -/
def validateOptions : List Opt := [.json, .verbose, .help, .graph, .callSequence]

/-- The subcommand that gives a schema. Exactly one source has to be named. -/
def inferRequest (json : Bool) (args : List String) : Except Request Request := do
  let g ← Given.ofArguments inferOptions 0 args
  let json := json || g.has .json
  match g.value? .project, g.value? .decl with
  | some name, none => return .run (.infer (.project name) (g.value? .output)) json
  | none, some path => return .run (.infer (.declarations path) (g.value? .output)) json
  | _, _ => throw .misuse

/-- The subcommand that checks a schema and plans. -/
def validateRequest (json : Bool) (args : List String) : Except Request Request := do
  let g ← Given.ofArguments validateOptions 1 args
  let json := json || g.has .json
  match g.plain with
  | [schema] => return .run (.validate schema (g.value? .graph) (g.value? .callSequence)) json
  | _ => throw .misuse

/-- The subcommand that explains the command or one of its subcommands. -/
def helpRequest : List String → Request
  | [] => .help
  | [name] => if ["infer", "validate", "help"].contains name then .help else .misuse
  | _ => .misuse

/-- What the arguments ask for: the switches before the subcommand come first. -/
def Request.ofArguments (args : List String) : Request :=
  let isSwitch (a : String) : Bool := isOption a.toList && a != "--"
  let request : Except Request Request := do
    let g ← Given.ofArguments commonOptions 0 (args.takeWhile isSwitch)
    let json := g.has .json
    match args.dropWhile isSwitch with
    | "infer" :: r => inferRequest json r
    | "validate" :: r => validateRequest json r
    | "help" :: r => return helpRequest r
    | _ => throw .misuse
  match request with
  | .ok r | .error r => r

end ApiSurface.CommandLine
