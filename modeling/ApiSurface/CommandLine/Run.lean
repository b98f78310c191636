import ApiSurface.CommandLine.Arguments
import ApiSurface.CommandLine.Files
import ApiSurface.Plan.Codec
import ApiSurface.Plan.Conformance
import ApiSurface.Schema.Check

/-!
The subcommands, and what the command ends with: its exit code, what it prints, and what it reports.
-/

namespace ApiSurface.CommandLine

/-- What a run of the command ends with. -/
structure Outcome where
  code : Nat
  output : String := ""
  errors : String := ""
  deriving Repr, DecidableEq

variable {m : Type → Type} [Monad m]

/-- Refuses a schema that breaks a rule. -/
def checkSchema (schema : Schema) (message : String) : Trying m Unit :=
  match schema.validate with
  | .ok _ => return
  | .error violations => throw (.because message (Schema.report violations))

/-- The schema that a source gives. -/
def schemaOf (files : FileAccess m) : SchemaSource → Trying m Schema
  | .project name =>
    match Catalogue.schema name with
    | .ok schema => return schema
    | .error e => throw { message := e.message }
  | .declarations path => files.deriveFile path

/-- The summary of a run as JSON. -/
def summary (fields : List (String × Json)) : String :=
  (Json.object fields).pretty 0 ++ "\n"

/-- What is printed when a schema is written to a file. -/
def writtenText (json : Bool) (path : String) (size : Nat) : String :=
  if json then
    summary [("endpoints", .integer size), ("output", .text path), ("success", .bool true)]
  else "Wrote " ++ toString size ++ " endpoints to " ++ path ++ "\n"

/-- What is printed when everything is in order. -/
def validText (json : Bool) (size : Nat) : String :=
  if json then summary [("endpoints", .integer size), ("success", .bool true)]
  else "OK: " ++ toString size ++ " endpoints\n"

/-- Gives a schema: prints it, or writes it to a file. -/
def infer (files : FileAccess m) (json : Bool) (source : SchemaSource) (output : Option String) :
    Trying m String := do
  let schema ← schemaOf files source
  checkSchema schema "inferred schema violates schema invariants"
  match output with
  | none => return schema.toText ++ "\n"
  | some path =>
    files.saveSchema path schema
    return writtenText json path schema.size

/-- Checks the graph in a file against a schema. -/
def checkGraph (files : FileAccess m) (schema : Schema) (path : String) : Trying m Unit := do
  match Graph.ofText? (← files.text "" path) with
  | none => throw (.ofOutside "failed to parse call graph")
  | some graph =>
    match graph.conforms schema with
    | .ok _ => return
    | .error e => throw (.because ("graph " ++ path ++ " is invalid") e.message)

/-- Checks the sequence in a file against a schema. -/
def checkSequence (files : FileAccess m) (schema : Schema) (path : String) : Trying m Unit := do
  match CallSequence.ofText? (← files.text "" path) with
  | none => throw (.ofOutside "failed to parse call sequence")
  | some calls =>
    match calls.conforms schema with
    | .ok _ => return
    | .error e => throw (.because ("sequence " ++ path ++ " is invalid") e.message)

/-- Checks the schema in a file, and plans against it. -/
def validate (files : FileAccess m) (json : Bool) (path : String)
    (graph callSequence : Option String) : Trying m String := do
  let schema ← files.loadSchema path
  checkSchema schema ("schema " ++ path ++ " is invalid")
  graph.forM (checkGraph files schema)
  callSequence.forM (checkSequence files schema)
  return validText json schema.size

/-- Does what a subcommand asks for. -/
def execute (files : FileAccess m) (json : Bool) : Command → Trying m String
  | .infer source output => infer files json source output
  | .validate schema graph callSequence => validate files json schema graph callSequence

/-- How the command is used. -/
def usage : String :=
  "Usage: shapefuzz infer (--project NAME | --decl PATH) [-o PATH] [--json] [-v]\n"
    ++ "       shapefuzz validate SCHEMA [--graph PATH] [--sequence PATH] [--json] [-v]\n"

/-- Runs the command with its arguments. -/
def run (files : FileAccess m) (args : List String) : m Outcome :=
  match Request.ofArguments args with
  | .misuse => return { code := 2, errors := usage }
  | .help => return { code := 0, output := usage }
  | .version => return { code := 0, output := "shapefuzz 0.1.0\n" }
  | .run command json => do
    match ← (execute files json command).run with
    | .ok output => return { code := 0, output := output }
    | .error f => return { code := 1, errors := f.report ++ "\n" }

end ApiSurface.CommandLine
