import ApiSurface.CommandLine.Report
import ApiSurface.Declaration.Derivation
import ApiSurface.Schema.Codec
import ApiSurface.Settings

/-!
Loading schemas, declarations and settings from files, and saving schemas. Files are given by how
they are read and written, so that what is done with them does not depend on where they are.
-/

namespace ApiSurface.CommandLine

/-- How files are read and written. -/
structure FileAccess (m : Type → Type) where
  /-- The text of a file; nothing if it is not there or holds no text. -/
  read : String → m (Option String)
  /-- Makes a file hold a text; false if that is not possible. -/
  write : String → String → m Bool

/-- A step that may fail. -/
abbrev Trying (m : Type → Type) (α : Type) := ExceptT Failure m α

namespace FileAccess

variable {m : Type → Type} [Monad m]

/-- The text of a file that is needed. -/
def text (files : FileAccess m) (what path : String) : Trying m String := do
  match ← (files.read path : m (Option String)) with
  | some text => return text
  | none => throw (.ofOutside ("failed to read " ++ what ++ path))

/-- What stands where a schema does not read. -/
def badSchema : Failure :=
  .ofOutside "failed to parse schema JSON"

/-- The schema in a file. -/
def loadSchema (files : FileAccess m) (path : String) : Trying m Schema := do
  match Schema.ofText? (← files.text "schema file " path) with
  | some schema => return schema
  | none => throw (badSchema.wrap ("in schema file " ++ path))

/-- Writes a schema to a file. -/
def saveSchema (files : FileAccess m) (path : String) (schema : Schema) : Trying m Unit := do
  if !(← (files.write path schema.toText : m Bool)) then
    throw (.ofOutside ("failed to write schema file " ++ path))

/-- The schema of the declarations in a file. -/
def deriveFile (files : FileAccess m) (path : String) : Trying m Schema := do
  match Declaration.derive (← files.text "declaration file " path) with
  | .ok schema => return schema
  | .error e => throw (.because ("in declaration file " ++ path) e.message)

/-- The settings in a file. -/
def loadSettings (files : FileAccess m) (path : String) : Trying m Settings := do
  match Settings.ofText? (← files.text "config file " path) with
  | some settings => return settings
  | none => throw (.ofOutside ("failed to parse config file " ++ path))

end FileAccess

end ApiSurface.CommandLine
