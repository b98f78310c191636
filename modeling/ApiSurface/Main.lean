import ApiSurface.CommandLine.Run

/-!
The command: reads the files it is asked to, and writes what it has to say.
-/

open ApiSurface.CommandLine

/-- The files of the system. -/
def systemFiles : FileAccess IO where
  read path := do
    try
      return some (← IO.FS.readFile path)
    catch _ => return none
  write path text := do
    try
      IO.FS.writeFile path text
      return true
    catch _ => return false

def main (args : List String) : IO UInt32 := do
  let outcome ← ApiSurface.CommandLine.run systemFiles args
  IO.print outcome.output
  IO.eprint outcome.errors
  return outcome.code.toUInt32
