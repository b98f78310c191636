/-!
Reports of failure: a message, the causes behind it from the nearest to the farthest, and whether
one more lies outside of this program (what the system or the reading of a text says). A report
shows the message, then every cause on a line of its own.
-/

namespace ApiSurface.CommandLine

/-- A failure with what caused it. -/
structure Failure where
  message : String
  causes : List String := []
  /-- Whether the last cause is the word of the system or of a reader. -/
  outside : Bool := false
  deriving Repr, DecidableEq

namespace Failure

/-- The failure that caused nothing else yet. -/
def because (message cause : String) : Failure :=
  { message := message, causes := [cause] }

/-- A failure that the system or a reader caused. -/
def ofOutside (message : String) : Failure :=
  { message := message, outside := true }

/-- A failure that another one caused. -/
def wrap (message : String) (f : Failure) : Failure :=
  { message := message, causes := f.message :: f.causes, outside := f.outside }

/-- The messages from the outermost on. -/
def chain (f : Failure) : List String :=
  f.message :: f.causes

/-- The line breaks of a text followed by blanks. -/
def indentBreaks (indent : String) (text : String) : String :=
  String.ofList (text.toList.flatMap fun c => if c = '\n' then '\n' :: indent.toList else [c])

/-- A text with blanks before it that make it at least so long. -/
def padLeft (width : Nat) (text : String) : String :=
  String.ofList (List.replicate (width - text.length) ' ') ++ text

/-- A cause that stands alone. -/
def onlyLine (cause : String) : String :=
  "    " ++ indentBreaks "    " cause

/-- A cause with its number. -/
def numberedLine (p : String × Nat) : String :=
  padLeft 5 (toString p.2) ++ ": " ++ indentBreaks "       " p.1

/-- What stands for a cause outside of this program. -/
def outsideCause : String :=
  "the text or the file is not as it should be"

/-- All causes. -/
def allCauses (f : Failure) : List String :=
  f.causes ++ if f.outside then [outsideCause] else []

/-- The lines that name the causes; they are numbered if there is more than one. -/
def causeLines : List String → List String
  | [] => []
  | [cause] => [onlyLine cause]
  | causes => causes.zipIdx.map numberedLine

/-- The text of a report. -/
def report (f : Failure) : String :=
  match causeLines f.allCauses with
  | [] => "Error: " ++ f.message
  | lines => "Error: " ++ f.message ++ "\n\nCaused by:\n" ++ "\n".intercalate lines

end Failure

end ApiSurface.CommandLine
