import ApiSurface.Guess.Union
import ApiSurface.Schema.Standard
import ApiSurface.Text.Quoted

/-!
Schemas written by hand for libraries known by name. Every one of them has the entries of the host
besides its own.
-/

namespace ApiSurface.Catalogue

/-- The names that have a schema. -/
def names : List String :=
  ["example", "pako"]

/-- An entry that is called without a receiver. -/
def free (name : String) (args : List Guess) (ret : Guess) : String × Entry :=
  (name, { args := args, ret := ret, convention := .free })

/-- The entry of a class. -/
def constructor (name : String) (args : List Guess) : String × Entry :=
  (name, { args := args, ret := .ofClass name, convention := .constructor })

/-- The entry of a method of a class. -/
def method (owner name : String) (args : List Guess) (ret : Guess) : String × Entry :=
  (owner ++ "." ++ name, { args := .ofClass owner :: args, ret := ret, convention := .method })

/-- An object with guesses for its properties, in any order. -/
def shape (fields : List (String × Guess)) : Guess :=
  .object (Table.ofList fields)

/-- A compressor that takes a text and a level. -/
def smallEntries : List (String × Entry) :=
  [free "compress" [.string, .number] .string, free "decompress" [.string] .string]

/-- A number that may be left out. -/
def maybeNumber : Guess := .optional .number

/-- A truth value that may be left out. -/
def maybeBoolean : Guess := .optional .boolean

/-- A text that may be left out. -/
def maybeString : Guess := .optional .string

/-- A value that may be left out. -/
def maybe (g : Guess) : Guess := .union [.undefined, g]

/-- Bytes as compression gives them. -/
def bytes : Guess := .ofClass "Uint8Array"

/-- Bytes as compression takes them. -/
def data : Guess := .union [bytes, .ofClass "ArrayBuffer"]

/-- Bytes or text as compression takes them. -/
def input : Guess := .union [bytes, .ofClass "ArrayBuffer", .string]

/-- Whether and how to flush. -/
def flush : Guess := maybe (.union [.number, .boolean])

/-- The header of a compressed file. -/
def header : Guess :=
  shape [("text", maybeBoolean), ("time", maybeNumber), ("os", maybeNumber),
    ("extra", .optional (.array .number)), ("name", maybeString), ("comment", maybeString),
    ("hcrc", maybeBoolean)]

/-- What every way to compress may be told. -/
def compressFields : List (String × Guess) :=
  [("level", maybeNumber), ("windowBits", maybeNumber), ("memLevel", maybeNumber),
    ("strategy", maybeNumber), ("dictionary", .any), ("raw", maybeBoolean)]

/-- What the compressing class may be told. -/
def deflateOptions : Guess :=
  shape (compressFields ++
    [("chunkSize", maybeNumber), ("gzip", maybeBoolean), ("header", maybe header)])

/-- What the decompressing class may be told. -/
def inflateOptions : Guess :=
  shape [("windowBits", maybeNumber), ("dictionary", .any), ("raw", maybeBoolean),
    ("to", maybeString), ("chunkSize", maybeNumber)]

/-- What the decompressing functions may be told. -/
def inflateCallOptions : Guess :=
  shape [("windowBits", maybeNumber), ("raw", maybeBoolean), ("to", maybeString)]

/-- The options of the decompressing functions over their overloads, all but one of which require
them. -/
def inflateCallArg : Guess :=
  .union [.undefined, inflateCallOptions, inflateCallOptions, inflateCallOptions]

/-- The functions that compress. -/
def compressFunctions : List (String × Entry) :=
  ["deflate", "deflateRaw", "gzip"].map fun name =>
    free name [input, maybe (shape compressFields)] bytes

/-- The functions that decompress. -/
def decompressFunctions : List (String × Entry) :=
  ["inflate", "inflateRaw", "ungzip"].map fun name =>
    free name [data, inflateCallArg] (.union [bytes, .string])

/-- A class that takes its input in pieces. -/
def streamClass (name : String) (options pushed : Guess) : List (String × Entry) :=
  [constructor name [maybe options], method name "onData" [data] .undefined,
    method name "onEnd" [.number] .undefined, method name "push" [pushed, flush] .boolean]

/-- A compressor with functions and classes for both directions. -/
def streamEntries : List (String × Entry) :=
  compressFunctions ++ decompressFunctions ++ streamClass "Inflate" inflateOptions data
    ++ streamClass "Deflate" deflateOptions input

/-- A name without a schema. -/
structure Unknown where
  name : String
  deriving Repr, DecidableEq

/-- The wording of the refusal. -/
def Unknown.message (e : Unknown) : String :=
  "unknown project " ++ Text.quoted e.name ++ "; expected one of " ++ ", ".intercalate names

/-- The schema under a name. -/
def schema (name : String) : Except Unknown Schema :=
  match name with
  | "example" => .ok (Schema.ofList smallEntries).seeded
  | "pako" => .ok (Schema.ofList streamEntries).seeded
  | name => .error ⟨name⟩

end ApiSurface.Catalogue
