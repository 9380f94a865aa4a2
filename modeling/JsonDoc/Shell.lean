import JsonDoc.Json.Writer
import JsonDoc.Query.Basic

/-!
# `JsonDoc.Shell`: a dialogue of documents and paths

The shell asks for a JSON text and a path, each on a line, and prints the values that the path
leads to, one on a line, or what is wrong; then it asks again. It ends with its input. A line
that is not valid UTF-8 ends it at once, with a failure.

`Shell.accept` is one step of the dialogue, and `Shell.transcript` everything that is printed
for a whole input.
-/

set_option autoImplicit false

namespace JsonDoc

/-- Where the dialogue stands. -/
structure Shell where
  /-- The JSON text that was given, if a path is asked for. -/
  document : Option String := none
  cache : Cache := .ofSize defaultCacheSize

/-- What a dialogue printed, and the code that it ended with. -/
structure Transcript where
  output : String
  exitCode : Nat
  deriving DecidableEq, Repr

namespace Shell

/-- What the shell asks for next. -/
def prompt (shell : Shell) : String :=
  match shell.document with
  | none => "json: "
  | some _ => "path: "

/-- A result on a line of its own. -/
def line (result : Except Error String) : String :=
  (match result with
    | .ok text => text
    | .error e => e.message) ++ "\n"

/-- What is printed for a JSON text and a path. -/
def answer (document path : String) : StateM Cache String := do
  match Value.ofText document with
  | .error fault => pure (line (.error (.malformedText fault)))
  | .ok root =>
    match ← (Query.getAll (some root) (Text.trim path)).run with
    | .error e => pure (line (.error e))
    | .ok values => pure (String.join (values.map fun v => line (v.serialize {})))

/-- The dialogue after a line, and what is printed for it; none for a line that is not valid
UTF-8. -/
def accept (shell : Shell) (bytes : List UInt8) : Option (Shell × String) :=
  match String.fromUTF8? ⟨bytes.toArray⟩ with
  | none => none
  | some text =>
    match shell.document with
    | none => some ({ shell with document := some text }, "")
    | some document =>
      let (printed, cache) := (answer document text).run shell.cache
      some ({ document := none, cache := cache }, printed)

/-- The bytes of a line, last first, without a carriage return at its end. -/
def withoutReturn : List UInt8 → List UInt8
  | 0x0D :: rest => rest
  | bytes => bytes

/-- The lines of an input. A line ends with a newline, and a carriage return before it is
dropped; the last line may end with the input instead. `current` is what was read of the first
line, last byte first. -/
def lines (current : List UInt8) : List UInt8 → List (List UInt8)
  | [] => if current.isEmpty then [] else [current.reverse]
  | c :: rest =>
    if c = 0x0A then (withoutReturn current).reverse :: lines [] rest
    else lines (c :: current) rest

/-- The dialogue over the lines that are left, after `output` was printed. -/
def run (shell : Shell) (output : String) : List (List UInt8) → Transcript
  | [] => ⟨output ++ shell.prompt, 0⟩
  | bytes :: rest =>
    let output := output ++ shell.prompt
    match shell.accept bytes with
    | none => ⟨output, 1⟩
    | some (shell, printed) => run shell (output ++ printed) rest

/-- Everything that is printed for an input. -/
def transcript (input : List UInt8) : Transcript := run {} "" (lines [] input)

end Shell

end JsonDoc
