import JsonDoc.Shell

/-!
# `JsonDoc.Main`: the program

Holds the dialogue of `JsonDoc.Shell` over the standard input and output.
-/

set_option autoImplicit false

namespace JsonDoc

/-- The next line of a stream, after the bytes already read of it, last first; none at the end. -/
partial def nextLine (input : IO.FS.Stream) (current : List UInt8) : IO (Option (List UInt8)) := do
  let bytes ← input.read 1
  match bytes.data.toList with
  | [] => pure (if current.isEmpty then none else some current.reverse)
  | c :: _ =>
    if c = 0x0A then pure (some (Shell.withoutReturn current).reverse)
    else nextLine input (c :: current)

/-- Holds the dialogue up to its end, and gives the exit code. -/
partial def converse (input output : IO.FS.Stream) (shell : Shell) : IO UInt32 := do
  output.putStr shell.prompt
  output.flush
  match ← nextLine input [] with
  | none => pure 0
  | some bytes =>
    match shell.accept bytes with
    | none => pure 1
    | some (shell, printed) =>
      output.putStr printed
      converse input output shell

end JsonDoc

/-- Holds the dialogue over the standard input and output. -/
def main : IO UInt32 := do
  JsonDoc.converse (← IO.getStdin) (← IO.getStdout) {}
