import StackLift.CommandLine

/-! The program: reads a listing file and prints the report on it. -/

/-- Ends with 1 if the listing cannot be read and with 2 if the command line cannot. -/
def main (arguments : List String) : IO UInt32 := do
  match StackLift.Request.read? {} arguments with
  | none =>
    IO.eprintln StackLift.CommandLine.usage
    return 2
  | some request =>
    let source ← IO.FS.readFile request.input
    match StackLift.CommandLine.run request.options source with
    | .error e =>
      IO.eprintln ("Error: " ++ e.message)
      return 1
    | .ok output =>
      IO.print output.text
      if let some file := request.dotFile then
        IO.FS.writeFile file output.dot
      return 0
