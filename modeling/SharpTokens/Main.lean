import SharpTokens.CommandLine

/-!
# The program

Reads standard input as it comes, and writes each answer before it waits for the next request.
-/

open SharpTokens SharpTokens.CommandLine

/-- Serves standard input until it ends, and gives the exit code. -/
partial def serveInput (s : Server Grammar.Label) (state : Serving) (input output : IO.FS.Stream) :
    IO Nat := do
  let chunk ← input.read 65536
  if chunk.isEmpty then
    return ← finishWith (Server.finish state)
  let fed := s.feed { state with sink := .ofRoom none } chunk.data.toList
  output.write ⟨fed.state.sink.taken⟩
  output.flush
  match fed.failure with
  | some e => finishWith (.error e)
  | none => serveInput s fed.state input output
where
  /-- Says what ended the server early. -/
  finishWith (result : Except ServeError Served) : IO Nat := do
    if let .error e := result then
      IO.eprintln e.message
    return exitCode result

def main (args : List String) : IO UInt32 := do
  let output ← IO.getStdout
  match parse args with
  | some (.serve limit depth) =>
    let code ← serveInput (server limit depth) (.initial (.ofRoom none)) (← IO.getStdin) output
    return code.toUInt32
  | other =>
    let outcome := run args []
    if other.isNone then
      IO.eprintln helpText
    output.write ⟨outcome.output.toArray⟩
    output.flush
    return outcome.exitCode.toUInt32
