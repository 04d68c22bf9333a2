import WebTidy.Command

/-
  The command on real files.

  Key definitions include:
    * `main`
-/

------------------------------------------------------------
-- Files And Streams
------------------------------------------------------------

namespace WebTidy

namespace Command

/- The code of a system error for access, space or links. -/
def codeOf :
    IO.Error → Option UInt32
| .permissionDenied _ code _ => some code
| .resourceExhausted _ code _ => some code
| .invalidArgument _ code _ => some code
| _ => none

/-
  The cause of a system error.  Both a file in the place of
  a directory, with error code 20, and a directory in the
  place of a file are of an inappropriate type.  Some system
  calls give their code negated.
-/
def fileError :
    IO.Error → FileError
| .noFileOrDirectory _ _ _ => .notFound
| .inappropriateType _ code _ =>
    if code = 20 ∨ code = -20 then .notDirectory
    else .isDirectory
| error =>
    match codeOf error with
    | some 13 => .permissionDenied
    | some 28 => .noSpace
    | some 40 => .tooManyLinks
    | _ => .other (toString error)

/- Run an action and catch its system error. -/
def attempt
    {α : Type}
    (action : IO α) :
    IO (Except FileError α) := do
  try
    return .ok (← action)
  catch error =>
    return .error (fileError error)

/- Read a stream to its end. -/
def readAll
    (stream : IO.FS.Stream) :
    IO ByteArray := do
  let mut content := ByteArray.empty
  repeat
    let chunk ← stream.read 65536
    if chunk.isEmpty then break
    content := content ++ chunk
  return content

/- The effects of a run on the system. -/
def system :
    Host IO where
  readStdin := attempt do readAll (← IO.getStdin)
  readFile path := attempt (IO.FS.readBinFile path)
  writeFile path content :=
    attempt (IO.FS.writeBinFile path content)
  print content := attempt do
    let stdout ← IO.getStdout
    stdout.write content
    stdout.flush

end Command

end WebTidy

------------------------------------------------------------
-- Entry Point
------------------------------------------------------------

/- Run the command with the arguments of the program. -/
def main
    (args : List String) :
    IO UInt32 := do
  let verdict ←
    WebTidy.Command.conduct WebTidy.Command.system args
  IO.eprint verdict.complaint
  return verdict.exitCode
