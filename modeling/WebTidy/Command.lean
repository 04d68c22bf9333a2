import WebTidy.Operation
import WebTidy.Workspace

/-
  The command line.

  The arguments are an operation, an input and optionally an
  output, with a flag that sends the result to standard
  output.  The whole input is one document: it is
  transformed and written to one place, or nothing is
  written.  Blank input is passed on unchanged.

  The effects of a run are collected in a `Host`, so the
  same command runs on real files and on a `Workspace`.
  Each of them may fail.

  Key definitions include:
    * `WebTidy.Command.Job`
    * `WebTidy.Command.Request.ofArgs`
    * `WebTidy.Command.Host`
    * `WebTidy.Command.Host.printLines`
    * `WebTidy.Command.Job.perform`
    * `WebTidy.Command.conduct`
-/

------------------------------------------------------------
-- Arguments
------------------------------------------------------------

namespace WebTidy

namespace Command

/- One transformation of one document. -/
structure Job where
  operation : Operation
  input : String
  output : Option String
  toStdout : Bool
deriving DecidableEq, Repr

/- What the arguments ask for. -/
inductive Request
| run (job : Job)
| version
| help
| misuse
deriving DecidableEq, Repr

/- The arguments read so far. -/
structure Draft where
  operation : Option Operation := none
  input : Option String := none
  output : Option String := none
  toStdout : Bool := false
  literal : Bool := false
deriving DecidableEq, Repr

namespace Draft

/-
  Read a positional argument.  Names of files may not be
  empty, and there is no fourth argument.
-/
def place
    (draft : Draft)
    (arg : String) :
    Option Draft :=
  if draft.operation.isNone then
    match Operation.ofName arg with
    | .ok op => some { draft with operation := some op }
    | .error _ => none
  else if arg = "" then none
  else if draft.input.isNone then
    some { draft with input := some arg }
  else if draft.output.isNone then
    some { draft with output := some arg }
  else none

/- The job of a complete draft. -/
def request
    (draft : Draft) :
    Request :=
  match draft.operation, draft.input with
  | some operation, some input =>
      .run
        { operation := operation
          input := input
          output := draft.output
          toStdout := draft.toStdout }
  | _, _ => .misuse

/- An argument is positional. -/
def isPositional
    (draft : Draft)
    (arg : String) :
    Bool :=
  draft.literal ∨ arg = "-" ∨
    ¬ ['-'] <+: arg.toList

/-
  Read the remaining arguments from left to right.  The
  first that decides the request ends the reading.
-/
def read :
    Draft → List String → Request
| draft, [] => draft.request
| draft, arg :: rest =>
    if draft.isPositional arg then
      match draft.place arg with
      | some draft => read draft rest
      | none => .misuse
    else if arg = "--" then
      read { draft with literal := true } rest
    else if arg = "--stdout" ∧ !draft.toStdout then
      read { draft with toStdout := true } rest
    else if arg = "--version" ∨
        ['-', 'V'] <+: arg.toList then .version
    else if arg = "--help" ∨
        ['-', 'h'] <+: arg.toList then .help
    else .misuse

end Draft

/- The request of some arguments. -/
def Request.ofArgs
    (args : List String) :
    Request :=
  Draft.read {} args

end Command

end WebTidy

------------------------------------------------------------
-- Documents
------------------------------------------------------------

namespace WebTidy

namespace Command

/- Why a job failed. -/
inductive Failure
| format (error : FormatError)
| file (path : String) (error : FileError)
deriving DecidableEq, Repr

/- The message shown for a failure. -/
def Failure.message :
    Failure → String
| .format error => error.message
| .file path error => path ++ ": " ++ error.reason

/- Where the result of a job goes. -/
inductive Sink
| stdout
| file (path : String)
deriving DecidableEq, Repr

namespace Job

/- The input is standard input. -/
def readsStdin
    (job : Job) :
    Bool :=
  job.input = "-"

/- The place of the result. -/
def sink
    (job : Job) :
    Sink :=
  if job.toStdout then .stdout
  else
    match job.output with
    | some path => .file path
    | none =>
        if job.readsStdin then .stdout
        else .file job.input

/- The result for the content of the input. -/
def transform
    (job : Job)
    (content : ByteArray) :
    Except Failure ByteArray :=
  match String.fromUTF8? content with
  | none => .error (.file job.input .notUtf8)
  | some document =>
      if Text.trim isSpace document.toList = [] then
        .ok content
      else
        match job.operation.apply document.toList with
        | .ok result => .ok (String.ofList result).toUTF8
        | .error error => .error (.format error)

end Job

end Command

end WebTidy

------------------------------------------------------------
-- Running
------------------------------------------------------------

namespace WebTidy

namespace Command

/- The effects that a run needs. -/
structure Host (m : Type → Type) where
  readStdin : m (Except FileError ByteArray)
  readFile : String → m (Except FileError ByteArray)
  writeFile :
    String → ByteArray → m (Except FileError Unit)
  print : ByteArray → m (Except FileError Unit)

/- Where the last of the first lines of some octets ends. -/
def lastLineEnd
    (content : ByteArray) :
    Nat → Nat
| 0 => 0
| size + 1 =>
    if content[size]? = some 10 then size + 1
    else lastLineEnd content size

/-
  How many octets are printed at once.  Standard output is
  kept by lines: octets behind the last line feed wait for
  the end of the run, unless they fill the buffer.
-/
def sizeAtOnce
    (content : ByteArray) :
    Nat :=
  let lines := lastLineEnd content content.size
  if content.size - lines < 1024 then lines
  else content.size

variable {m : Type → Type} [Monad m]

/-
  Print octets.  Only a failure to print those that are
  printed at once is reported.
-/
def Host.printLines
    (host : Host m)
    (content : ByteArray) :
    m (Except FileError Unit) := do
  let size := sizeAtOnce content
  match ← host.print (content.extract 0 size) with
  | .error error => return .error error
  | .ok () =>
      let _ ←
        host.print (content.extract size content.size)
      return .ok ()

namespace Job

/- Read the input of a job. -/
def readInput
    (host : Host m)
    (job : Job) :
    m (Except FileError ByteArray) :=
  if job.readsStdin then host.readStdin
  else host.readFile job.input

/- Write the result of a job. -/
def writeResult
    (host : Host m)
    (job : Job)
    (result : ByteArray) :
    m (Except Failure Unit) :=
  match job.sink with
  | .stdout => do
      let printed ← host.printLines result
      return printed.mapError (.file "<stdout>")
  | .file path => do
      let written ← host.writeFile path result
      return written.mapError (.file path)

/- Read, transform and write. -/
def perform
    (host : Host m)
    (job : Job) :
    m (Except Failure Unit) := do
  match ← job.readInput host with
  | .error error => return .error (.file job.input error)
  | .ok content =>
      match job.transform content with
      | .error failure => return .error failure
      | .ok result => job.writeResult host result

end Job

/- The exit code of a run and its message, if any. -/
structure Verdict where
  exitCode : UInt32
  complaint : String := ""
deriving DecidableEq, Repr

/- The answer to a question for the version. -/
def versionLine :
    String :=
  "prettymin 0.1.0\n"

/- The answer to a question for help. -/
def usage :
    String :=
  "Usage: prettymin [--stdout] <OPERATION> <INPUT> " ++
    "[OUTPUT]\n"

/-
  Run the command.  A failed job ends with exit code 1 and
  its message, misuse with exit code 2.  An answer counts
  as given, whether it is printed or not.
-/
def conduct
    (host : Host m)
    (args : List String) :
    m Verdict := do
  match Request.ofArgs args with
  | .misuse => return { exitCode := 2 }
  | .version =>
      let _ ← host.printLines versionLine.toUTF8
      return { exitCode := 0 }
  | .help =>
      let _ ← host.printLines usage.toUTF8
      return { exitCode := 0 }
  | .run job =>
      match ← job.perform host with
      | .ok () => return { exitCode := 0 }
      | .error failure =>
          return {
            exitCode := 1
            complaint := failure.message ++ "\n" }

end Command

end WebTidy
