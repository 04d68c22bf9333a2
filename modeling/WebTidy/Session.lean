import WebTidy.Command

/-
  Runs of the command in a workspace, without any effect
  outside it.

  Key definitions include:
    * `WebTidy.Session.Outlet`
    * `WebTidy.Session.World`
    * `WebTidy.Session.runWith`
    * `WebTidy.Session.run`
-/

------------------------------------------------------------
-- Worlds
------------------------------------------------------------

namespace WebTidy

namespace Session

/-
  The other end of standard output.  It takes all octets, or
  it has room for some only and refuses what comes then.
-/
structure Outlet where
  room : Option Nat := none
  refusal : FileError := .noSpace
deriving DecidableEq, Repr

namespace Outlet

/- What an outlet takes of the octets sent to it. -/
def take
    (outlet : Outlet)
    (sent : ByteArray) :
    ByteArray :=
  match outlet.room with
  | none => sent
  | some room => sent.extract 0 room

/- An outlet takes all the octets sent to it. -/
def takesAll
    (outlet : Outlet)
    (sent : ByteArray) :
    Bool :=
  match outlet.room with
  | none => true
  | some room => sent.size ≤ room

end Outlet

/-
  The streams of a run: what reading standard input to its
  end gives, and where standard output goes.
-/
structure Streams where
  stdin : Except FileError ByteArray
  outlet : Outlet := {}

/- What a run can see and change. -/
structure World where
  workspace : Workspace
  streams : Streams
  stdout : ByteArray := .empty

/- The effects of a run on a world. -/
def host :
    Command.Host (StateM World) where
  readStdin := do return (← get).streams.stdin
  readFile path := do
    return (← get).workspace.read path
  writeFile path content := do
    match (← get).workspace.write path content with
    | .error error => return .error error
    | .ok workspace =>
        modify fun world =>
          { world with workspace := workspace }
        return .ok ()
  print content := do
    let world ← get
    let outlet := world.streams.outlet
    let sent := world.stdout ++ content
    set { world with stdout := outlet.take sent }
    if outlet.takesAll sent then return .ok ()
    else return .error outlet.refusal

end Session

end WebTidy

------------------------------------------------------------
-- Runs
------------------------------------------------------------

namespace WebTidy

namespace Session

/- What is left of a run. -/
structure Report where
  exitCode : UInt32
  stdout : ByteArray
  stderr : String
  workspace : Workspace

/- Run the command in a workspace with some streams. -/
def runWith
    (workspace : Workspace)
    (streams : Streams)
    (args : List String) :
    Report :=
  let ended :=
    (Command.conduct host args).run
      { workspace := workspace, streams := streams }
  { exitCode := ended.1.exitCode
    stdout := ended.2.stdout
    stderr := ended.1.complaint
    workspace := ended.2.workspace }

/-
  Run the command with octets on standard input and with a
  standard output that takes everything.
-/
def run
    (workspace : Workspace)
    (stdin : ByteArray)
    (args : List String) :
    Report :=
  runWith workspace { stdin := .ok stdin } args

end Session

end WebTidy
