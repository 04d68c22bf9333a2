import WebTidy.Text.Basic

/-
  Files, and the paths that lead to them.

  Files stand in a tree of directories, one of which is the
  working directory.  A path leads from the working
  directory, or from the root, through directories and along
  symbolic links to a file, to a directory or to a free
  place.  Access to each place may be denied.

  Key definitions include:
    * `WebTidy.FileError`
    * `WebTidy.Workspace`
    * `WebTidy.Workspace.resolve`
    * `WebTidy.Workspace.read`
    * `WebTidy.Workspace.write`
-/

------------------------------------------------------------
-- Errors
------------------------------------------------------------

namespace WebTidy

/- Why a file or a stream could not be read or written. -/
inductive FileError
| notFound
| isDirectory
| notDirectory
| permissionDenied
| tooManyLinks
| noSpace
| notUtf8
| other (reason : String)
deriving DecidableEq, Repr

/- The reason shown for a file error. -/
def FileError.reason :
    FileError → String
| .notFound => "No such file or directory (os error 2)"
| .isDirectory => "Is a directory (os error 21)"
| .notDirectory => "Not a directory (os error 20)"
| .permissionDenied => "Permission denied (os error 13)"
| .tooManyLinks =>
    "Too many levels of symbolic links (os error 40)"
| .noSpace => "No space left on device (os error 28)"
| .notUtf8 => "stream did not contain valid UTF-8"
| .other reason => reason

end WebTidy

------------------------------------------------------------
-- Routes
------------------------------------------------------------

namespace WebTidy

/-
  A place in the tree: the names on the way from the root to
  it, without dots and links.
-/
abbrev Route := List Text

/- Where the walk along a path begins. -/
def Route.start
    (here : Route)
    (path : String) :
    Route :=
  if path.toList.head? = some '/' then [] else here

/- The components of a path. -/
def Route.components
    (path : String) :
    List Text :=
  path.toList.splitOn '/'

/-
  Where a path leads: to the place of a file, which may be
  free, to such a place with slashes after it, or to a
  directory.
-/
inductive Place
| entry (route : Route)
| slashed (route : Route)
| directory (route : Route)
deriving DecidableEq, Repr

/-
  Come to the place of a file with some components left.
  A file cannot be passed through.
-/
def Place.arrive
    (route : Route)
    (through : FileError)
    (rest : List Text) :
    Except FileError Place :=
  if rest = [] then .ok (.entry route)
  else if rest.all (· = []) then .ok (.slashed route)
  else .error through

end WebTidy

------------------------------------------------------------
-- Workspaces
------------------------------------------------------------

namespace WebTidy

/-
  What is denied at a place, with the error of an attempt:
  to look up a name in a directory, to read what stands
  there, to write it or to add a file to a directory.
-/
structure Access where
  search : Option FileError := none
  reading : Option FileError := none
  writing : Option FileError := none
deriving DecidableEq, Repr

/-
  A tree of directories without the files in it.  The
  working directory and those above it always exist.
-/
structure Tree where
  home : Route := [['w', 'o', 'r', 'k']]
  directories : List Route := []
  links : List (Route × String) := []
  accesses : List (Route × Access) := []
deriving DecidableEq, Repr

/- A directory stands at a place. -/
def Tree.isDirectory
    (tree : Tree)
    (route : Route) :
    Bool :=
  route.isPrefixOf tree.home ||
    tree.directories.contains route

/-
  Files with their contents: those in the working directory
  by their names, all others by their places.
-/
structure Workspace where
  files : List (String × ByteArray) := []
  elsewhere : List (Route × ByteArray) := []
  tree : Tree := {}

/- What stands at a place. -/
inductive Node
| directory
| file
| link (target : String)
| free
deriving DecidableEq, Repr

/- Give a key a value, in place of the one it has. -/
def assign
    {κ : Type}
    [BEq κ]
    (key : κ)
    (value : ByteArray)
    (entries : List (κ × ByteArray)) :
    List (κ × ByteArray) :=
  if entries.any (·.1 == key) then
    entries.map fun entry =>
      if entry.1 == key then (key, value) else entry
  else entries ++ [(key, value)]

namespace Workspace

/- The name of a place in the working directory. -/
def local?
    (ws : Workspace)
    (route : Route) :
    Option String :=
  match route.getLast? with
  | none => none
  | some name =>
      if route.dropLast = ws.tree.home then
        some (String.ofList name)
      else none

/- The content of a file. -/
def get?
    (ws : Workspace)
    (route : Route) :
    Option ByteArray :=
  match ws.local? route with
  | some name => ws.files.lookup name
  | none => ws.elsewhere.lookup route

/- Replace the content of a file, or add a new file. -/
def put
    (ws : Workspace)
    (route : Route)
    (content : ByteArray) :
    Workspace :=
  match ws.local? route with
  | some name =>
      { ws with files := assign name content ws.files }
  | none =>
      { ws with
        elsewhere := assign route content ws.elsewhere }

/- What stands at a place. -/
def node
    (ws : Workspace)
    (route : Route) :
    Node :=
  if ws.tree.isDirectory route then .directory
  else if (ws.get? route).isSome then .file
  else
    match ws.tree.links.lookup route with
    | some target => .link target
    | none => .free

/- What is denied at a place. -/
def access
    (ws : Workspace)
    (route : Route) :
    Access :=
  (ws.tree.accesses.lookup route).getD {}

end Workspace

end WebTidy

------------------------------------------------------------
-- Walks
------------------------------------------------------------

namespace WebTidy

/-
  What one component does to a walk: it goes on from a
  directory, it goes along a link, it comes to the place of
  a file with the error of going through it, or it ends.
-/
inductive Move
| go (next : Route)
| follow (target : String)
| arrive (route : Route) (through : FileError)
| stop (error : FileError)
deriving DecidableEq, Repr

namespace Workspace

/- Take one component from a directory. -/
def move
    (ws : Workspace)
    (here : Route)
    (name : Text) :
    Move :=
  if name = [] then .go here
  else
    match (ws.access here).search with
    | some error => .stop error
    | none =>
        if name = ['.'] then .go here
        else if name = ['.', '.'] then .go here.dropLast
        else
          match ws.node (here ++ [name]) with
          | .directory => .go (here ++ [name])
          | .file => .arrive (here ++ [name]) .notDirectory
          | .link target => .follow target
          | .free => .arrive (here ++ [name]) .notFound

/-
  Walk along components.  A link is left to a walk of its
  own, along the path in it and what is left of this one.
-/
def walkWith
    (ws : Workspace)
    (follow : Route → List Text → Except FileError Place) :
    Route → List Text → Except FileError Place
| here, [] => .ok (.directory here)
| here, name :: rest =>
    match ws.move here name with
    | .go next => walkWith ws follow next rest
    | .follow target =>
        follow (Route.start here target)
          (Route.components target ++ rest)
    | .arrive route through =>
        Place.arrive route through rest
    | .stop error => .error error

/- Walk along components and at most some links. -/
def walk
    (ws : Workspace) :
    Nat → Route → List Text → Except FileError Place
| 0 => ws.walkWith fun _ _ => .error .tooManyLinks
| links + 1 => ws.walkWith (walk ws links)

/- Where a path leads, along at most forty links. -/
def resolve
    (ws : Workspace)
    (path : String) :
    Except FileError Place :=
  ws.walk 40 (Route.start ws.tree.home path)
    (Route.components path)

end Workspace

end WebTidy

------------------------------------------------------------
-- Reading And Writing
------------------------------------------------------------

namespace WebTidy

namespace Workspace

/- Read the file at a path. -/
def read
    (ws : Workspace)
    (path : String) :
    Except FileError ByteArray :=
  match ws.resolve path with
  | .error error => .error error
  | .ok (.directory route) =>
      .error ((ws.access route).reading.getD .isDirectory)
  | .ok (.slashed route) =>
      .error
        (if (ws.get? route).isSome then .notDirectory
        else .notFound)
  | .ok (.entry route) =>
      match ws.get? route, (ws.access route).reading with
      | none, _ => .error .notFound
      | some _, some error => .error error
      | some content, none => .ok content

/-
  Why a file cannot be written.  A new file is also an
  entry of its directory.
-/
def writeError
    (ws : Workspace)
    (route : Route) :
    Option FileError :=
  if (ws.get? route).isSome then (ws.access route).writing
  else
    (ws.access route.dropLast).writing.or
      (ws.access route).writing

/-
  Write the file at a path.  A slash after the name asks
  for a directory, which cannot be written.
-/
def write
    (ws : Workspace)
    (path : String)
    (content : ByteArray) :
    Except FileError Workspace :=
  match ws.resolve path with
  | .error error => .error error
  | .ok (.directory _) => .error .isDirectory
  | .ok (.slashed _) => .error .isDirectory
  | .ok (.entry route) =>
      match ws.writeError route with
      | some error => .error error
      | none => .ok (ws.put route content)

end Workspace

end WebTidy
