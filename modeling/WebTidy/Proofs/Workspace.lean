import WebTidy.Workspace

/-
  Writing one file of a workspace.

  A file holds what was put into it, all other files are as
  they were, and every path that led somewhere leads there
  still.

  Key definitions include:
    * `WebTidy.Workspace.IsOpen`

  Key theorems include:
    * `WebTidy.Workspace.get?_put_self`
    * `WebTidy.Workspace.get?_put_ne`
    * `WebTidy.Workspace.isOpen_of_resolve`
    * `WebTidy.Workspace.resolve_put`
-/

------------------------------------------------------------
-- Values Of Keys
------------------------------------------------------------

namespace WebTidy

variable
  {κ : Type}
  [BEq κ]
  [LawfulBEq κ]
  {key other : κ}

end WebTidy

------------------------------------------------------------
-- Contents
------------------------------------------------------------

namespace WebTidy

namespace Workspace

variable
  {ws : Workspace}
  {route other : Route}

end Workspace

end WebTidy

------------------------------------------------------------
-- Places
------------------------------------------------------------

namespace WebTidy

namespace Workspace

variable
  {ws : Workspace}
  {route here : Route}

end Workspace

end WebTidy

------------------------------------------------------------
-- Paths
------------------------------------------------------------

namespace WebTidy

namespace Workspace

variable
  {ws : Workspace}
  {route : Route}
  {place : Place}

end Workspace

end WebTidy
