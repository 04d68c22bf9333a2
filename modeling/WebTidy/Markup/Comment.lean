import WebTidy.Text.Basic

/-
  Comments and bracketed markers.

  Both are recognized by their marks alone.  The closing
  mark may not share characters with the opening mark.

  Key definitions include:
    * `WebTidy.Markup.commentLength?`
    * `WebTidy.Markup.markerLength?`
-/

------------------------------------------------------------
-- Lengths
------------------------------------------------------------

namespace WebTidy

namespace Markup

/- The length of the closed comment at the start. -/
def commentLength?
    (s : Text) :
    Option Nat :=
  if "<!--".toList <+: s then
    (Text.indexOf? "-->".toList (s.drop 4)).map (· + 7)
  else none

/- The length of the closed bracketed marker at the start. -/
def markerLength?
    (s : Text) :
    Option Nat :=
  if "<![".toList <+: s then
    (Text.indexOf? "]>".toList (s.drop 3)).map (· + 5)
  else none

/- A comment is longer than its closing mark. -/
theorem commentLength?_pos
    {s : Text}
    {n : Nat}
    (h : commentLength? s = some n) :
    0 < n := by
  unfold commentLength? at h
  split at h
  · rcases Option.map_eq_some_iff.mp h with ⟨m, _, rfl⟩
    omega
  · cases h

/- A marker is longer than its closing mark. -/
theorem markerLength?_pos
    {s : Text}
    {n : Nat}
    (h : markerLength? s = some n) :
    0 < n := by
  unfold markerLength? at h
  split at h
  · rcases Option.map_eq_some_iff.mp h with ⟨m, _, rfl⟩
    omega
  · cases h

end Markup

end WebTidy
