import WebTidy.Text.Basic

/-
  White space.

  Two classes are kept apart.  Blanks are the five ASCII
  characters that separate words inside tags and style
  rules.  Spaces are all characters with the White_Space
  property of Unicode; they are dropped around whole
  documents and by the minifiers.

  Key definitions include:
    * `WebTidy.isBlank`
    * `WebTidy.isSpace`
-/

------------------------------------------------------------
-- Blanks
------------------------------------------------------------

namespace WebTidy

/- Space, tab, line feed, carriage return or form feed. -/
def isBlank
    (c : Char) :
    Bool :=
  c = ' ' ∨ c = '\t' ∨ c = '\n' ∨ c = '\r' ∨ c = '\x0c'

end WebTidy

------------------------------------------------------------
-- Spaces
------------------------------------------------------------

namespace WebTidy

/- The ranges of code points with White_Space. -/
def spaceRanges :
    List (Nat × Nat) :=
  [(0x0009, 0x000D), (0x0020, 0x0020), (0x0085, 0x0085),
    (0x00A0, 0x00A0), (0x1680, 0x1680), (0x2000, 0x200A),
    (0x2028, 0x2029), (0x202F, 0x202F), (0x205F, 0x205F),
    (0x3000, 0x3000)]

/- The White_Space property of Unicode. -/
def isSpace
    (c : Char) :
    Bool :=
  spaceRanges.any fun range =>
    range.1 ≤ c.toNat && c.toNat ≤ range.2

/- Every blank is a space. -/
theorem isSpace_of_isBlank
    {c : Char}
    (h : isBlank c = true) :
    isSpace c = true := by
  simp only [isBlank, decide_eq_true_eq] at h
  rcases h with rfl | rfl | rfl | rfl | rfl <;> decide

end WebTidy
