import Mathlib
import WebTidy.Markup.Layout
import WebTidy.Proofs.Text

/-
  The walk of the markup layout over the tokens.

  A walk is the layout together with the nesting that it
  ends with.  What a step does with a tag depends on the
  head of the tag and on the class of its name, so the
  facts about both come first.

  Key definitions include:
    * `WebTidy.Markup.walk`

  Key theorems include:
    * `WebTidy.Markup.Tag.name_eq_nil_of_declaration`
    * `WebTidy.Markup.isAmong_eq_false`
    * `WebTidy.Markup.step_joined`
    * `WebTidy.Markup.layout_eq_walk`
    * `WebTidy.Markup.walk_cons`
-/

------------------------------------------------------------
-- Heads Of Declarations
------------------------------------------------------------

namespace WebTidy

namespace Markup

namespace Tag

/- Only a capital is changed by lowering a letter. -/
theorem eq_of_toLower
    {d m : Char}
    (h : d.toLower = m)
    (hm : m.isLower = false) :
    d = m := by
  have hAlpha : d.isAlpha = false := by
    rw [← Char.isLower_toLower_eq_isAlpha, h, hm]
  have hUpper : ¬ d.isUpper = true := by
    intro hUpper
    rw [Char.isAlpha, hUpper, Bool.true_or] at hAlpha
    cases hAlpha
  rw [← h, Char.toLower_eq_of_not_isUpper hUpper]

/- The head of a tag by its second character. -/
theorem name_eq_nil_of_mark
    {c d : Char}
    {rest : Text}
    {head : Head}
    (hMark : d = '!' ∨ d = '?')
    (h : head? (c :: d :: rest) = some head) :
    head.name = [] ∧ head.isEnd = false := by
  have hInner (inner : Text)
      (hStart : inner = [] ∨ inner = d :: rest) :
      (Head.read (c :: d :: rest) inner).name = [] ∧
        (Head.read (c :: d :: rest) inner).isEnd =
          false := by
    unfold Head.read
    rcases hStart with rfl | rfl
    · exact ⟨rfl, rfl⟩
    · rcases hMark with rfl | rfl
      · exact ⟨rfl, rfl⟩
      · exact ⟨rfl, rfl⟩
  unfold head? at h
  cases h
  apply hInner
  split
  · exact Or.inr rfl
  · exact Or.inl rfl

/-
  Declarations have no name and are no end tags, document
  type declarations among them.
-/
theorem name_eq_nil_of_declaration
    {tag : Text}
    {head : Head}
    (hRead : head? tag = some head)
    (h : isDoctype tag = true ∨ isDeclaration tag = true) :
    head.name = [] ∧ head.isEnd = false := by
  rcases h with hDoctype | hDeclaration
  · match tag with
    | [] => cases hRead
    | [c] =>
        unfold isDoctype Text.beginsWith at hDoctype
        have hLength :=
          Text.length_eq_of_sameLetters hDoctype
        cases hLength
    | c :: d :: rest =>
        have hLetters :
            Text.beginsWith ('<' :: '!' :: "doctype".toList)
              (c :: d :: rest) = true := hDoctype
        rw [Text.beginsWith_cons, Text.beginsWith_cons]
          at hLetters
        simp only [Bool.and_eq_true, decide_eq_true_eq]
          at hLetters
        have hd : d = '!' :=
          eq_of_toLower hLetters.2.1 rfl
        exact name_eq_nil_of_mark (Or.inl hd) hRead
  · unfold isDeclaration at hDeclaration
    rw [decide_eq_true_eq] at hDeclaration
    rcases hDeclaration with ⟨rest, rfl⟩ | ⟨rest, rfl⟩
    · exact name_eq_nil_of_mark (Or.inl rfl) hRead
    · exact name_eq_nil_of_mark (Or.inr rfl) hRead

/- A declaration has a head, with no name in it. -/
theorem exists_head_of_isDeclaration
    {tag : Text}
    (h : isDeclaration tag = true) :
    ∃ head,
      head? tag = some head ∧ head.name = [] ∧
      head.isEnd = false := by
  cases hRead : head? tag with
  | none =>
      rw [head?_eq_none_iff] at hRead
      rw [hRead] at h
      cases h
  | some head =>
      exact ⟨head, rfl,
        name_eq_nil_of_declaration hRead (Or.inr h)⟩

/- A tag with a name or a slash is no declaration. -/
theorem isDeclaration_eq_false
    {tag : Text}
    {head : Head}
    (hRead : head? tag = some head)
    (h : head.name ≠ [] ∨ head.isEnd = true) :
    isDoctype tag = false ∧ isDeclaration tag = false := by
  have hNot :
      ¬ (isDoctype tag = true ∨ isDeclaration tag = true) := by
    intro hMark
    have hHead := name_eq_nil_of_declaration hRead hMark
    rcases h with hName | hEnd
    · exact hName hHead.1
    · rw [hHead.2] at hEnd
      cases hEnd
  rw [not_or, Bool.not_eq_true, Bool.not_eq_true] at hNot
  exact hNot

end Tag

end Markup

end WebTidy

------------------------------------------------------------
-- Classes Of Names
------------------------------------------------------------

namespace WebTidy

namespace Markup

/- A name of one class is not in another. -/
theorem isAmong_eq_false
    {names others : List String}
    {name : Text}
    (hApart :
      names.all (fun listed =>
        !isAmong others listed.toList) = true)
    (h : isAmong names name = true) :
    isAmong others name = false := by
  unfold isAmong at h
  rcases List.any_eq_true.mp h with
    ⟨listed, hListed, hSame⟩
  have hLower : name.lower = Text.lower listed.toList := by
    unfold Text.sameLetters at hSame
    exact of_decide_eq_true hSame
  have hNot := List.all_eq_true.mp hApart listed hListed
  rw [isAmong_congr others hLower]
  exact Bool.not_eq_true' _ |>.mp hNot

/- Elements without content have no other class. -/
theorem isVoid_apart
    {name : Text}
    (h : isVoid name = true) :
    isCollapsible name = false ∧ isInline name = false ∧
      isAutoClosing name = false := by
  unfold isVoid at h
  refine ⟨?_, ?_, ?_⟩
  · exact isAmong_eq_false rfl h
  · exact isAmong_eq_false rfl h
  · exact isAmong_eq_false rfl h

/- Lowering letters twice is lowering them once. -/
theorem lower_lower
    (s : Text) :
    s.lower.lower = s.lower := by
  unfold Text.lower
  rw [List.map_map]
  apply List.map_congr_left
  intro c _
  exact Char.toLower_toLower_eq_toLower c

/- Lowering the letters of a name does not matter. -/
theorem isAmong_lower
    (names : List String)
    (name : Text) :
    isAmong names name.lower = isAmong names name := by
  exact isAmong_congr names (lower_lower name)

end Markup

end WebTidy

------------------------------------------------------------
-- Steps
------------------------------------------------------------

namespace WebTidy

namespace Markup

/- A verbatim element other than a style is one line. -/
theorem step_verbatim
    {source : Text}
    {head : Tag.Head}
    (format : StyleFormatter)
    (nest : Nest)
    (rest : List Token)
    (hRead : Tag.head? source = some head)
    (hStyle :
      Text.sameLetters head.name "style".toList = false) :
    step format nest rest (.verbatim source) =
      .ok { items := [nest.line source], nest := nest } := by
  rw [step, stepVerbatim, hRead]
  simp only
  rw [hStyle, if_neg (by simp)]

/- A tag on a line of its own. -/
theorem step_tag
    {nest after : Nest}
    {source : Text}
    {head : Tag.Head}
    {items : List Item}
    {rest : List Token}
    (format : StyleFormatter)
    (hRead : Tag.head? (source.trim isBlank) = some head)
    (hSpan : span? nest head rest = .ok none)
    (hElement :
      element nest (source.trim isBlank) head =
        (items, after)) :
    step format nest rest (.tag source) =
      .ok { items := items, nest := after } := by
  unfold step stepTag
  simp only [hRead, hSpan]
  change Except.ok (Outcome.mk _ _ _) = _
  rw [hElement]

/- A block on one line. -/
theorem step_joined
    {nest : Nest}
    {source : Text}
    {head : Tag.Head}
    {span : Span}
    {rest : List Token}
    (format : StyleFormatter)
    (hRead : Tag.head? (source.trim isBlank) = some head)
    (hSpan : span? nest head rest = .ok (some span)) :
    step format nest rest (.tag source) =
      .ok
        { items :=
            [.joined head.name span.size,
              nest.line (span.line source head.name)]
          nest := nest
          taken := span.taken } := by
  unfold step stepTag
  simp only [hRead, hSpan]
  rfl

end Markup

end WebTidy

------------------------------------------------------------
-- Walks
------------------------------------------------------------

namespace WebTidy

namespace Markup

/-
  What the layout of some tokens writes, and the nesting
  that it ends with.
-/
def walk
    (format : StyleFormatter)
    (nest : Nest) :
    List Token → Except Fault (List Item × Nest)
| [] => .ok ([], nest)
| token :: rest =>
    match step format nest rest token with
    | .error fault => .error fault
    | .ok outcome =>
        match walk format outcome.nest
            (rest.drop outcome.taken) with
        | .error fault => .error fault
        | .ok more =>
            .ok (outcome.items ++ more.1, more.2)
termination_by tokens => tokens.length
decreasing_by
  simp only [List.length_drop, List.length_cons]
  omega

/- The layout is what a walk writes. -/
theorem layout_eq_walk
    (format : StyleFormatter)
    (nest : Nest)
    (tokens : List Token) :
    layout format nest tokens =
      (walk format nest tokens).map Prod.fst := by
  fun_induction walk format nest tokens with
  | case1 nest =>
      rw [layout]
      rfl
  | case2 nest token rest fault hStep =>
      rw [layout, hStep]
      rfl
  | case3 nest token rest outcome hStep fault hMore ih =>
      rw [hMore] at ih
      rw [layout, hStep]
      simp only [ih]
      rfl
  | case4 nest token rest outcome hStep more hMore ih =>
      rw [hMore] at ih
      rw [layout, hStep]
      simp only [ih]
      rfl

/- A walk begins with a step. -/
theorem walk_cons
    {format : StyleFormatter}
    {nest : Nest}
    {token : Token}
    {rest : List Token}
    {outcome : Outcome}
    (h : step format nest rest token = .ok outcome) :
    walk format nest (token :: rest) =
      (walk format outcome.nest
        (rest.drop outcome.taken)).map
          fun more => (outcome.items ++ more.1, more.2) := by
  rw [walk, h]
  simp only
  cases walk format outcome.nest
      (rest.drop outcome.taken) with
  | error fault => rfl
  | ok more => rfl

end Markup

end WebTidy
