import WebTidy.Markup.Indexed.Layout
import WebTidy.Proofs.Markup.Indexed.Tokens
import WebTidy.Proofs.Markup.Octets

/-
  Documents laid out by an index: every look-up lies inside
  the tokens and their octets.

  A step from an index does what the step does that is given
  the token there and those behind it.  The end of a block
  is found among them, so its content can be cut out.

  Key definitions include:
    * `WebTidy.Markup.Indexed.Outcome.seen`
    * `WebTidy.Markup.Indexed.Found`

  Key theorems include:
    * `WebTidy.Markup.Indexed.styleElement_eq`
    * `WebTidy.Markup.Indexed.exists_findEnd`
    * `WebTidy.Markup.Indexed.step_eq`
    * `WebTidy.Markup.Indexed.prettify_eq`
-/

------------------------------------------------------------
-- Comments And Elements
------------------------------------------------------------

namespace WebTidy

namespace Markup

namespace Indexed

/- The marks of a comment are compared inside it. -/
theorem comment_eq
    (nest : Nest)
    (source : Text) :
    comment nest source = .ok (Markup.comment nest source) := by
  unfold comment Markup.comment
  simp only [Octet.beginsWith_eq, Octet.ok_bind]
  split
  · rfl
  split
  · rfl
  · rfl

/- The head of a tag that is given in UTF-8. -/
theorem head_toUtf8
    (tag : Text) :
    head (Octet.toUtf8 tag) =
      match Tag.head? (Octet.toUtf8 tag) with
      | some head => .ok head
      | none => .error .outside := by
  have hSame :
      Tag.headOfOctets? (Octet.toUtf8 tag) =
        Tag.head? (Octet.toUtf8 tag) := by
    rw [Tag.headOfOctets?_toUtf8, Tag.head?_toUtf8]
  have hHead := head_eq (Octet.toUtf8 tag)
  rw [hSame] at hHead
  exact hHead

/- A tag whose head can be read is written. -/
theorem element_eq
    (nest : Nest)
    {tag : Text}
    {head : Tag.Head}
    (hHead : Indexed.head tag = .ok head) :
    element nest tag = .ok (Octets.element nest tag head) := by
  unfold element Octets.element
  simp only [normalize_eq, isDoctype_eq, hHead,
    Octet.ok_bind]
  split
  · rfl
  split
  · rfl
  split
  · rfl
  split
  · rfl
  · rfl

end Indexed

end Markup

end WebTidy

------------------------------------------------------------
-- Style Elements
------------------------------------------------------------

namespace WebTidy

namespace Markup

namespace Indexed

/-
  Between the end of the start tag and the start of the end
  tag there is a body, for the guard has compared them.
-/
theorem styleElement_eq
    (format : Markup.StyleFormatter)
    (nest : Nest)
    (source : Text) :
    styleElement (.ofFormatter format) nest source =
      Octets.styleElement format nest source := by
  rcases exists_endIndex source 0 with ⟨found, hFound, hEnd⟩
  unfold styleElement Octets.styleElement StyleParts.of?
  rw [hFound, Octet.ok_bind, ← hEnd]
  cases found with
  | none => rfl
  | some last =>
      cases hClose : Text.lastIndexOf? '<' source with
      | none => rfl
      | some close =>
          have hInside := Text.lt_of_lastIndexOf? hClose
          simp only [Option.map_some]
          by_cases hOrder : close ≤ last.val
          · rw [if_pos hOrder, if_neg (by omega)]
            rfl
          · rw [if_neg hOrder, if_pos (by omega), styleParts,
              Octet.slice_eq (by omega) hInside.le,
              Octet.ok_bind]
            simp only
            cases Octet.ofUtf8?
                ((source.take close).drop (last.val + 1)) with
            | none => rfl
            | some body =>
                simp only [StyleFormatter.ofFormatter]
                cases format body with
                | error error => rfl
                | ok sheet =>
                    simp only [Except.mapError,
                      Octet.sliceTo_eq
                        (show last.val + 1 ≤ source.length
                          by omega),
                      Octet.sliceFrom_eq hInside.le,
                      Octet.ok_bind]
                    rfl

end Indexed

end Markup

end WebTidy

------------------------------------------------------------
-- Blocks On One Line
------------------------------------------------------------

namespace WebTidy

namespace Markup

namespace Indexed

/-
  The end of a block and its span, which begins at an index
  with the given tokens.
-/
inductive Found
    (rest : List Token)
    (j : Nat) :
    Option Span →
      Option ({ n : Nat // j ≤ n } × Bool) → Prop
| none :
    Found rest j none none
| written
    (between : List Token)
    {source : Text}
    {stop : { n : Nat // j ≤ n }}
    (hStop : stop.val = j + between.length)
    (hRest :
      ∃ more, rest = between ++ .tag source :: more) :
    Found rest j (some ⟨between, .written source⟩)
      (some (stop, true))
| implied
    (between : List Token)
    {stop : { n : Nat // j ≤ n }}
    (hStop : stop.val = j + between.length)
    (hRest : ∃ more, rest = between ++ more) :
    Found rest j (some ⟨between, .implied⟩)
      (some (stop, false))

/- One token more in front of a span. -/
theorem Found.cons
    {rest : List Token}
    {j : Nat}
    {span : Option Span}
    {found : Option ({ n : Nat // j + 1 ≤ n } × Bool)}
    (h : Found rest (j + 1) span found)
    (token : Token) :
    Found (token :: rest) j (span.map (.cons token))
      (found.map fun (⟨n, hn⟩, consumed) =>
        (⟨n, Nat.le_of_succ_le hn⟩, consumed)) := by
  cases h with
  | none => exact .none
  | @written between source stop hStop hRest =>
      rcases hRest with ⟨more, rfl⟩
      refine .written (token :: between) ?_
        ⟨more, rfl⟩
      simp only [hStop, List.length_cons]
      omega
  | @implied between stop hStop hRest =>
      rcases hRest with ⟨more, rfl⟩
      refine .implied (token :: between) ?_
        ⟨more, rfl⟩
      simp only [hStop, List.length_cons]
      omega

/-
  The search for a span and the search for its end fail
  alike, or both find the same.
-/
inductive Matches
    (rest : List Token)
    (j : Nat) :
    Except Fault (Option Span) →
      Except Octet.Fault
        (Option ({ n : Nat // j ≤ n } × Bool)) → Prop
| error
    (fault : Fault) :
    Matches rest j (.error fault) (.error (.ofFault fault))
| ok
    {span : Option Span}
    {found : Option ({ n : Nat // j ≤ n } × Bool)}
    (hFound : Found rest j span found) :
    Matches rest j (.ok span) (.ok found)

/- One token more in front of a search. -/
theorem Matches.cons
    {rest : List Token}
    {j : Nat}
    {span : Except Fault (Option Span)}
    {found : Except Octet.Fault
      (Option ({ n : Nat // j + 1 ≤ n } × Bool))}
    (h : Matches rest (j + 1) span found)
    (token : Token) :
    Matches (token :: rest) j
      (do return (← span).map (.cons token))
      (do return (← found).map fun (⟨n, hn⟩, consumed) =>
        (⟨n, Nat.le_of_succ_le hn⟩, consumed)) := by
  cases h with
  | error fault => exact .error fault
  | ok hFound => exact .ok (hFound.cons token)

/-
  The end of a block is sought among the tokens behind its
  start tag.
-/
theorem findEnd_matches
    (name : Text)
    (opened : List Text)
    (balance : Int)
    (j : Nat)
    (tokens : List Token) :
    Matches (tokens.map Token.encoded) j
      (findSpan name opened balance
        (tokens.map Token.encoded))
      (findEnd name opened balance j
        (tokens.map Token.encoded)) := by
  induction tokens generalizing balance j with
  | nil => exact .ok .none
  | cons token rest ih =>
      cases token with
      | verbatim source => exact .ok .none
      | comment source => exact .ok .none
      | text source => exact (ih balance (j + 1)).cons _
      | tag source =>
          rw [List.map_cons, Token.encoded, findSpan, findEnd,
            Octet.trim_toUtf8 Octet.treatsWide_isBlank,
            head_toUtf8]
          cases Tag.head?
              (Octet.toUtf8 (source.trim isBlank)) with
          | none => exact .error .emptyTag
          | some head =>
              simp only [Octet.ok_bind]
              split
              · exact .ok (.written [] rfl ⟨_, rfl⟩)
              split
              · exact .ok (.implied [] rfl ⟨_, rfl⟩)
              split
              · exact (ih _ (j + 1)).cons _
              · exact .ok .none

/- The texts of tokens on a line. -/
theorem inlineTexts_eq
    (tokens : List Token) :
    inlineTexts tokens =
      .ok (tokens.flatMap Octets.inlineText) := by
  have hToken (token : Token) :
      inlineText token = .ok (Octets.inlineText token) := by
    cases token with
    | tag source => exact normalize_eq _
    | text source => rfl
    | verbatim source => rfl
    | comment source => rfl
  induction tokens with
  | nil => rfl
  | cons token rest ih =>
      rw [inlineTexts, hToken, Octet.ok_bind, ih,
        Octet.ok_bind, List.flatMap_cons]
      rfl

/- What is written, and where a step goes on. -/
def Outcome.seen
    {i : Nat}
    (outcome : Outcome i) :
    List Item × Nest × Nat :=
  (outcome.items, outcome.nest, outcome.next)

/- The same for a step that counts the tokens it takes. -/
def Outcome.seenFrom
    (i : Nat)
    (outcome : Markup.Outcome) :
    List Item × Nest × Nat :=
  (outcome.items, outcome.nest, i + 1 + outcome.taken)

section Steps

variable
  {tokens : List Token}
  {i : Nat}
  {rest : List Token}

/- A block whose span is found is cut out and written. -/
theorem collapse_eq
    (nest : Nest)
    {source name : Text}
    (hDrop : tokens.drop i = .tag source :: rest) :
    (collapse nest (tokens.map Token.encoded) i name).map
        (Option.map Outcome.seen) =
      ((findSpan name nest.opened 0
          (rest.map Token.encoded)).mapError
        Octet.Fault.ofFault).map
        (Option.map fun span =>
          Outcome.seenFrom i
            { items :=
                [.joined name span.size,
                  nest.line
                    (Octets.spanLine (Octet.toUtf8 source)
                      name span)]
              nest := nest
              taken := span.taken }) := by
  have hHere :
      (tokens.map Token.encoded).drop i =
        .tag (Octet.toUtf8 source) ::
          rest.map Token.encoded := by
    rw [← List.map_drop, hDrop]
    rfl
  have hBehind := Octet.drop_succ_of_drop hHere
  have hInside := Octet.lt_length_of_drop hHere
  have hFirst (source : Text) :
      tagText source = .ok (Octets.tagText source) :=
    normalize_eq _
  have hSize (n : Nat) : i + 1 + n - i + 1 = n + 2 := by
    omega
  have hMatches :=
    findEnd_matches name nest.opened 0 (i + 1) rest
  unfold collapse
  rw [hBehind]
  generalize findSpan name nest.opened 0
    (rest.map Token.encoded) = span at hMatches ⊢
  generalize findEnd name nest.opened 0 (i + 1)
    (rest.map Token.encoded) = found at hMatches ⊢
  rw [← hBehind] at hMatches
  cases hMatches with
  | error fault => rfl
  | ok hFound =>
      rw [Octet.ok_bind]
      cases hFound with
      | none => rfl
      | @written between last stop hStop hRest =>
          rcases hRest with ⟨more, hMore⟩
          rcases stop with ⟨n, hn⟩
          simp only at hStop
          subst hStop
          have hLast :
              (tokens.map Token.encoded).drop
                  (i + 1 + between.length) =
                .tag last :: more := by
            rw [← List.drop_drop, hMore, List.drop_left]
          simp only [Octet.slice_of_drop hInside hMore,
            Octet.itemAt_of_drop hHere, closing, if_true,
            Octet.itemAt_of_drop hLast, inlineTexts_eq,
            Token.source, hFirst, Octet.ok_bind, hSize]
          rfl
      | @implied between stop hStop hRest =>
          rcases hRest with ⟨more, hMore⟩
          rcases stop with ⟨n, hn⟩
          simp only at hStop
          subst hStop
          simp only [Octet.slice_of_drop hInside hMore,
            Octet.itemAt_of_drop hHere, closing,
            inlineTexts_eq, Token.source, hFirst,
            Octet.ok_bind, hSize]
          rfl

end Steps

end Indexed

end Markup

end WebTidy

------------------------------------------------------------
-- Steps
------------------------------------------------------------

namespace WebTidy

namespace Markup

namespace Indexed

section Steps

variable
  {tokens : List Token}
  {i : Nat}
  {rest : List Token}

/- By index, a tag is joined with the same block. -/
theorem joined?_eq
    (nest : Nest)
    (head : Tag.Head)
    {source : Text}
    (hDrop : tokens.drop i = .tag source :: rest) :
    (joined? nest (tokens.map Token.encoded) i head).map
        (Option.map Outcome.seen) =
      ((span? nest head (rest.map Token.encoded)).mapError
        Octet.Fault.ofFault).map
        (Option.map fun span =>
          Outcome.seenFrom i
            { items :=
                [.joined head.name span.size,
                  nest.line
                    (Octets.spanLine (Octet.toUtf8 source)
                      head.name span)]
              nest := nest
              taken := span.taken }) := by
  unfold joined? span?
  split
  · exact collapse_eq nest hDrop
  · rfl

/- A tag is laid out with its block or alone. -/
theorem stepTag_eq
    (nest : Nest)
    {source : Text}
    (hDrop : tokens.drop i = .tag source :: rest) :
    (stepTag nest (tokens.map Token.encoded) i
        (Octet.toUtf8 source)).map Outcome.seen =
      (Octets.stepTag nest (Octet.toUtf8 source)
        (rest.map Token.encoded)).map
          (Outcome.seenFrom i) := by
  have hHead := head_toUtf8 (source.trim isBlank)
  unfold stepTag Octets.stepTag
  simp only [Octet.trim_toUtf8 Octet.treatsWide_isBlank,
    hHead]
  cases hRead :
      Tag.head? (Octet.toUtf8 (source.trim isBlank)) with
  | none => rfl
  | some head =>
      rw [hRead] at hHead
      have hJoined := joined?_eq nest head hDrop
      simp only [Octet.ok_bind, element_eq nest hHead]
      generalize (span? nest head
        (rest.map Token.encoded)).mapError
          Octet.Fault.ofFault = span at hJoined ⊢
      generalize joined? nest (tokens.map Token.encoded) i
        head = joined at hJoined ⊢
      rcases joined with fault | outcome
      · rcases span with other | span
        · cases hJoined
          rfl
        · cases hJoined
      · rcases span with other | span
        · cases hJoined
        · have hSeen := Except.ok.inj hJoined
          rcases outcome with _ | outcome
          · rcases span with _ | span
            · rfl
            · cases hSeen
          · rcases span with _ | span
            · cases hSeen
            · exact congrArg Except.ok (Option.some.inj hSeen)

/- A verbatim element is laid out alone. -/
theorem stepVerbatim_eq
    (format : Markup.StyleFormatter)
    (nest : Nest)
    (i : Nat)
    (source : Text) :
    (stepVerbatim (.ofFormatter format) nest i
        (Octet.toUtf8 source)).map Outcome.seen =
      (Octets.stepVerbatim format nest
        (Octet.toUtf8 source)).map (Outcome.seenFrom i) := by
  unfold stepVerbatim Octets.stepVerbatim
  rw [head_toUtf8]
  cases Tag.head? (Octet.toUtf8 source) with
  | none => rfl
  | some head =>
      simp only [Octet.ok_bind]
      split
      · rw [styleElement_eq]
        cases Octets.styleElement format nest
            (Octet.toUtf8 source) with
        | error fault => rfl
        | ok items => rfl
      · rfl

/- Any token is laid out as it is with those behind it. -/
theorem step_eq
    (format : Markup.StyleFormatter)
    (nest : Nest)
    {token : Token}
    (hDrop : tokens.drop i = token :: rest) :
    (step (.ofFormatter format) nest
        (tokens.map Token.encoded) i).map Outcome.seen =
      (Octets.step format nest (rest.map Token.encoded)
        token.encoded).map (Outcome.seenFrom i) := by
  have hHere :
      (tokens.map Token.encoded).drop i =
        token.encoded :: rest.map Token.encoded := by
    rw [← List.map_drop, hDrop]
    rfl
  unfold step
  rw [Octet.itemAt_of_drop hHere, Octet.ok_bind]
  cases token with
  | tag source => exact stepTag_eq nest hDrop
  | verbatim source =>
      exact stepVerbatim_eq format nest i source
  | comment source =>
      simp only [Token.encoded, comment_eq, Octet.ok_bind]
      rfl
  | text source => rfl

end Steps

end Indexed

end Markup

end WebTidy

------------------------------------------------------------
-- Documents
------------------------------------------------------------

namespace WebTidy

namespace Markup

namespace Indexed

/-
  From an index on, the layout is that of the tokens which
  are left.
-/
theorem layout_eq
    (format : Markup.StyleFormatter)
    (nest : Nest)
    (tokens : List Token)
    (i : Nat) :
    layout (.ofFormatter format) nest
        (tokens.map Token.encoded) i =
      Octets.layout format nest
        ((tokens.drop i).map Token.encoded) := by
  -- A step may take several tokens at once.
  induction hLeft : tokens.length - i
    using Nat.strong_induction_on
    generalizing i nest with
  | _ left ih =>
      rw [layout, List.length_map]
      by_cases hInside : i < tokens.length
      · have hDrop := List.drop_eq_getElem_cons hInside
        have hStep := step_eq format nest hDrop
        rw [if_pos hInside, hDrop, List.map_cons,
          Octets.layout]
        generalize Octets.step format nest
          ((tokens.drop (i + 1)).map Token.encoded)
          tokens[i].encoded = given at hStep ⊢
        cases hHere : step (.ofFormatter format) nest
            (tokens.map Token.encoded) i with
        | error fault =>
            rw [hHere] at hStep
            cases given with
            | error other =>
                cases hStep
                rfl
            | ok outcome => cases hStep
        | ok outcome =>
            rw [hHere] at hStep
            cases given with
            | error other => cases hStep
            | ok given =>
                have hSeen := Except.ok.inj hStep
                have hItems : outcome.items = given.items :=
                  congrArg Prod.fst hSeen
                have hNest : outcome.nest = given.nest :=
                  congrArg (·.2.1) hSeen
                have hNext :
                    outcome.next = i + 1 + given.taken :=
                  congrArg (·.2.2) hSeen
                have hLater := outcome.later
                simp only [Octet.ok_bind]
                rw [ih (tokens.length - outcome.next) (by omega)
                    outcome.nest outcome.next rfl,
                  hItems, hNest, hNext, ← List.map_drop,
                  List.drop_drop]
                cases Octets.layout format given.nest
                    ((tokens.drop (i + 1 + given.taken)).map
                      Token.encoded) with
                | error fault => rfl
                | ok items => rfl
      · have hEnd : tokens.drop i = [] :=
          List.drop_of_length_le (Nat.le_of_not_lt hInside)
        rw [if_neg hInside, hEnd, List.map_nil, Octets.layout]
        rfl

/-
  The layout of a document by index is its layout.  Nothing
  is looked up outside, and no cut goes through a character.
-/
theorem prettify_eq
    (format : Markup.StyleFormatter)
    (document : Text) :
    prettify (.ofFormatter format) document =
      (Markup.prettify format document).mapError
        Octet.Fault.ofFault := by
  have hStart (s : Text) :
      Octet.isBoundary (Octet.toUtf8 s) 0 = true := by
    have hZero := Octet.isBoundary_offset s 0
    rwa [Octet.offset, List.take_zero, Octet.toUtf8_nil]
      at hZero
  have hLayout :=
    layout_eq format {} (Token.scan (document.trim isSpace)) 0
  rw [List.drop_zero] at hLayout
  rw [← Octets.prettify_eq]
  unfold prettify Octets.prettify
  rw [scan_eq (hStart _), List.drop_zero,
    Octets.scan_toUtf8]
  simp only [Octet.ok_bind]
  exact congrArg (· >>= _) hLayout

end Indexed

end Markup

end WebTidy
