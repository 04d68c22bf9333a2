import WebTidy.Proofs.Stylesheet.Passage

/-
  Colons in the preludes of rules.

  The prelude of a rule reaches from a brace or semicolon,
  or from the start, to the open brace of the rule.  As the
  scanner looks ahead, it finds the open brace and does not
  take a colon of the prelude for the end of a property
  name.  It drops the blanks on both sides of the colon.

  Key definitions include:
    * `WebTidy.Stylesheet.Segment.isBoundary`
    * `WebTidy.Stylesheet.PreludeColon`

  Key theorems include:
    * `WebTidy.Stylesheet.Scanner.exists_passed_boundary`
    * `WebTidy.Stylesheet.Scanner.Passed.inValue_eq_false`
    * `WebTidy.Stylesheet.Scanner.Laid.exists_head`
    * `WebTidy.Stylesheet.prettify_preludeColon`
-/

------------------------------------------------------------
-- Preludes
------------------------------------------------------------

namespace WebTidy

namespace Stylesheet

/- Characters of code that a prelude cannot hold. -/
def isBoundary
    (c : Char) :
    Bool :=
  c = '{' ∨ c = '}' ∨ c = ';'

/- A segment that a prelude begins behind. -/
def Segment.isBoundary :
    Segment → Bool
| .code c => Stylesheet.isBoundary c
| .comment _ _ => false
| .quoted _ _ => false

/- A segment of a prelude without comments. -/
def Segment.isPrelude :
    Segment → Bool
| .code c => !Stylesheet.isBoundary c
| .comment _ _ => false
| .quoted _ _ => true

/- Characters behind which a block may still be ahead. -/
def isQuiet
    (c : Char) :
    Bool :=
  c ≠ ';' ∧ c ≠ '}'

/- A segment that hides no block from a look ahead. -/
def Segment.isQuiet
    (segment : Segment) :
    Bool :=
  segment.source.all Stylesheet.isQuiet

/-
  A colon in the prelude of a rule.  The style sheet is cut
  in front of the prelude, at the colon, and at the open
  brace.
-/
structure PreludeColon
    (sheet : Text)
    (front left right back : List Segment) :
    Prop where
  segments_eq :
    segments sheet =
      front ++
        (left ++ .code ':' :: (right ++ .code '{' :: back))
  start : front.getLast?.all Segment.isBoundary = true
  prelude : (left ++ right).all Segment.isPrelude = true

end Stylesheet

end WebTidy

------------------------------------------------------------
-- Passages Outside Values
------------------------------------------------------------

namespace WebTidy

namespace Stylesheet

/- A boundary is no blank. -/
theorem isBlank_of_isBoundary
    {c : Char}
    (h : isBoundary c = true) :
    isBlank c = false := by
  simp only [isBoundary, decide_eq_true_eq] at h
  rcases h with rfl | rfl | rfl <;> rfl

/- A text that ends with no blank has no blanks at its end. -/
theorem eq_nil_of_getLast?
    {front blanks : Text}
    {c : Char}
    (hBlanks : blanks.all isBlank = true)
    (hLast : (front ++ blanks).getLast? = some c)
    (hc : isBlank c = false) :
    blanks = [] := by
  rw [List.getLast?_append] at hLast
  cases hEnd : blanks.getLast? with
  | none => exact List.getLast?_eq_none_iff.mp hEnd
  | some d =>
      rw [hEnd] at hLast
      cases hLast
      have hBlank :=
        List.all_eq_true.mp hBlanks c
          (List.mem_of_getLast? hEnd)
      rw [hc] at hBlank
      cases hBlank

/- Without a semicolon or close brace a block is ahead. -/
theorem selectorAhead_append
    {front back : Text}
    (hFront : front.all isQuiet = true)
    (hBack : selectorAhead back = true) :
    selectorAhead (front ++ back) = true := by
  unfold selectorAhead at hBack ⊢
  rw [List.find?_append]
  cases hFound :
      front.find? (fun c => c = '{' ∨ c = ';' ∨ c = '}') with
  | none => exact hBack
  | some c =>
      have hFree :=
        List.all_eq_true.mp hFront c
          (List.mem_of_find?_eq_some hFound)
      have hBrace := List.find?_some hFound
      simp only [isQuiet, decide_eq_true_eq] at hFree hBrace
      simp [hFree] at hBrace
      simp [hBrace]

namespace Scanner

/- Behind a boundary the scanner is outside values. -/
theorem Move.inValue_of_isBoundary
    {s t : Scanner}
    {blanks rest k text : Text}
    {c : Char}
    (h : Move s blanks rest k text t)
    (hLast : k.getLast? = some c)
    (hc : isBoundary c = true) :
    t.inValue = false := by
  have hBoundary := hc
  simp only [isBoundary, decide_eq_true_eq] at hBoundary
  cases h with
  | plain d hPlain | word d hPlain =>
      cases hLast
      rcases hBoundary with rfl | rfl | rfl <;> cases hPlain
  | operator d hComment hValue hParens hOperator =>
      cases hLast
      rcases hBoundary with rfl | rfl | rfl <;>
        cases hOperator
  | comment k hComment =>
      rcases hComment.eq_append with ⟨init, rfl⟩
      rw [List.getLast?_concat] at hLast
      cases hLast
      cases hc
  | string k hString =>
      rcases hString.eq_append with
        ⟨init, mark, rfl, hMark⟩
      rw [List.getLast?_concat] at hLast
      cases hLast
      rcases hBoundary with rfl | rfl | rfl <;> cases hMark
  | openBlock | closeBlock | closeValue | semicolon => rfl
  | _ =>
      cases hLast
      cases hc

/- So it is at the end of a passage that ends with one. -/
theorem Passed.inValue_of_isBoundary
    {s t : Scanner}
    {front back out : Text}
    {c : Char}
    (h : Passed back s front out t)
    (hs : Ready s (front ++ back))
    (hStart :
      s.final? = some c → s.inValue = false)
    (hFinal : t.final? = some c)
    (hc : isBoundary c = true) :
    t.inValue = false := by
  induction h with
  | done => exact hStart hFinal
  | again hBlanks hAgain hRest ih =>
      have hCode := (hs.settled.ended hAgain).1
      exact ih ⟨hs.settled, Or.inl hCode⟩ hStart hFinal
  | dash hDash hRest ih =>
      rcases Ready.afterDash hDash hs with
        ⟨_, hCore, hReady⟩
      refine ih hReady ?_ hFinal
      intro hLast
      rw [final?, hCore] at hLast
      cases hLast
      cases hc
  | move hCode hBlanks hMove hRest ih =>
      refine ih (hMove.ready hCode) ?_ hFinal
      intro hLast
      rw [hMove.final?_eq hCode hBlanks] at hLast
      exact hMove.inValue_of_isBoundary hLast hc

/- The passage to the start of a prelude. -/
theorem exists_passed_boundary
    {sheet : Text}
    {front back : List Segment}
    (hSegments : segments sheet = front ++ back)
    (hBack : back ≠ [])
    (hStart : front.getLast?.all Segment.isBoundary = true) :
    ∃ passed rest out t,
      sheet = passed ++ rest ∧ segments rest = back ∧
      Passed rest {} passed out t ∧ t.inValue = false := by
  rcases exists_passed (ready_new _) hSegments hBack with
    ⟨passed, between, rest, out, t, rfl, hBetween, hSource,
      hRest, hPassed⟩
  have hFinal := hPassed.final?_eq (ready_new _)
  have hReached := hPassed.reaches (ready_new _)
  cases hLast : front.getLast? with
  | none =>
      rw [List.getLast?_eq_none_iff.mp hLast,
        List.flatMap_nil, List.append_eq_nil_iff] at hSource
      rcases hSource with ⟨rfl, rfl⟩
      exact ⟨[], rest, out, t, rfl, hRest, hPassed,
        (lead_of_final?_eq_none hReached.2.2.settled hFinal
          []).1⟩
  | some segment =>
      rw [hLast, Option.all_some] at hStart
      cases segment with
      | comment | quoted => cases hStart
      | code c =>
          rcases List.getLast?_eq_some_iff.mp hLast with
            ⟨init, rfl⟩
          have hc : isBoundary c = true := hStart
          have hEnd : (passed ++ between).getLast? = some c := by
            rw [hSource, List.flatMap_append]
            exact List.getLast?_concat
          have hNone :=
            eq_nil_of_getLast? hBetween hEnd
              (isBlank_of_isBoundary hc)
          subst hNone
          rw [List.append_nil] at hEnd
          rw [hEnd] at hFinal
          refine ⟨passed, rest, out, t, rfl, hRest, hPassed,
            ?_⟩
          exact hPassed.inValue_of_isBoundary (ready_new _)
            nofun hFinal hc

/- A selector ahead keeps a passage outside values. -/
theorem Passed.inValue_eq_false
    {s t : Scanner}
    {front back out : Text}
    (h : Passed back s front out t)
    (hFront : front.all isQuiet = true)
    (hBack : selectorAhead back = true)
    (hValue : s.inValue = false) :
    t.inValue = false := by
  induction h with
  | done => exact hValue
  | again hBlanks hFinal hRest ih =>
      simp [isQuiet] at hFront
  | dash hDash hRest ih =>
      simp only [List.all_cons, Bool.and_eq_true] at hFront
      exact ih hFront.2 hValue
  | @move s t u blanks k rest text out hCode hBlanks hMove
      hRest ih =>
      rw [List.all_append, Bool.and_eq_true] at hFront
      have hAhead := selectorAhead_append hFront.2 hBack
      apply ih hFront.2
      cases hMove with
      | valueColon hOutside hSelector =>
          exact absurd (Or.inr hAhead) hSelector
      | openBlock | closeBlock | closeValue | semicolon => rfl
      | _ => exact hValue

end Scanner

/- Segments that are quiet have a quiet text. -/
theorem all_quiet_source
    {part : List Segment}
    (h : part.all Segment.isQuiet = true) :
    (part.flatMap Segment.source).all isQuiet = true := by
  rw [List.all_flatMap]
  exact h

namespace Scanner

/- A scanner in front of a colon reads code. -/
theorem Ready.context_of_colon
    {s : Scanner}
    {blanks rest : Text}
    (hs : Ready s (blanks ++ ':' :: rest))
    (hBlanks : blanks.all isBlank = true) :
    s.context = .code := by
  rcases hs.context with hCode | ⟨_, _, hHead⟩
  · exact hCode
  · have hNone := eq_nil_of_head? hBlanks hHead rfl
    subst hNone
    cases hHead

/- The passage from the start of a prelude to a colon. -/
theorem exists_passed_colon
    {s : Scanner}
    {source : Text}
    {left right back : List Segment}
    (hs : Ready s source)
    (hValue : s.inValue = false)
    (hSegments :
      segments source =
        left ++ .code ':' :: (right ++ .code '{' :: back))
    (hLeft : left.all Segment.isQuiet = true)
    (hRight : right.all Segment.isQuiet = true) :
    ∃ passed between rest out t,
      source = passed ++ (between ++ ':' :: rest) ∧
      List.all between isBlank = true ∧
      segments rest = right ++ .code '{' :: back ∧
      Passed (between ++ ':' :: rest) s passed out t ∧
      t.inValue = false ∧ selectorAhead rest = true := by
  rcases exists_passed hs hSegments (by simp) with
    ⟨passed, between, tail, out, t, rfl, hBetween, hSource,
      hTail, hPassed⟩
  have hFree := all_quiet_source hLeft
  rw [← hSource, List.all_append, Bool.and_eq_true] at hFree
  rcases exists_of_segments_cons hTail with
    ⟨rest, rfl, hRest⟩
  rcases exists_of_segments hRest with
    ⟨block, rfl, hBlock⟩
  rcases exists_of_segments_cons hBlock with
    ⟨body, rfl, _⟩
  have hAhead :
      selectorAhead
        (right.flatMap Segment.source ++ '{' :: body) =
        true :=
    selectorAhead_append (all_quiet_source hRight) rfl
  refine ⟨passed, between, _, out, t, rfl, hBetween, hRest,
    hPassed, ?_, hAhead⟩
  apply hPassed.inValue_eq_false hFree.1 _ hValue
  rw [selectorAhead_blanks _ hBetween]
  have hFirst : [':'].all isQuiet = true := rfl
  exact selectorAhead_append hFirst hAhead

end Scanner

end Stylesheet

end WebTidy

------------------------------------------------------------
-- Behind A Colon
------------------------------------------------------------

namespace WebTidy

namespace Stylesheet

namespace Scanner

/-
  Where no blanks are kept, a segment of a prelude is
  written as it is.
-/
theorem Move.text_eq_of_bare
    {s t : Scanner}
    {blanks rest k text : Text}
    {segment : Segment}
    (h : Move s blanks rest k text t)
    (hLead : s.lead blanks = [])
    (hValue : s.inValue = false)
    (hFirst :
      segments (k ++ rest) = segment :: segments rest)
    (hPrelude : segment.isPrelude = true) :
    text = k := by
  have hNot {other : Segment}
      (hOther :
        segments (k ++ rest) = other :: segments rest) :
      other.isPrelude = true := by
    rw [hFirst] at hOther
    rw [← (List.cons.inj hOther).1]
    exact hPrelude
  cases h with
  | plain | string => rw [hLead, List.nil_append]
  | openBlock | closeBlock =>
      cases hNot (segments_code (by simp) rfl)
  | comment k hComment =>
      cases hNot (segments_comment rest hComment)
  | closeParen | semicolon | comma | selectorColon
  | valueColon => rfl
  | word c hPlain hComment hClose hInside
  | operator c hComment hInside
  | dash hInside
  | closeValue hInside =>
      rw [hValue] at hInside
      cases hInside

/-
  Behind a colon outside values, the layout goes on with the
  next segment of the prelude.
-/
theorem Laid.exists_head
    {s : Scanner}
    {source out : Text}
    {right back : List Segment}
    (h : Laid s source out)
    (hColon : s.final? = some ':')
    (hCode : s.context = .code)
    (hLead : ∀ blanks, s.lead blanks = [])
    (hValue : s.inValue = false)
    (hSegments :
      segments source = right ++ .code '{' :: back)
    (hRight : right.all Segment.isPrelude = true)
    (hSome : right.all Segment.isBlank = false) :
    ∃ c more, out = c :: more ∧ isBlank c = false := by
  have hBrace : .code '{' ∈ segments source := by
    rw [hSegments]
    simp
  have hBlank {blanks : Text}
      (hBlanks : blanks.all isBlank = true) :
      (blanks.map Segment.code).all Segment.isBlank =
        true := by
    rw [List.all_map]
    exact hBlanks
  have hAbsent {blanks : Text}
      (hBlanks : blanks.all isBlank = true) :
      Segment.code '{' ∉ blanks.map .code := by
    intro hMem
    cases List.all_eq_true.mp (hBlank hBlanks) _ hMem
  cases h with
  | blank _ hBlanks =>
      have hOnly := segments_blanks [] hBlanks
      rw [List.append_nil, segments, List.append_nil] at hOnly
      rw [hOnly] at hBrace
      exact absurd hBrace (hAbsent hBlanks)
  | openComment _ hBlanks hOpen hEnd =>
      rw [segments_blanks _ hBlanks,
        segments_comment_open hOpen hEnd, List.mem_append]
        at hBrace
      rcases hBrace with hMem | hMem
      · exact absurd hMem (hAbsent hBlanks)
      · cases List.mem_singleton.mp hMem
  | openString _ hBlanks hMark hEnd =>
      rw [segments_blanks _ hBlanks,
        segments_string_open hMark hEnd, List.mem_append]
        at hBrace
      rcases hBrace with hMem | hMem
      · exact absurd hMem (hAbsent hBlanks)
      · cases List.mem_singleton.mp hMem
  | again hBlanks hFinal hRest =>
      rw [hColon] at hFinal
      cases hFinal
  | dash hDash hRest =>
      rw [hCode] at hDash
      cases hDash
  | @move s t blanks k rest text out _ hBlanks hMove hRest =>
      rcases hMove.exists_segment with
        ⟨segment, _, _, hFirst⟩
      have hFirst := hFirst rest fun _ hStar => hStar
      have hMember : segment ∈ right := by
        rw [List.append_assoc, segments_blanks _ hBlanks,
          hFirst] at hSegments
        rcases List.append_eq_append_iff.mp hSegments with
          ⟨others, hRest, hMore⟩ | ⟨others, hFront, _⟩
        · cases others with
          | nil =>
              rw [List.append_nil] at hRest
              rw [hRest, hBlank hBlanks] at hSome
              cases hSome
          | cons first others =>
              rw [(List.cons.inj hMore).1, hRest]
              simp
        · have hAll := hBlank hBlanks
          rw [hFront, List.all_append, hSome] at hAll
          cases hAll
      have hText :=
        hMove.text_eq_of_bare (hLead blanks) hValue hFirst
          (List.all_eq_true.mp hRight segment hMember)
      rcases hMove.exists_head with ⟨c, more, hk, hc⟩
      refine ⟨c, more ++ out, ?_, hc⟩
      rw [hText, hk]
      rfl

end Scanner

end Stylesheet

end WebTidy

------------------------------------------------------------
-- Style Sheets
------------------------------------------------------------

namespace WebTidy

namespace Stylesheet

/- A text that begins with no blank has a mark first. -/
theorem isBlank_head?_segments
    {c : Char}
    (rest : Text)
    (hc : isBlank c = false) :
    (segments (c :: rest)).head?.all (!·.isBlank) = true := by
  cases hSegments : segments (c :: rest) with
  | nil => rfl
  | cons segment more =>
      rcases exists_of_segments_cons hSegments with
        ⟨tail, hText, _⟩
      cases segment with
      | comment | quoted => rfl
      | code d =>
          have hSame : c = d := (List.cons.inj hText).1
          simpa [Segment.isBlank, ← hSame] using hc

/-
  A colon in the prelude of a rule has its place in the
  layout, where no blank stands in front of it, and none
  behind it if more of the prelude follows.
-/
theorem prettify_preludeColon
    {sheet : Text}
    {front left right back : List Segment}
    (hColon : PreludeColon sheet front left right back)
    (hQuiet : (left ++ right).all Segment.isQuiet = true) :
    ∃ before after,
      Counterpart sheet (front ++ left)
        (.code ':' :: (right ++ .code '{' :: back))
        before (.code ':' :: after) ∧
      before.getLast?.all (!·.isBlank) = true ∧
      (right.all Segment.isBlank = false →
        after.head?.all (!·.isBlank) = true) := by
  rw [List.all_append, Bool.and_eq_true] at hQuiet
  rcases Scanner.exists_passed_boundary hColon.segments_eq
      (by simp) hColon.start with
    ⟨passed, source, out, s, rfl, hSource, hFirst, hOutside⟩
  have hReady := (hFirst.reaches (Scanner.ready_new _)).2.2
  rcases Scanner.exists_passed_colon hReady hOutside hSource
      hQuiet.1 hQuiet.2 with
    ⟨more, between, rest, others, t, rfl, hBetween, hRest,
      hSecond, hValue, hAhead⟩
  have hPlace := (hSecond.reaches hReady).2.2
  have hCode := hPlace.context_of_colon hBetween
  have hMove :
      Scanner.Move t between rest [':'] [':'] _ :=
    .selectorColon hValue (Or.inr hAhead)
  rcases Scanner.exists_laid (hMove.ready hCode) with
    ⟨later, hLater⟩
  have hLaid := Scanner.Laid.move hCode hBetween hMove hLater
  rw [List.append_assoc] at hLaid
  have hSegments := hColon.segments_eq
  rw [← List.append_assoc front] at hSegments
  have hHere :
      segments (':' :: rest) =
        .code ':' :: (right ++ .code '{' :: back) := by
    rw [segments_code (by simp) rfl, hRest]
  have hShown :
      segments (':' :: later ++ ['\n']) =
        .code ':' :: segments (later ++ ['\n']) :=
    segments_code (by simp) rfl
  rcases (hFirst.append hSecond).exists_counterpart hSegments
      (List.append_assoc _ _ _).symm hBetween hHere hLaid
      (fun _ => rfl) with
    ⟨before, hPart, hBefore⟩
  rw [List.singleton_append, hShown] at hPart
  refine ⟨before, _, hPart, hBefore, ?_⟩
  intro hSome
  have hPrelude := hColon.prelude
  rw [List.all_append, Bool.and_eq_true] at hPrelude
  rcases hLater.exists_head rfl hCode (fun _ => rfl) hValue
      hRest hPrelude.2 hSome with
    ⟨c, tail, rfl, hc⟩
  exact isBlank_head?_segments _ hc

/- A nested rule whose prelude holds a string. -/
def nestedRule :
    Text :=
  "a\x7bb[c=',:'] : d\x7b\x7d\x7d".toList

/- The prelude of the nested rule up to its colon. -/
def nestedLeft :
    List Segment :=
  [.code 'b', .code '[', .code 'c', .code '=',
    .quoted "',:'".toList true, .code ']', .code ' ']

/- The blanks beside the colon of the nested rule go. -/
theorem prettify_nestedRule :
    prettify nestedRule =
      "a \x7b\n\tb[c=',:']:d \x7b\n\t\x7d\n\x7d\n".toList ∧
    ∃ before after,
      Counterpart nestedRule
        ([.code 'a', .code '{'] ++ nestedLeft)
        (.code ':' ::
          ([.code ' ', .code 'd'] ++
            .code '{' :: [.code '}', .code '}']))
        before (.code ':' :: after) ∧
      before.getLast?.all (!·.isBlank) = true ∧
      after.head?.all (!·.isBlank) = true := by
  have hColon :
      PreludeColon nestedRule [.code 'a', .code '{']
        nestedLeft [.code ' ', .code 'd']
        [.code '}', .code '}'] := by
    constructor <;> decide +kernel
  rcases prettify_preludeColon hColon (by decide) with
    ⟨before, after, hPart, hBefore, hAfter⟩
  exact ⟨by decide +kernel, before, after, hPart, hBefore,
    hAfter (by decide)⟩

/-
  Blanks in front of a colon are not kept, even where they
  stand between two selectors: the layout joins a colon to
  the selector before it.
-/
theorem not_keeps_preludeColon :
    ¬ ∀ (sheet : Text)
      (front left right back : List Segment),
      PreludeColon sheet front left right back →
      (said left).head? ≠ some (.code '@') →
      (said left).getLast?.any (· ≠ .code ',') = true →
      ∃ before after,
        Counterpart sheet (front ++ left)
          (.code ':' :: (right ++ .code '{' :: back))
          before (.code ':' :: after) ∧
        before.getLast?.any Segment.isBlank =
          left.getLast?.any Segment.isBlank ∧
        (after.head?.any Segment.isBlank = true →
          right.head?.any Segment.isBlank = true) := by
  intro hKeeps
  have hColon :
      PreludeColon "a :hover\x7b\x7d".toList []
        [.code 'a', .code ' '] ("hover".toList.map .code)
        [.code '}'] := by
    constructor <;> decide +kernel
  rcases hKeeps _ _ _ _ _ hColon (by decide) (by decide) with
    ⟨before, after, hPart, hBlank, _⟩
  have hLayout :
      segments (prettify "a :hover\x7b\x7d".toList) =
        .code 'a' :: .code ':' ::
          "hover \x7b\n\x7d\n".toList.map .code := by
    decide +kernel
  have hSegments := hLayout.symm.trans hPart.segments_eq
  have hSaid : said before = [.code 'a'] := hPart.said_before
  cases before with
  | nil => cases hSaid
  | cons first others =>
      injection hSegments with hFirst hOthers
      subst hFirst
      cases others with
      | nil => cases hBlank
      | cons second others =>
          injection hOthers with hSecond _
          subst hSecond
          rw [said_cons _ rfl (by decide),
            said_cons _ rfl (by decide)] at hSaid
          cases hSaid

end Stylesheet

end WebTidy
