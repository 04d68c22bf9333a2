import Mathlib.Data.List.Chain
import WebTidy.Proofs.Stylesheet.BraceDepth
import WebTidy.Proofs.Stylesheet.Selector

/-
  Braces and semicolons at the ends of lines.

  The scanner ends the line behind every brace and every
  semicolon.  The next segment may take the line feed back:
  a colon, a comma or an open brace stands directly behind
  what is written last, and so does a semicolon that is no
  repeated one.  Every other segment begins the next line.

  Key definitions include:
    * `WebTidy.Stylesheet.EndsLines`
    * `WebTidy.Stylesheet.Sticks`
    * `WebTidy.Stylesheet.NoneBehind`
    * `WebTidy.Stylesheet.Scanner.Broken`

  Key theorems include:
    * `WebTidy.Stylesheet.Scanner.Move.head?_iff`
    * `WebTidy.Stylesheet.Scanner.Laid.isChain_iff`
    * `WebTidy.Stylesheet.endsLines_iff`
    * `WebTidy.Stylesheet.endsLines_prettify_iff`
-/

------------------------------------------------------------
-- Ends Of Lines
------------------------------------------------------------

namespace WebTidy

namespace Stylesheet

/-
  A style sheet in which a line feed stands directly behind
  every brace and semicolon of code.
-/
def EndsLines
    (sheet : Text) :
    Prop :=
  ∀ front c back,
    segments sheet = front ++ .code c :: back →
    isBoundary c = true →
    back.head? = some (.code '\n')

/-
  A style sheet in which none of some characters follows a
  brace or semicolon of code, with or without blanks between
  them.
-/
def NoneBehind
    (others sheet : Text) :
    Prop :=
  (marks sheet).IsChain fun first second =>
    first.isBoundary = true →
      ∀ c ∈ others, second ≠ .code c

/- Only the characters in question are tried. -/
instance
    (others sheet : Text) :
    Decidable (NoneBehind others sheet) :=
  letI (second : Segment) :
      Decidable (∀ c ∈ others, second ≠ .code c) :=
    List.decidableBAll _ others
  List.instDecidableIsChainOfDecidableRel (marks sheet)

/- Behind a brace or semicolon comes a line feed. -/
def Breaks
    (first second : Segment) :
    Prop :=
  first.isBoundary = true → second = .code '\n'

/- A mark that takes back the line feed in front of it. -/
def Sticks
    (first second : Segment) :
    Prop :=
  first.isBoundary = true ∧
    (second = .code ':' ∨ second = .code ',' ∨
      second = .code '{' ∨
      (second = .code ';' ∧ first ≠ .code ';'))

end Stylesheet

end WebTidy

------------------------------------------------------------
-- Blanks Between Segments
------------------------------------------------------------

namespace WebTidy

namespace Stylesheet

/- A boundary is a character of code. -/
theorem exists_of_isBoundary
    {segment : Segment}
    (h : segment.isBoundary = true) :
    ∃ c, segment = .code c ∧ isBoundary c = true := by
  cases segment with
  | code c => exact ⟨c, rfl, h⟩
  | comment | quoted => cases h

/- Only a boundary asks for the end of a line. -/
theorem isChain_cons_iff
    {segment : Segment}
    (part : List Segment)
    (h : segment.isBoundary = false) :
    (segment :: part).IsChain Breaks ↔
      part.IsChain Breaks := by
  rw [List.isChain_cons]
  constructor
  · exact And.right
  · intro hPart
    refine ⟨?_, hPart⟩
    intro next _ hBoundary
    rw [h] at hBoundary
    cases hBoundary

/- So blanks of code do not. -/
theorem isChain_blanks_iff
    {blanks : Text}
    (part : List Segment)
    (h : blanks.all isBlank = true) :
    (blanks.map Segment.code ++ part).IsChain Breaks ↔
      part.IsChain Breaks := by
  induction blanks with
  | nil => rfl
  | cons c more ih =>
      simp only [List.all_cons, Bool.and_eq_true] at h
      have hc : (Segment.code c).isBoundary = false := by
        cases hc : isBoundary c with
        | false => exact hc
        | true =>
            have hBlank := isBlank_of_isBoundary hc
            rw [h.1] at hBlank
            cases hBlank
      rw [List.map_cons, List.cons_append,
        isChain_cons_iff _ hc, ih h.2]

/-
  A segment behind another, with blanks between them.  The
  line ends behind the first one if a line feed comes next.
-/
theorem isChain_lead_iff
    {previous segment : Segment}
    {lead : Text}
    (part : List Segment)
    (hLead : lead.all isBlank = true)
    (hSegment : segment.isBlank = false) :
    (previous ::
        (lead.map Segment.code ++ segment :: part)).IsChain
          Breaks ↔
      (previous.isBoundary = true →
        lead.head? = some '\n') ∧
      (segment :: part).IsChain Breaks := by
  have hNext :
      (lead.map Segment.code ++ segment :: part).head? =
          some (.code '\n') ↔
        lead.head? = some '\n' := by
    cases lead with
    | nil =>
        constructor
        · intro hFeed
          cases hFeed
          cases hSegment
        · intro hFeed
          cases hFeed
    | cons c more => simp
  rw [List.isChain_cons, isChain_blanks_iff _ hLead, ← hNext]
  apply and_congr_left
  intro _
  generalize hPart :
    lead.map Segment.code ++ segment :: part = all
  cases all with
  | nil => simp at hPart
  | cons next more =>
      constructor
      · intro hBreaks hBoundary
        rw [hBreaks next rfl hBoundary]
        rfl
      · intro hFeed other hOther hBoundary
        cases hOther
        exact Option.some_inj.mp (hFeed hBoundary)

end Stylesheet

end WebTidy

------------------------------------------------------------
-- Scanners Behind A Brace Or Semicolon
------------------------------------------------------------

namespace WebTidy

namespace Stylesheet

namespace Scanner

/-
  A scanner behind a segment.  If that is a brace or a
  semicolon, the scanner is outside values and has ended the
  line, unless only blanks are left.
-/
structure Broken
    (s : Scanner)
    (previous : Segment)
    (source : Text) :
    Prop where
  semicolon :
    s.final? = some ';' ↔ previous = .code ';'
  outside :
    previous.isBoundary = true →
      s.inValue = false ∧ s.skipping = true ∧
      s.final? ≠ none
  line :
    previous.isBoundary = true →
      source.all isBlank = false → s.trail = ['\n']

/- No brace or semicolon stands at the end inside a value. -/
theorem Broken.isBoundary_eq_false
    {s : Scanner}
    {previous : Segment}
    {source : Text}
    (hs : Broken s previous source)
    (h : s.inValue = true ∨ s.skipping = false) :
    previous.isBoundary = false := by
  cases hPrevious : previous.isBoundary with
  | false => rfl
  | true =>
      rcases hs.outside hPrevious with ⟨hValue, hSkip, _⟩
      rw [hValue, hSkip] at h
      cases h with
      | inl h => cases h
      | inr h => cases h

/- A line feed and its tabs stand behind them. -/
theorem Broken.lead_eq
    {s : Scanner}
    {previous : Segment}
    {source : Text}
    (hs : Broken s previous source)
    (hPrevious : previous.isBoundary = true)
    (hSource : source.all isBlank = false)
    (blanks : Text) :
    s.lead blanks = '\n' :: s.tabs := by
  have hSkip := (hs.outside hPrevious).2.1
  have hTrail := hs.line hPrevious hSource
  simp [lead, gap, hSkip, hTrail]

/- Behind a brace or semicolon the line ends. -/
theorem Move.of_isBoundary
    {s t : Scanner}
    {blanks rest text : Text}
    {c : Char}
    (hCode : s.context = .code)
    (h : Move s blanks rest [c] text t)
    (hc : isBoundary c = true) :
    t.inValue = false ∧ t.skipping = true ∧
      (rest.all isBlank = false → t.trail = ['\n']) := by
  have hCore := (h.core_eq_and_settled hCode).1
  have hLine
      (hWritten :
        t.written = '\n' :: (text.reverse ++ s.core)) :
      t.trail = ['\n'] :=
    @trail_eq _ _ ['\n'] hWritten hCore
  have hValue := h.inValue_of_isBoundary rfl hc
  simp only [isBoundary, decide_eq_true_eq] at hc
  cases h with
  | openBlock | semicolon =>
      exact ⟨hValue, rfl, fun _ => hLine rfl⟩
  | closeBlock | closeValue =>
      refine ⟨hValue, rfl, fun hMore => hLine ?_⟩
      rw [leave, hMore]
      rfl
  | plain d hPlain | word d hPlain =>
      rcases hc with rfl | rfl | rfl <;> cases hPlain
  | operator d hComment hInside hParens hOperator =>
      rcases hc with rfl | rfl | rfl <;> cases hOperator
  | comment k hComment =>
      rcases exists_of_commentLength? hComment with
        ⟨body, m, hText, _, _⟩
      cases hText
  | string k hString =>
      rcases exists_of_stringLength? hString with
        ⟨mark, body, m, hText, hMark, _, _⟩
      cases hText
      rcases hc with rfl | rfl | rfl <;> cases hMark
  | closeParen | dash | comma | selectorColon | valueColon =>
      simp at hc

/- A move leads to a scanner behind its segment. -/
theorem Move.broken
    {s t : Scanner}
    {blanks rest k text : Text}
    {segment : Segment}
    (hCode : s.context = .code)
    (hBlanks : blanks.all isBlank = true)
    (h : Move s blanks rest k text t)
    (hSegment : segments k = [segment]) :
    Broken t segment rest := by
  have hSource : k = segment.source := by
    rw [← segments_source k, hSegment, List.flatMap_singleton]
  have hFinal := h.final?_eq hCode hBlanks
  have hBoundary (hSome : segment.isBoundary = true) :
      (t.inValue = false ∧ t.skipping = true ∧
        (rest.all isBlank = false → t.trail = ['\n'])) ∧
      t.final? ≠ none := by
    rcases exists_of_isBoundary hSome with ⟨c, rfl, hc⟩
    subst hSource
    refine ⟨h.of_isBoundary hCode hc, ?_⟩
    rw [hFinal]
    exact Option.some_ne_none c
  constructor
  · constructor
    · intro hEnd
      have hk := h.eq_semicolon hCode hBlanks hEnd
      rw [hk, segments_code (by simp) rfl] at hSegment
      exact (List.cons.inj hSegment).1.symm
    · rintro rfl
      rw [hFinal, hSource]
      rfl
  · intro hSome
    rcases hBoundary hSome with ⟨⟨hValue, hSkip, _⟩, hInk⟩
    exact ⟨hValue, hSkip, hInk⟩
  · intro hSome
    exact (hBoundary hSome).1.2.2

/-
  Behind a brace or semicolon a move goes to the next line
  unless its segment sticks to the line.
-/
theorem Move.head?_iff
    {s t : Scanner}
    {blanks rest k text : Text}
    {previous segment : Segment}
    (hBlanks : blanks.all isBlank = true)
    (h : Move s blanks rest k text t)
    (hs : Broken s previous (blanks ++ k ++ rest))
    (hSegment : segments k = [segment])
    (hPrevious : previous.isBoundary = true) :
    text.head? = some '\n' ↔ ¬ Sticks previous segment := by
  rcases hs.outside hPrevious with ⟨hOutside, _, hInk⟩
  have hLead (t : Text) :
      (s.lead blanks ++ t).head? = some '\n' := by
    rw [hs.lead_eq hPrevious]
    · rfl
    · simp only [List.all_append, (h.all_isBlank hBlanks).1,
        Bool.and_false, Bool.false_and]
  have hNext (hFeed : text.head? = some '\n')
      (hLoose : ¬ Sticks previous segment) :
      text.head? = some '\n' ↔ ¬ Sticks previous segment :=
    iff_of_true hFeed hLoose
  have hStay (hFeed : text.head? ≠ some '\n')
      (hSticks : Sticks previous segment) :
      text.head? = some '\n' ↔ ¬ Sticks previous segment :=
    iff_of_false hFeed (not_not_intro hSticks)
  cases h with
  | word c hPlain hComment hClose hInside
  | closeParen hInside
  | operator c hComment hInside
  | dash hInside
  | closeValue hInside =>
      rw [hOutside] at hInside
      cases hInside
  | plain c hPlain hComment hColon =>
      apply hNext (hLead [c])
      simp [isPlain] at hPlain
      rw [eq_code hSegment hPlain.1.1.1.1.2]
      simp [Sticks, hPlain, hColon]
  | closeBlock =>
      apply hNext rfl
      rw [eq_code hSegment rfl]
      simp [Sticks]
  | comment k hComment =>
      apply hNext
      · rw [commentLead, if_neg hInk]
        rfl
      · rw [hComment.eq_comment hSegment]
        simp [Sticks]
  | string k hString =>
      apply hNext (hLead k)
      rw [hString.eq_quoted hSegment]
      simp [Sticks]
  | semicolon hFinal =>
      apply hStay (by simp)
      rw [eq_code hSegment rfl]
      have hOther := mt hs.semicolon.mpr hFinal
      exact ⟨hPrevious, by simp [hOther]⟩
  | openBlock | comma | selectorColon | valueColon =>
      apply hStay (by simp)
      rw [eq_code hSegment rfl]
      exact ⟨hPrevious, by simp⟩

end Scanner

end Stylesheet

end WebTidy

------------------------------------------------------------
-- Layouts
------------------------------------------------------------

namespace WebTidy

namespace Stylesheet

namespace Scanner

/-
  What a move writes ends the line behind the segment before
  it, unless the segment of the move sticks to that line.
-/
theorem Move.isChain_iff
    {s t : Scanner}
    {blanks rest k text later : Text}
    {previous segment : Segment}
    (hBlanks : blanks.all isBlank = true)
    (h : Move s blanks rest k text t)
    (hs : Broken s previous (blanks ++ k ++ rest))
    (hSegment : segments k = [segment])
    (hShown :
      segments (k ++ later) = segment :: segments later)
    (hBlank : segment.isBlank = false) :
    (previous :: segments (text ++ later)).IsChain Breaks ↔
      ¬ Sticks previous segment ∧
      (segment :: segments later).IsChain Breaks := by
  have hHead := h.head?_iff hBlanks hs hSegment
  rcases h.exists_head with ⟨c, more, hk, hc⟩
  rcases h.text_eq hBlanks with
    ⟨lead, hLead, rfl⟩ | ⟨hValue, rfl, rfl⟩
  · have hFeed :
        (lead ++ k).head? = some '\n' ↔
          lead.head? = some '\n' := by
      rw [List.head?_append, hk]
      cases lead.head? with
      | some d => rfl
      | none =>
          simp only [List.head?_cons, Option.none_or,
            Option.some_inj, reduceCtorEq, iff_false]
          rintro rfl
          cases hc
    rw [List.append_assoc, segments_blanks _ hLead, hShown,
      isChain_lead_iff _ hLead hBlank]
    apply and_congr_left
    intro _
    rw [← hFeed]
    constructor
    · intro hNext hSticks
      exact (hHead hSticks.1).mp (hNext hSticks.1) hSticks
    · intro hLoose hPrevious
      exact (hHead hPrevious).mpr hLoose
  · -- a value never stands directly behind a boundary
    have hInside :=
      hs.isBoundary_eq_false (Or.inl hValue)
    have hClosing :
        s.closing =
          ('\n' :: List.replicate (s.depth - 1) '\t') ++
            ['}'] := rfl
    have hLead :
        ('\n' :: List.replicate (s.depth - 1) '\t').all
          isBlank = true := by
      simp [isBlank]
    rw [isChain_cons_iff _ hInside, List.cons_append,
      segments_code (by simp) rfl, hClosing,
      List.append_assoc, segments_blanks _ hLead, hShown,
      isChain_lead_iff _ hLead hBlank]
    simp [Sticks, hInside]

/-
  The lines of a layout end behind the braces and semicolons
  exactly if no mark of the text sticks to one of them.
-/
theorem Laid.isChain_iff
    {s : Scanner}
    {source out : Text}
    {previous : Segment}
    (h : Laid s source out)
    (hReady : Ready s source)
    (hs : Broken s previous source) :
    (previous :: segments (out ++ ['\n'])).IsChain Breaks ↔
      (previous :: marks source).IsChain
        (fun first second => ¬ Sticks first second) := by
  induction h generalizing previous with
  | @blank s blanks hCode hBlanks =>
      have hEnd :
          segments ['\n'] = [.code '\n'] := by
        rw [segments_code (by simp) rfl, segments]
      rw [marks_eq_nil hBlanks]
      apply iff_of_true _ (List.isChain_singleton _)
      cases hValue : s.inValue with
      | false =>
          change (previous :: segments ['\n']).IsChain Breaks
          rw [hEnd]
          exact List.isChain_pair.mpr fun _ => rfl
      | true =>
          change
            (previous :: segments (';' :: ['\n'])).IsChain
              Breaks
          rw [isChain_cons_iff _
            (hs.isBoundary_eq_false (Or.inl hValue)),
            segments_code (by simp) rfl, hEnd]
          exact List.isChain_pair.mpr fun _ => rfl
  | @openComment s blanks k hCode hBlanks hOpen hEnd =>
      rw [marks_blanks _ hBlanks,
        marks_comment_open hOpen hEnd, List.append_assoc,
        segments_blanks _ s.all_commentLead,
        segments_comment_open (prefix_trimEnd hOpen)
          (commentLength?_trimEnd hEnd),
        isChain_lead_iff _ s.all_commentLead rfl,
        List.isChain_pair]
      apply iff_of_true
      · refine ⟨?_, List.isChain_singleton _⟩
        intro hPrevious
        rw [commentLead,
          if_neg (hs.outside hPrevious).2.2]
        rfl
      · simp [Sticks]
  | @openString s blanks body mark hCode hBlanks hMark
      hEnd =>
      have hNone := stringLength?_trimEnd hEnd
      rw [trimEnd_mark_cons body hMark] at hNone
      have hLead := s.all_lead hBlanks
      rw [marks_blanks _ hBlanks,
        marks_string_open hMark hEnd, List.append_assoc,
        trimEnd_mark_cons body hMark,
        segments_blanks _ hLead,
        segments_string_open hMark hNone,
        isChain_lead_iff _ hLead rfl, List.isChain_pair]
      apply iff_of_true
      · refine ⟨?_, List.isChain_singleton _⟩
        intro hPrevious
        rw [hs.lead_eq hPrevious]
        · rfl
        · simp [(isBlank_and_ne_of_isMark hMark).1]
      · simp [Sticks]
  | @again s blanks rest out hBlanks hFinal hRest ih =>
      have hPrevious := hs.semicolon.mp hFinal
      subst hPrevious
      have hEnded := hReady.settled.ended hFinal
      have hBroken : Broken s (.code ';') rest :=
        ⟨hs.semicolon, hs.outside,
          fun _ _ => hEnded.2.2.2.2⟩
      have hMarks :
          marks (blanks ++ [';'] ++ rest) =
            .code ';' :: marks rest := by
        rw [List.append_assoc, marks_blanks _ hBlanks,
          List.singleton_append,
          marks_code rfl (by simp) rfl]
      rw [hMarks, List.isChain_cons_cons,
        ih ⟨hReady.settled, Or.inl hEnded.1⟩ hBroken]
      simp [Sticks]
  | @dash s rest out hDash hRest ih =>
      rcases hReady.afterDash hDash with
        ⟨_, hCore, hNext⟩
      have hSkip : s.skipping = false := by
        rcases hReady.context with hCode | ⟨_, hSkip, _⟩
        · rw [hDash] at hCode
          cases hCode
        · exact hSkip
      have hInside :=
        hs.isBoundary_eq_false (Or.inr hSkip)
      have hBroken :
          Broken s.afterDash (.code '-') rest := by
        refine ⟨?_, fun hEdge => ?_, fun hEdge => ?_⟩
        · rw [final?, hCore]
          simp
        · cases hEdge
        · cases hEdge
      rw [List.cons_append, segments_code (by simp) rfl,
        isChain_cons_iff _ hInside,
        marks_code rfl (by simp) rfl,
        List.isChain_cons_cons, ih hNext hBroken]
      simp [Sticks, hInside]
  | @move s t blanks k rest text out hCode hBlanks hMove
      hRest ih =>
      rcases hMove.exists_alone hCode hBlanks hRest with
        ⟨segment, hBlank, hAlone, hSource, hShown⟩
      have hMarks :
          marks (blanks ++ k ++ rest) =
            segment :: marks rest := by
        rw [List.append_assoc, marks_blanks _ hBlanks, marks,
          hSource, List.filter_cons_of_pos (by simp [hBlank])]
        rfl
      rw [List.append_assoc,
        hMove.isChain_iff hBlanks hs hAlone hShown hBlank,
        ih (hMove.ready hCode)
          (hMove.broken hCode hBlanks hAlone),
        hMarks, List.isChain_cons_cons]

end Scanner

end Stylesheet

end WebTidy

------------------------------------------------------------
-- Style Sheets
------------------------------------------------------------

namespace WebTidy

namespace Stylesheet

/-
  In a style sheet with a line feed at its end every brace
  and semicolon has a successor.
-/
theorem endsLines_iff_isChain
    {sheet : Text}
    (hLast : sheet.getLast? = some '\n') :
    EndsLines sheet ↔ (segments sheet).IsChain Breaks := by
  rw [List.isChain_iff_forall_rel_of_append_cons_cons]
  constructor
  · intro hEnds first second front back hCut hBoundary
    rcases exists_of_isBoundary hBoundary with ⟨c, rfl, hc⟩
    exact Option.some_inj.mp (hEnds front c _ hCut hc)
  · intro hChain front c back hCut hc
    cases back with
    | cons second more =>
        rw [hChain hCut hc]
        rfl
    | nil =>
        have hText : sheet.getLast? = some c := by
          rw [← segments_source sheet, hCut,
            List.flatMap_append]
          exact List.getLast?_concat
        rw [hLast] at hText
        cases hText
        cases hc

/-
  A layout ends its lines behind all braces and semicolons
  exactly if no mark of the style sheet sticks to one.
-/
theorem endsLines_iff
    (sheet : Text) :
    EndsLines (prettify sheet) ↔
      (marks sheet).IsChain
        (fun first second => ¬ Sticks first second) := by
  rcases exists_laid_prettify sheet with ⟨out, hLaid, hOut⟩
  -- in front of the text stands nothing that ends a line
  have hStart :
      Scanner.Broken {} (.comment [] true) sheet :=
    ⟨by simp [Scanner.final?, Scanner.core], nofun, nofun⟩
  have hChain :=
    hLaid.isChain_iff (Scanner.ready_new sheet) hStart
  have hBlanks :
      (out.takeWhile isBlank).all isBlank = true := by
    simp
  have hSegments :
      segments (out ++ ['\n']) =
        (out.takeWhile isBlank).map .code ++
          segments (prettify sheet) := by
    rw [hOut, ← segments_blanks _ hBlanks,
      ← List.append_assoc, List.takeWhile_append_dropWhile]
  have hLast : (prettify sheet).getLast? = some '\n' := by
    rw [hOut]
    exact List.getLast?_concat
  have hFree (part : List Segment) :
      (.comment [] true :: part).IsChain
          (fun first second => ¬ Sticks first second) ↔
        part.IsChain
          (fun first second => ¬ Sticks first second) := by
    rw [List.isChain_cons]
    exact and_iff_right fun _ _ hSticks =>
      Bool.false_ne_true hSticks.1
  have hQuiet :
      (Segment.comment [] true).isBoundary = false := rfl
  rw [endsLines_iff_isChain hLast,
    ← isChain_blanks_iff _ hBlanks, ← hSegments,
    ← isChain_cons_iff _ hQuiet, hChain, hFree]

/-
  In a style sheet where no semicolon, comma or open brace
  follows a brace or semicolon, the layout ends the line
  behind every brace and semicolon exactly if no colon
  follows one either.
-/
theorem endsLines_prettify_iff
    {sheet : Text}
    (hApart : NoneBehind [';', ',', '{'] sheet) :
    EndsLines (prettify sheet) ↔
      NoneBehind [':'] sheet := by
  rw [endsLines_iff]
  unfold NoneBehind at hApart ⊢
  rw [List.isChain_iff_forall_rel_of_append_cons_cons]
    at hApart ⊢
  rw [List.isChain_iff_forall_rel_of_append_cons_cons]
  constructor
  · intro hLoose first second front back hCut hFirst c hc
    rw [List.mem_singleton.mp hc]
    intro hColon
    exact hLoose hCut ⟨hFirst, Or.inl hColon⟩
  · rintro hFree first second front back hCut
      ⟨hFirst, hSecond⟩
    have hNone := hApart hCut hFirst
    rcases hSecond with hColon | hComma | hBrace | hEnd
    · exact hFree hCut hFirst ':' (by simp) hColon
    · exact hNone ',' (by simp) hComma
    · exact hNone '{' (by simp) hBrace
    · exact hNone ';' (by simp) hEnd.1

/- A nested rule behind a declaration and a comment. -/
def commentedNest :
    Text :=
  "a\x7bb:c;/**/:hover\x7bd:';'\x7d\x7d".toList

/- Behind the comment the colon is in nobody's way. -/
theorem endsLines_commentedNest :
    NoneBehind [';', ',', '{'] commentedNest ∧
    NoneBehind [':'] commentedNest ∧
    EndsLines (prettify commentedNest) := by
  have hApart : NoneBehind [';', ',', '{'] commentedNest := by
    decide +kernel
  have hFree : NoneBehind [':'] commentedNest := by
    decide +kernel
  exact ⟨hApart, hFree,
    (endsLines_prettify_iff hApart).mpr hFree⟩

/- A nested rule that begins with a pseudo class. -/
def pseudoClass :
    Text :=
  "a\x7bb:c;:hover\x7bd:e\x7d\x7d".toList

/-
  A colon does take the line feed behind a semicolon back:
  the nested rule begins on the line of the declaration
  before it.
-/
theorem not_endsLines_pseudoClass :
    ¬ ∀ sheet,
      NoneBehind [';', ',', '{'] sheet →
      EndsLines (prettify sheet) := by
  intro hEnds
  have hLayout :
      segments (prettify pseudoClass) =
        "a \x7b\n\tb: c".toList.map .code ++ .code ';' ::
          ":hover \x7b\n\t\td: e;\n\t\x7d\n\x7d\n".toList.map
            .code := by
    decide +kernel
  have hApart : NoneBehind [';', ',', '{'] pseudoClass := by
    decide +kernel
  cases hEnds _ hApart _ _ _ hLayout rfl

end Stylesheet

end WebTidy
