import WebTidy.Proofs.Stylesheet.Lines

/-
  Passages through the first segments of a style sheet.

  A style sheet is cut between two of its segments.  The
  scanner reads the first part move by move and arrives at
  the cut as a scanner that can lay out the second part.
  What it writes for the first part says what the first
  part says, so every place of a style sheet has its place
  in the layout.

  Key definitions include:
    * `WebTidy.Stylesheet.said`
    * `WebTidy.Stylesheet.Scanner.Passed`
    * `WebTidy.Stylesheet.Counterpart`

  Key theorems include:
    * `WebTidy.Stylesheet.exists_of_segments`
    * `WebTidy.Stylesheet.Scanner.Move.through_eq`
    * `WebTidy.Stylesheet.Scanner.exists_passed`
    * `WebTidy.Stylesheet.Scanner.Passed.reaches`
    * `WebTidy.Stylesheet.Scanner.Passed.exists_shown`
    * `WebTidy.Stylesheet.Scanner.Passed.exists_counterpart`
-/

------------------------------------------------------------
-- What Segments Say
------------------------------------------------------------

namespace WebTidy

namespace Stylesheet

/-
  What a part of a style sheet says: its segments but blanks
  and semicolons, as in its contents.
-/
def said
    (part : List Segment) :
    List Segment :=
  ((part.filter (!·.isBlank)).filter (· ≠ .code ';')).map
    Segment.trimmed

/- Two parts say what each of them says. -/
@[simp] theorem said_append
    (front back : List Segment) :
    said (front ++ back) = said front ++ said back := by
  simp [said]

/- A blank says nothing. -/
theorem said_blank
    {c : Char}
    (part : List Segment)
    (h : isBlank c = true) :
    said (.code c :: part) = said part := by
  simp [said, Segment.isBlank, h]

/- Neither do several. -/
theorem said_blanks
    {blanks : Text}
    (h : blanks.all isBlank = true) :
    said (blanks.map .code) = [] := by
  induction blanks with
  | nil => rfl
  | cons c more ih =>
      simp only [List.all_cons, Bool.and_eq_true] at h
      rw [List.map_cons, said_blank _ h.1, ih h.2]

/- Neither does a semicolon. -/
@[simp] theorem said_semicolon
    (part : List Segment) :
    said (.code ';' :: part) = said part := by
  simp [said, Segment.isBlank, isBlank]

/- Every other segment speaks for itself. -/
theorem said_cons
    {segment : Segment}
    (part : List Segment)
    (hBlank : segment.isBlank = false)
    (hSemicolon : segment ≠ .code ';') :
    said (segment :: part) =
      segment.trimmed :: said part := by
  simp [said, hBlank, hSemicolon]

/- The first segment stands at the start of the text. -/
theorem exists_of_segments_cons
    {source : Text}
    {segment : Segment}
    {more : List Segment}
    (h : segments source = segment :: more) :
    ∃ rest,
      source = segment.source ++ rest ∧
      segments rest = more := by
  have hRest (rest : Text) (hMore : segments rest = more) :
      ∃ rest,
        source = segment.source ++ rest ∧
        segments rest = more := by
    refine ⟨rest, ?_, hMore⟩
    calc
      source = (segments source).flatMap Segment.source :=
        (segments_source source).symm
      _ = segment.source ++ more.flatMap Segment.source := by
        rw [h, List.flatMap_cons]
      _ = segment.source ++ rest := by
        rw [← hMore, segments_source]
  cases source with
  | nil =>
      rw [segments] at h
      cases h
  | cons c tail =>
      rcases segments_cases c tail with
        ⟨_, others, _, _, _, _, hFirst⟩ | ⟨_, _, hFirst⟩ |
          ⟨_, _, hFirst⟩
      · rw [hFirst] at h
        exact hRest others (List.cons.inj h).2
      · rw [hFirst] at h
        refine hRest [] ?_
        rw [segments]
        exact (List.cons.inj h).2
      · rw [hFirst] at h
        exact hRest tail (List.cons.inj h).2

/- A style sheet can be cut between two segments. -/
theorem exists_of_segments
    {source : Text}
    {front back : List Segment}
    (h : segments source = front ++ back) :
    ∃ rest,
      source = front.flatMap Segment.source ++ rest ∧
      segments rest = back := by
  induction front generalizing source with
  | nil => exact ⟨source, rfl, h⟩
  | cons segment more ih =>
      rcases exists_of_segments_cons h with
        ⟨tail, rfl, hTail⟩
      rcases ih hTail with ⟨rest, rfl, hRest⟩
      refine ⟨rest, ?_, hRest⟩
      rw [List.flatMap_cons, List.append_assoc]

/- The text in front of a cut. -/
theorem source_eq_of_segments
    {out rest : Text}
    {shown : List Segment}
    (h : segments (out ++ rest) = shown ++ segments rest) :
    out = shown.flatMap Segment.source := by
  have hText :=
    congrArg (List.flatMap Segment.source) h
  rw [segments_source, List.flatMap_append,
    segments_source] at hText
  exact List.append_cancel_right hText

end Stylesheet

end WebTidy

------------------------------------------------------------
-- Reading Up To A Place
------------------------------------------------------------

namespace WebTidy

namespace Stylesheet

namespace Scanner

/- Reading blanks of code in front of a text. -/
theorem through_blanks
    {s : Scanner}
    (hs : Settled s)
    (hCode : s.context = .code)
    {blanks : Text}
    (hBlanks : blanks.all isBlank = true)
    (rest : Text) :
    s.through blanks rest = s.pass blanks := by
  have hFrom :
      ∀ seen,
        (s.pass seen).through blanks rest =
          s.pass (seen ++ blanks) := by
    induction blanks with
    | nil => simp [through]
    | cons c more ih =>
        intro seen
        simp only [List.all_cons, Bool.and_eq_true]
          at hBlanks
        rw [through, step_pass hs hCode _ _ hBlanks.1,
          ih hBlanks.2]
        simp
  have hStart := hFrom []
  rw [pass_nil hs, List.nil_append] at hStart
  exact hStart

/- Reading a character but a blank behind blanks of code. -/
theorem through_char
    {s t : Scanner}
    {blanks rest : Text}
    {c : Char}
    (hs : Settled s)
    (hCode : s.context = .code)
    (hBlanks : blanks.all isBlank = true)
    (hc : isBlank c = false)
    (ht :
      { (s.pass blanks).readCode c rest with
        before := some c } = t) :
    s.through (blanks ++ [c]) rest = t := by
  have hPass : (s.pass blanks).context = .code := hCode
  rw [through_append, through_blanks hs hCode hBlanks,
    through, through, step, read, hPass, ← ht]
  simp [hc]

/- Reading the segment of a move in front of a text. -/
theorem Move.through_eq
    {s t : Scanner}
    {blanks rest k text : Text}
    (hs : Settled s)
    (hCode : s.context = .code)
    (hBlanks : blanks.all isBlank = true)
    (h : Move s blanks rest k text t) :
    s.through (blanks ++ k) rest = t := by
  rcases h.segment_cases with
    ⟨c, rfl, hBlank⟩ | ⟨hComment, rfl⟩ | ⟨hString, rfl⟩
  · exact through_char hs hCode hBlanks hBlank
      (h.readCode_eq hs hBlanks)
  · rcases exists_of_commentLength? hComment with
      ⟨body, _, rfl, _, _⟩
    have hOpen :=
      through_char hs hCode hBlanks rfl
        (readCode_slash s hBlanks (body ++ rest))
    rw [← List.singleton_append, ← List.append_assoc,
      through_append, List.cons_append, hOpen,
      through_isComment rfl hComment, copied_lay]
    simp [lay, hCode]
  · rcases exists_of_stringLength? hString with
      ⟨mark, body, _, rfl, hMark, _, _⟩
    have hOpen :=
      through_char hs hCode hBlanks
        (isBlank_and_ne_of_isMark hMark).1
        (readCode_mark s blanks hMark (body ++ rest))
    rw [← List.singleton_append, ← List.append_assoc,
      through_append, hOpen,
      through_isString rfl hString, copied_lay]
    simp [lay, hCode]

end Scanner

end Stylesheet

end WebTidy

------------------------------------------------------------
-- Passages
------------------------------------------------------------

namespace WebTidy

namespace Stylesheet

namespace Scanner

/-
  A scanner that reads a text in front of another, move by
  move.  The indices are the scanner, the text, what is
  written for it behind the final part, and the scanner at
  its end.
-/
inductive Passed
    (back : Text) :
    Scanner → Text → Text → Scanner → Prop
| done
    {s : Scanner} :
    Passed back s [] [] s
| again
    {s t : Scanner}
    {blanks rest out : Text}
    (hBlanks : blanks.all isBlank = true)
    (hFinal : s.final? = some ';')
    (hRest : Passed back s rest out t) :
    Passed back s (blanks ++ [';'] ++ rest) out t
| dash
    {s t : Scanner}
    {rest out : Text}
    (hDash : s.context = .dash)
    (hRest : Passed back s.afterDash rest out t) :
    Passed back s ('-' :: rest) ('-' :: out) t
| move
    {s t u : Scanner}
    {blanks k rest text out : Text}
    (hCode : s.context = .code)
    (hBlanks : blanks.all isBlank = true)
    (hMove : Move s blanks (rest ++ back) k text t)
    (hRest : Passed back t rest out u) :
    Passed back s (blanks ++ k ++ rest) (text ++ out) u

/-
  The scanner at the end of a passage is the one that has
  read the text, and it can lay out what follows.
-/
theorem Passed.reaches
    {s t : Scanner}
    {front back out : Text}
    (h : Passed back s front out t)
    (hs : Ready s (front ++ back)) :
    s.through front back = t ∧
    t.core = out.reverse ++ s.core ∧
    Ready t back := by
  induction h with
  | done => exact ⟨rfl, rfl, hs⟩
  | @again s t blanks rest out hBlanks hFinal hRest ih =>
      have hCode := (hs.settled.ended hFinal).1
      have hThrough :
          s.through (blanks ++ [';']) (rest ++ back) = s :=
        through_char hs.settled hCode hBlanks rfl
          (readCode_again hs.settled hBlanks hFinal _)
      rw [through_append, hThrough]
      exact ih ⟨hs.settled, Or.inl hCode⟩
  | @dash s t rest out hDash hRest ih =>
      rw [List.cons_append] at hs
      rcases hs.afterDash hDash with ⟨_, hCore, hReady⟩
      rcases ih hReady with ⟨hThrough, hFinal, hLast⟩
      refine ⟨?_, ?_, hLast⟩
      · rw [through, hs.step_dash hDash, hThrough]
      · rw [hFinal, hCore]
        simp
  | @move s t u blanks k rest text out hCode hBlanks hMove
      hRest ih =>
      rcases ih (hMove.ready hCode) with
        ⟨hThrough, hFinal, hLast⟩
      refine ⟨?_, ?_, hLast⟩
      · rw [through_append,
          hMove.through_eq hs.settled hCode hBlanks,
          hThrough]
      · rw [hFinal, (hMove.core_eq_and_settled hCode).1]
        simp

/- Two passages in a row are a passage. -/
theorem Passed.append
    {s t u : Scanner}
    {front more back out later : Text}
    (h : Passed (more ++ back) s front out t)
    (hMore : Passed back t more later u) :
    Passed back s (front ++ more) (out ++ later) u := by
  induction h with
  | done => exact hMore
  | again hBlanks hFinal hRest ih =>
      rw [List.append_assoc]
      exact .again hBlanks hFinal (ih hMore)
  | dash hDash hRest ih => exact .dash hDash (ih hMore)
  | move hCode hBlanks hMove hRest ih =>
      rw [← List.append_assoc] at hMove
      have hPassed :=
        Passed.move hCode hBlanks hMove (ih hMore)
      rw [← List.append_assoc, ← List.append_assoc]
        at hPassed
      exact hPassed

/- The layout goes on behind a passage. -/
theorem Passed.laid
    {s t : Scanner}
    {front back out later : Text}
    (h : Passed back s front out t)
    (hLater : Laid t back later) :
    Laid s (front ++ back) (out ++ later) := by
  induction h with
  | done => exact hLater
  | again hBlanks hFinal hRest ih =>
      rw [List.append_assoc]
      exact .again hBlanks hFinal (ih hLater)
  | dash hDash hRest ih => exact .dash hDash (ih hLater)
  | move hCode hBlanks hMove hRest ih =>
      have hLaid :=
        Laid.move hCode hBlanks hMove (ih hLater)
      rw [← List.append_assoc, ← List.append_assoc] at hLaid
      exact hLaid

/- The final part ends as the text ends. -/
theorem Passed.final?_eq
    {s t : Scanner}
    {front back out : Text}
    (h : Passed back s front out t)
    (hs : Ready s (front ++ back)) :
    t.final? = front.getLast?.or s.final? := by
  induction h with
  | done => rfl
  | @again s t blanks rest out hBlanks hFinal hRest ih =>
      have hCode := (hs.settled.ended hFinal).1
      rw [ih ⟨hs.settled, Or.inl hCode⟩, hFinal,
        List.getLast?_append, List.getLast?_concat]
      cases rest.getLast? <;> rfl
  | @dash s t rest out hDash hRest ih =>
      rcases Ready.afterDash hDash hs with
        ⟨_, hCore, hReady⟩
      rw [ih hReady, final?, hCore, List.getLast?_cons]
      cases rest.getLast? <;> rfl
  | @move s t u blanks k rest text out hCode hBlanks hMove
      hRest ih =>
      rw [ih (hMove.ready hCode),
        hMove.final?_eq hCode hBlanks]
      rcases hMove.exists_last with ⟨init, c, rfl, _, _⟩
      rw [← List.append_assoc, List.getLast?_concat,
        List.getLast?_append, List.getLast?_concat]
      cases rest.getLast? <;> rfl

end Scanner

end Stylesheet

end WebTidy

------------------------------------------------------------
-- Every Cut Has A Passage
------------------------------------------------------------

namespace WebTidy

namespace Stylesheet

namespace Scanner

/-
  A segment but a blank, with more segments behind it, is
  the first step of a passage.
-/
theorem exists_passed_cons
    {s : Scanner}
    {blanks source : Text}
    {segment : Segment}
    {more : List Segment}
    (hs : Ready s (blanks ++ source))
    (hBlanks : blanks.all isBlank = true)
    (hSegments : segments source = segment :: more)
    (hBlank : segment.isBlank = false)
    (hMore : more ≠ []) :
    ∃ k tail text t,
      source = k ++ tail ∧ segments tail = more ∧
      Ready t tail ∧
      ∀ back rest out u,
        tail = rest ++ back → Passed back t rest out u →
        Passed back s (blanks ++ k ++ rest) (text ++ out)
          u := by
  have hAlone (other : Segment) :
      segments source ≠ [other] := by
    intro hOther
    rw [hSegments] at hOther
    exact hMore (List.cons.inj hOther).2
  have hTail {tail : Text} {other : Segment}
      (hFirst : segments source = other :: segments tail) :
      segments tail = more := by
    rw [hSegments] at hFirst
    exact (List.cons.inj hFirst).2.symm
  rcases hs.context with hCode | ⟨hDash, _, hHead⟩
  · cases source with
    | nil =>
        rw [segments] at hSegments
        cases hSegments
    | cons c rest =>
        have hc : isBlank c = false := by
          cases hc : isBlank c with
          | false => rfl
          | true =>
              have hFirst : [c].all isBlank = true := by
                simp [hc]
              have hSame :=
                hSegments.symm.trans
                  (segments_blanks rest hFirst)
              rw [(List.cons.inj hSame).1] at hBlank
              exact hc.symm.trans hBlank
        by_cases hAgain : c = ';' ∧ s.final? = some ';'
        · rcases hAgain with ⟨rfl, hFinal⟩
          refine ⟨[';'], rest, [], s, rfl, ?_,
            ⟨hs.settled, Or.inl hCode⟩, ?_⟩
          · exact hTail (segments_code (by simp) rfl)
          · intro back more out u _ hPassed
            exact .again hBlanks hFinal hPassed
        rcases exists_move s blanks hc hAgain
            (fun hOpen hEnd => hAlone _
              (segments_comment_open hOpen hEnd))
            (fun hMark hEnd => hAlone _
              (segments_string_open hMark hEnd)) with
          ⟨k, tail, text, t, hText, _, hMove⟩
        rcases hMove.exists_segment with
          ⟨other, _, _, hParts⟩
        refine ⟨k, tail, text, t, hText, ?_,
          hMove.ready hCode, ?_⟩
        · apply hTail
          rw [hText]
          exact hParts tail fun _ hStar => hStar
        · rintro back more out u rfl hPassed
          exact .move hCode hBlanks hMove hPassed
  · have hNone := eq_nil_of_head? hBlanks hHead rfl
    subst hNone
    rcases List.head?_eq_some_iff.mp hHead with ⟨rest, rfl⟩
    refine ⟨['-'], rest, ['-'], s.afterDash, rfl, ?_,
      (hs.afterDash hDash).2.2, ?_⟩
    · exact hTail (segments_code (by simp) rfl)
    · intro back more out u _ hPassed
      exact .dash hDash hPassed

/-
  A passage behind blanks that are still to be read.  Blanks
  in front of the cut are left over at its end.
-/
theorem exists_passed_behind
    {s : Scanner}
    {blanks source : Text}
    {front back : List Segment}
    (hs : Ready s (blanks ++ source))
    (hBlanks : blanks.all isBlank = true)
    (hSegments : segments source = front ++ back)
    (hBack : back ≠ []) :
    ∃ passed between rest out t,
      blanks ++ source = passed ++ (between ++ rest) ∧
      List.all between isBlank = true ∧
      segments rest = back ∧
      Passed (between ++ rest) s passed out t := by
  induction front generalizing s blanks source with
  | nil =>
      exact ⟨[], blanks, source, [], s, rfl, hBlanks,
        hSegments, .done⟩
  | cons segment more ih =>
      -- a blank joins the blanks, any other segment is read
      cases hBlank : segment.isBlank with
      | true =>
          rcases exists_of_segments_cons hSegments with
            ⟨tail, rfl, hTail⟩
          have hWider :
              (blanks ++ segment.source).all isBlank =
                true := by
            rw [List.all_append, hBlanks, Bool.true_and]
            cases segment with
            | code c =>
                rw [Segment.source, List.all_cons,
                  List.all_nil, Bool.and_true]
                exact hBlank
            | comment | quoted => cases hBlank
          rw [← List.append_assoc] at hs ⊢
          exact ih hs hWider hTail
      | false =>
          rcases exists_passed_cons hs hBlanks hSegments
              hBlank (by simp [hBack]) with
            ⟨k, tail, text, t, rfl, hTail, hReady, hPassed⟩
          have hStart : Ready t ([] ++ tail) := hReady
          rcases ih hStart rfl hTail with
            ⟨passed, between, rest, out, u, hText, hBetween,
              hRest, hMore⟩
          refine ⟨blanks ++ k ++ passed, between, rest,
            text ++ out, u, ?_, hBetween, hRest,
            hPassed _ _ _ _ hText hMore⟩
          rw [List.nil_append] at hText
          rw [hText, List.append_assoc, List.append_assoc]

/- Every cut between two segments has a passage to it. -/
theorem exists_passed
    {s : Scanner}
    {source : Text}
    {front back : List Segment}
    (hs : Ready s source)
    (hSegments : segments source = front ++ back)
    (hBack : back ≠ []) :
    ∃ passed between rest out t,
      source = passed ++ (between ++ rest) ∧
      List.all between isBlank = true ∧
      passed ++ between = front.flatMap Segment.source ∧
      segments rest = back ∧
      Passed (between ++ rest) s passed out t := by
  have hStart : Ready s ([] ++ source) := hs
  rcases exists_passed_behind hStart rfl hSegments hBack with
    ⟨passed, between, rest, out, t, hText, hBetween, hRest,
      hPassed⟩
  rw [List.nil_append] at hText
  refine ⟨passed, between, rest, out, t, hText, hBetween, ?_,
    hRest, hPassed⟩
  have hCut :
      segments ((passed ++ between) ++ rest) =
        front ++ segments rest := by
    rw [List.append_assoc, ← hText, hSegments, hRest]
  exact source_eq_of_segments hCut

end Scanner

end Stylesheet

end WebTidy

------------------------------------------------------------
-- What A Passage Shows
------------------------------------------------------------

namespace WebTidy

namespace Stylesheet

namespace Scanner

/- The text of a move says what the move reads. -/
theorem Move.exists_shown
    {s t : Scanner}
    {blanks rest k text later : Text}
    (hCode : s.context = .code)
    (hBlanks : blanks.all isBlank = true)
    (h : Move s blanks rest k text t)
    (hLater : Laid t rest later) :
    ∃ read shown,
      segments (blanks ++ k ++ rest) =
        read ++ segments rest ∧
      segments (text ++ (later ++ ['\n'])) =
        shown ++ segments (later ++ ['\n']) ∧
      said shown = said read := by
  rcases h.exists_segment with ⟨segment, _, _, hSegments⟩
  have hSource := hSegments rest fun _ hStar => hStar
  have hShown :
      segments (k ++ (later ++ ['\n'])) =
        segment :: segments (later ++ ['\n']) := by
    apply hSegments
    intro hSlash hStar
    exact hLater.head?_source (h.ready hCode)
      ((h.final?_eq hCode hBlanks).trans hSlash) rfl hStar
      rfl
  have hRead :
      segments (blanks ++ k ++ rest) =
        (blanks.map .code ++ [segment]) ++ segments rest := by
    rw [List.append_assoc, segments_blanks _ hBlanks, hSource,
      List.append_assoc]
    rfl
  have hBehind (front : Text)
      (hFront : front.all isBlank = true) :
      segments (front ++ (k ++ (later ++ ['\n']))) =
        (front.map .code ++ [segment]) ++
          segments (later ++ ['\n']) := by
    rw [segments_blanks _ hFront, hShown, List.append_assoc]
    rfl
  rcases h.text_eq hBlanks with
    ⟨front, hFront, rfl⟩ | ⟨_, rfl, rfl⟩
  · refine ⟨_, front.map .code ++ [segment], hRead, ?_, ?_⟩
    · rw [List.append_assoc]
      exact hBehind front hFront
    · rw [said_append, said_append, said_blanks hFront,
        said_blanks hBlanks]
  · obtain ⟨front, hFront, hClosing⟩ :
        ∃ front : Text,
          front.all isBlank = true ∧
          s.closing = front ++ ['}'] := by
      refine ⟨_, ?_, rfl⟩
      simp [isBlank]
    refine ⟨_, .code ';' :: (front.map .code ++ [segment]),
      hRead, ?_, ?_⟩
    · rw [List.cons_append, segments_code (by simp) rfl,
        hClosing, List.append_assoc, hBehind front hFront]
      rfl
    · rw [said_semicolon, said_append, said_append,
        said_blanks hFront, said_blanks hBlanks]

/-
  What is written on a passage says what is read on it, and
  what is written later begins with a segment of its own.
-/
theorem Passed.exists_shown
    {s t : Scanner}
    {front back out later : Text}
    (h : Passed back s front out t)
    (hs : Ready s (front ++ back))
    (hLater : Laid t back later) :
    ∃ read shown,
      segments (front ++ back) = read ++ segments back ∧
      segments (out ++ (later ++ ['\n'])) =
        shown ++ segments (later ++ ['\n']) ∧
      said shown = said read := by
  induction h with
  | done => exact ⟨[], [], rfl, rfl, rfl⟩
  | @again s t blanks rest out hBlanks hFinal hRest ih =>
      have hCode := (hs.settled.ended hFinal).1
      rcases ih ⟨hs.settled, Or.inl hCode⟩ hLater with
        ⟨read, shown, hRead, hShown, hSaid⟩
      refine ⟨blanks.map .code ++ .code ';' :: read, shown,
        ?_, hShown, ?_⟩
      · rw [List.append_assoc, List.append_assoc,
          segments_blanks _ hBlanks, List.singleton_append,
          segments_code (by simp) rfl, hRead]
        simp
      · rw [said_append, said_blanks hBlanks, said_semicolon,
          hSaid]
        rfl
  | @dash s t rest out hDash hRest ih =>
      have hReady := (Ready.afterDash hDash hs).2.2
      rcases ih hReady hLater with
        ⟨read, shown, hRead, hShown, hSaid⟩
      refine ⟨.code '-' :: read, .code '-' :: shown, ?_, ?_,
        ?_⟩
      · rw [List.cons_append, segments_code (by simp) rfl,
          hRead]
        rfl
      · rw [List.cons_append, segments_code (by simp) rfl,
          hShown]
        rfl
      · rw [said_cons _ rfl (by simp),
          said_cons _ rfl (by simp), hSaid]
  | @move s t u blanks k rest text out hCode hBlanks hMove
      hRest ih =>
      rcases ih (hMove.ready hCode) hLater with
        ⟨read, shown, hRead, hShown, hSaid⟩
      rcases hMove.exists_shown hCode hBlanks
          (hRest.laid hLater) with
        ⟨first, front, hFirst, hFront, hSame⟩
      refine ⟨first ++ read, front ++ shown, ?_, ?_, ?_⟩
      · rw [List.append_assoc _ rest, hFirst, hRead,
          List.append_assoc]
      · rw [List.append_assoc] at hFront
        rw [List.append_assoc, hFront, hShown,
          List.append_assoc]
      · rw [said_append, said_append, hSame, hSaid]

end Scanner

end Stylesheet

end WebTidy

------------------------------------------------------------
-- Places In The Layout
------------------------------------------------------------

namespace WebTidy

namespace Stylesheet

/-
  A cut of the layout at the place of a cut of the style
  sheet: both sides say what the sides of the style sheet
  say.
-/
structure Counterpart
    (sheet : Text)
    (front back before after : List Segment) :
    Prop where
  segments_eq : segments (prettify sheet) = before ++ after
  said_before : said before = said front
  said_after : said after = said back

/- Blanks at the start of a layout stand for nothing. -/
theorem exists_of_dropWhile
    {out rest : Text}
    {shown : List Segment}
    (h : segments (out ++ rest) = shown ++ segments rest) :
    ∃ kept,
      segments (out.dropWhile isBlank ++ rest) =
        kept ++ segments rest ∧
      said kept = said shown := by
  induction out generalizing shown with
  | nil => exact ⟨shown, h, rfl⟩
  | cons c more ih =>
      cases hc : isBlank c with
      | false =>
          refine ⟨shown, ?_, rfl⟩
          rw [List.dropWhile_cons_of_neg (by simp [hc]), h]
      | true =>
          have hBlanks : [c].all isBlank = true := by
            simp [hc]
          have hSource := source_eq_of_segments h
          cases shown with
          | nil => cases hSource
          | cons first others =>
              have hFirst :=
                segments_blanks (more ++ rest) hBlanks
              rw [List.singleton_append, ← List.cons_append, h]
                at hFirst
              injection hFirst with hCode hMore
              rcases ih hMore.symm with ⟨kept, hKept, hSaid⟩
              refine ⟨kept, ?_, ?_⟩
              · rw [List.dropWhile_cons_of_pos hc, hKept]
              · rw [hSaid, hCode, said_blank _ hc]

namespace Scanner

/- What is written on a passage ends with no blank. -/
theorem Passed.isBlank_of_getLast?
    {t : Scanner}
    {front back out : Text}
    {c : Char}
    (h : Passed back {} front out t)
    (hLast : out.getLast? = some c) :
    isBlank c = false := by
  have hCore : t.core = out.reverse ++ [] :=
    (h.reaches (ready_new _)).2.1
  apply isBlank_of_final? (s := t)
  rw [final?, hCore, List.append_nil, List.head?_reverse,
    hLast]

/- The layout of a style sheet behind a passage. -/
theorem Passed.prettify_eq
    {t : Scanner}
    {front back out later : Text}
    (h : Passed back {} front out t)
    (hLater : Laid t back later)
    (hStart :
      out = [] → later.head?.all (!isBlank ·) = true) :
    prettify (front ++ back) =
      out.dropWhile isBlank ++ (later ++ ['\n']) := by
  have hOut : prettify (front ++ back) =
      (out ++ later).dropWhile isBlank ++ ['\n'] :=
    (h.laid hLater).result_eq (ready_new _)
  rw [hOut, ← List.append_assoc, List.append_cancel_right_eq,
    List.dropWhile_append]
  split
  · rename_i hEmpty
    have hBlanks : out.dropWhile isBlank = [] :=
      List.isEmpty_iff.mp hEmpty
    have hNil : out = [] := by
      cases hLast : out.getLast? with
      | none => exact List.getLast?_eq_none_iff.mp hLast
      | some c =>
          have hBlank :=
            List.dropWhile_eq_nil_iff.mp hBlanks c
              (List.mem_of_getLast? hLast)
          rw [h.isBlank_of_getLast? hLast] at hBlank
          cases hBlank
    rw [hBlanks, List.nil_append]
    cases later with
    | nil => rfl
    | cons c more =>
        rw [List.dropWhile_cons_of_neg]
        simpa using hStart hNil
  · rfl

/-
  A passage leads to a place in the layout.  Blanks at the
  cut may stand on either side.
-/
theorem Passed.exists_counterpart
    {t : Scanner}
    {sheet passed between rest out later : Text}
    {front back : List Segment}
    (hSegments : segments sheet = front ++ back)
    (hSheet : sheet = passed ++ (between ++ rest))
    (hBetween : between.all isBlank = true)
    (hRest : segments rest = back)
    (h : Passed (between ++ rest) {} passed out t)
    (hLater : Laid t (between ++ rest) later)
    (hStart :
      out = [] → later.head?.all (!isBlank ·) = true) :
    ∃ before,
      Counterpart sheet front back before
        (segments (later ++ ['\n'])) ∧
      before.getLast?.all (!·.isBlank) = true := by
  rcases h.exists_shown (ready_new _) hLater with
    ⟨read, shown, hRead, hShown, hSaid⟩
  rcases exists_of_dropWhile hShown with
    ⟨before, hBefore, hKept⟩
  have hBlanks := segments_blanks rest hBetween
  have hFront : front = read ++ between.map .code := by
    rw [← hSheet, hSegments, hBlanks, hRest,
      ← List.append_assoc] at hRead
    exact List.append_cancel_right hRead
  refine ⟨before, ⟨?_, ?_, ?_⟩, ?_⟩
  · rw [hSheet, h.prettify_eq hLater hStart, hBefore]
  · rw [hKept, hSaid, hFront, said_append,
      said_blanks hBetween, List.append_nil]
  · have hReady := (h.reaches (ready_new _)).2.2
    have hRelaid :
        Relaid (some (.code ';')) (marks (between ++ rest))
          (marks (later ++ ['\n'])) :=
      hLater.relaid hReady fun _ => rfl
    have hContents :
        said (segments (later ++ ['\n'])) =
          said (segments (between ++ rest)) :=
      hRelaid.contents_eq.symm
    rw [hContents, hBlanks, said_append,
      said_blanks hBetween, hRest, List.nil_append]
  · cases hLast : before.getLast? with
    | none => rfl
    | some segment =>
        rw [Option.all_some, Bool.not_eq_true']
        cases segment with
        | comment | quoted => rfl
        | code c =>
            rcases List.getLast?_eq_some_iff.mp hLast with
              ⟨init, rfl⟩
            have hSource := source_eq_of_segments hBefore
            apply h.isBlank_of_getLast?
            rw [← List.takeWhile_append_dropWhile (p := isBlank)
              (l := out), hSource, List.flatMap_append,
              ← List.append_assoc]
            exact List.getLast?_concat

end Scanner

end Stylesheet

end WebTidy
