import WebTidy.Proofs.Stylesheet.Idempotence
import WebTidy.Proofs.Stylesheet.Preservation

/-
  The indentation of laid out style sheets.

  A line that begins in code has one tab for every brace
  that is open at its start, where a close brace at the
  start of the line counts already.  Behind the tabs stands
  a character that is no blank, so no line of code is blank.

  The scanner writes a line feed of code in front of a
  segment or at the very end.  In front of a segment it
  writes the tabs of the next line at once.

  Key definitions include:
    * `WebTidy.Stylesheet.braceDepth`
    * `WebTidy.Stylesheet.LineStart`
    * `WebTidy.Stylesheet.IsIndented`
    * `WebTidy.Stylesheet.Indented`
    * `WebTidy.Stylesheet.LineLead`

  Key theorems include:
    * `WebTidy.Stylesheet.LineLead.indented`
    * `WebTidy.Stylesheet.Scanner.Move.exists_lineLead`
    * `WebTidy.Stylesheet.Scanner.Laid.indented`
    * `WebTidy.Stylesheet.indented_prettify`
-/

------------------------------------------------------------
-- Lines And Their Depth
------------------------------------------------------------

namespace WebTidy

namespace Stylesheet

/- The number of open braces behind a segment. -/
def Segment.nested
    (depth : Nat) :
    Segment → Nat
| .code c =>
    if c = '{' then depth + 1
    else if c = '}' then depth - 1
    else depth
| .comment _ _ => depth
| .quoted _ _ => depth

/-
  The number of open braces behind a part of a style sheet.
  A close brace that closes nothing is not counted.
-/
def braceDepth
    (depth : Nat)
    (part : List Segment) :
    Nat :=
  part.foldl Segment.nested depth

/-
  A place where a line begins in code: the start of the
  style sheet, or behind a line feed of code.  The empty
  piece behind the last line feed is no line.
-/
structure LineStart
    (sheet : Text)
    (front back : List Segment) :
    Prop where
  segments_eq : segments sheet = front ++ back
  start : front.getLast?.all (· = .code '\n') = true
  line : back ≠ []

/-
  The tabs of a line by the first character behind them.  A
  close brace stands one level further out.
-/
def indentation
    (depth : Nat)
    (c : Char) :
    Nat :=
  if c = '}' then depth - 1 else depth

/- A text that begins with an indented line. -/
def IsIndented
    (depth : Nat)
    (line : Text) :
    Prop :=
  ∃ c rest,
    line =
      List.replicate (indentation depth c) '\t' ++
        c :: rest ∧
    isBlank c = false

/-
  A part of a style sheet in which every line is indented
  that begins behind a line feed of the part.
-/
def Indented
    (depth : Nat)
    (part : List Segment) :
    Prop :=
  ∀ front back,
    part = front ++ .code '\n' :: back → back ≠ [] →
    IsIndented (braceDepth depth front)
      (back.flatMap Segment.source)

end Stylesheet

end WebTidy

------------------------------------------------------------
-- Joining Indented Parts
------------------------------------------------------------

namespace WebTidy

namespace Stylesheet

/- The depth behind two parts. -/
@[simp] theorem braceDepth_append
    (depth : Nat)
    (front back : List Segment) :
    braceDepth depth (front ++ back) =
      braceDepth (braceDepth depth front) back := by
  exact List.foldl_append

/- Only braces change the depth. -/
theorem braceDepth_codes
    (depth : Nat)
    {t : Text}
    (h : ∀ c ∈ t, c ≠ '{' ∧ c ≠ '}') :
    braceDepth depth (t.map .code) = depth := by
  induction t with
  | nil => rfl
  | cons c more ih =>
      have hc := h c List.mem_cons_self
      have hFirst :
          Segment.nested depth (.code c) = depth := by
        rw [Segment.nested, if_neg hc.1, if_neg hc.2]
      have hMore :=
        ih fun d hd => h d (List.mem_cons_of_mem c hd)
      rw [List.map_cons, braceDepth, List.foldl_cons, hFirst]
      exact hMore

/- A last line feed begins no line. -/
theorem indented_end
    (depth : Nat) :
    Indented depth [.code '\n'] := by
  intro front back hPart hBack
  cases front with
  | nil => exact absurd (List.cons.inj hPart).2.symm hBack
  | cons first more =>
      have hMore := (List.cons.inj hPart).2
      cases more with
      | nil => cases hMore
      | cons second more => cases hMore

/- Nothing begins no line. -/
theorem indented_nil
    (depth : Nat) :
    Indented depth [] := by
  intro front back hPart _
  cases front with
  | nil => cases hPart
  | cons first more => cases hPart

/- A part without line feeds of code begins no line. -/
theorem Indented.append
    {depth : Nat}
    {part rest : List Segment}
    (hPart : Segment.code '\n' ∉ part)
    (hRest : Indented (braceDepth depth part) rest) :
    Indented depth (part ++ rest) := by
  intro front back hCut hBack
  rcases List.append_eq_append_iff.mp hCut with
    ⟨between, rfl, hMore⟩ | ⟨between, rfl, hMore⟩
  · rw [braceDepth_append]
    exact hRest between back hMore hBack
  · cases between with
    | nil =>
        have hSame : rest = [] ++ .code '\n' :: back :=
          hMore.symm
        rw [List.append_nil] at hRest
        exact hRest [] back hSame hBack
    | cons first more =>
        rw [← (List.cons.inj hMore).1] at hPart
        exact absurd (by simp) hPart

/- A segment but a line feed begins no line. -/
theorem Indented.cons
    {depth : Nat}
    {segment : Segment}
    {rest : List Segment}
    (hRest : Indented (segment.nested depth) rest)
    (hSegment : segment ≠ .code '\n') :
    Indented depth (segment :: rest) := by
  have hPart : Segment.code '\n' ∉ [segment] := by
    intro hLine
    exact hSegment (List.mem_singleton.mp hLine).symm
  exact Indented.append hPart hRest

/- A line feed in front of an indented line. -/
theorem Indented.line
    {depth : Nat}
    {rest : List Segment}
    (hLine : IsIndented depth (rest.flatMap Segment.source))
    (hRest : Indented depth rest) :
    Indented depth (.code '\n' :: rest) := by
  intro front back hCut hBack
  cases front with
  | nil =>
      rw [← (List.cons.inj hCut).2]
      exact hLine
  | cons first more =>
      rcases List.cons.inj hCut with ⟨rfl, hMore⟩
      exact hRest more back hMore hBack

end Stylesheet

end WebTidy

------------------------------------------------------------
-- What Stands In Front Of A Segment
------------------------------------------------------------

namespace WebTidy

namespace Stylesheet

/- Characters that the scanner adds on a line. -/
def isFiller
    (c : Char) :
    Bool :=
  c = ';' ∨ (isBlank c ∧ c ≠ '\n')

/-
  What the scanner writes in front of a segment that begins
  with a given character.  The segment stays on the line, or
  it stands behind the tabs of the next line.
-/
inductive LineLead
    (depth : Nat)
    (c : Char) :
    Text → Prop
| same
    {filler : Text}
    (hFiller : filler.all isFiller = true) :
    LineLead depth c filler
| next
    {filler : Text}
    (hFiller : filler.all isFiller = true) :
    LineLead depth c
      (filler ++
        '\n' :: List.replicate (indentation depth c) '\t')

/- A filler says nothing about strings, comments or depth. -/
theorem of_isFiller
    {c : Char}
    (h : isFiller c = true) :
    c ≠ '\n' ∧ (c ≠ '/' ∧ isMark c = false) ∧
      (c ≠ '{' ∧ c ≠ '}') := by
  simp only [isFiller, isBlank, decide_eq_true_eq] at h
  rcases h with rfl | ⟨rfl | rfl | rfl | rfl | rfl, hLine⟩
  · decide
  · decide
  · decide
  · exact absurd rfl hLine
  · decide
  · decide

/- Fillers in front of a part begin no line. -/
theorem Indented.filler
    {depth : Nat}
    {filler rest : Text}
    (hFiller : filler.all isFiller = true)
    (hRest : Indented depth (segments rest)) :
    Indented depth (segments (filler ++ rest)) := by
  have hPlain : ∀ c ∈ filler, _ :=
    fun c hc => of_isFiller (List.all_eq_true.mp hFiller c hc)
  rw [segments_codes rest fun c hc => (hPlain c hc).2.1]
  apply Indented.append
  · intro hLine
    rcases List.mem_map.mp hLine with ⟨c, hc, hCode⟩
    exact (hPlain c hc).1 (Segment.code.inj hCode)
  · rw [braceDepth_codes _ fun c hc => (hPlain c hc).2.2]
    exact hRest

/- Tabs are fillers. -/
theorem all_isFiller_tabs
    (n : Nat) :
    (List.replicate n '\t').all isFiller = true := by
  rw [List.all_replicate]
  exact ite_eq_left_iff.mpr fun _ => rfl

/-
  A segment behind what the scanner writes in front of it.
  If a line begins there, it is indented.
-/
theorem LineLead.indented
    {depth : Nat}
    {c : Char}
    {lead rest : Text}
    (h : LineLead depth c lead)
    (hc : isBlank c = false)
    (hRest : Indented depth (segments (c :: rest))) :
    Indented depth (segments (lead ++ c :: rest)) := by
  cases h with
  | same hFiller => exact hRest.filler hFiller
  | next hFiller =>
      rw [List.append_assoc, List.cons_append]
      apply Indented.filler hFiller
      rw [segments_code (by simp) rfl]
      apply Indented.line
      · rw [segments_source]
        exact ⟨c, rest, rfl, hc⟩
      · exact hRest.filler (all_isFiller_tabs _)

/- A character in front of what leads to a segment. -/
theorem LineLead.cons
    {depth : Nat}
    {c d : Char}
    {lead : Text}
    (h : LineLead depth c lead)
    (hd : isFiller d = true) :
    LineLead depth c (d :: lead) := by
  have hAll {filler : Text}
      (hFiller : filler.all isFiller = true) :
      (d :: filler).all isFiller = true := by
    rw [List.all_cons, hd, hFiller]
    rfl
  cases h with
  | same hFiller => exact .same (hAll hFiller)
  | next hFiller => exact .next (hAll hFiller)

/- Blanks up to a line feed, and tabs behind it. -/
theorem lineLead_throughLine
    (depth : Nat)
    {c : Char}
    {t : Text}
    (hBrace : c ≠ '}')
    (hBlanks : t.all isBlank = true) :
    LineLead depth c
      (throughLine t ++
        if (throughLine t).getLast? = some '\n' then
          List.replicate depth '\t'
        else []) := by
  induction t with
  | nil => exact .same rfl
  | cons d more ih =>
      simp only [List.all_cons, Bool.and_eq_true] at hBlanks
      by_cases hLine : d = '\n'
      · subst d
        have hDepth : indentation depth c = depth :=
          if_neg hBrace
        have hNext := @LineLead.next depth c [] rfl
        rw [hDepth] at hNext
        exact hNext
      · have hFirst : isFiller d = true := by
          simp [isFiller, hBlanks.1, hLine]
        have hLast :
            (d :: throughLine more).getLast? = some '\n' ↔
              (throughLine more).getLast? = some '\n' := by
          rw [List.getLast?_cons]
          cases (throughLine more).getLast? with
          | none => simp [hLine]
          | some e => rfl
        simp only [throughLine, if_neg hLine, hLast]
        exact (ih hBlanks.2).cons hFirst

end Stylesheet

end WebTidy

------------------------------------------------------------
-- The Blanks Behind The Final Part
------------------------------------------------------------

namespace WebTidy

namespace Stylesheet

namespace Scanner

/- The trail of a scanner whose final part is known. -/
theorem trail_eq
    {s : Scanner}
    {base tail : Text}
    (hWritten : s.written = tail.reverse ++ base)
    (hCore : s.core = base) :
    s.trail = tail := by
  rw [written_eq, hCore] at hWritten
  exact List.reverse_injective
    (List.append_cancel_right hWritten)

/- A move leaves at most one blank behind its segment. -/
theorem Move.length_trail_le
    {s t : Scanner}
    {blanks rest k text : Text}
    (hCode : s.context = .code)
    (h : Move s blanks rest k text t) :
    t.trail.length ≤ 1 := by
  obtain ⟨tail, hWritten, hLength⟩ :
      ∃ tail : Text,
        t.written =
          tail.reverse ++ (text.reverse ++ s.core) ∧
        tail.length ≤ 1 := by
    cases h with
    | closeBlock | closeValue =>
        refine ⟨_, rfl, ?_⟩
        split
        · exact Nat.zero_le 1
        · exact Nat.le_refl 1
    | plain | word | closeParen | dash | selectorColon
    | comment | string =>
        exact ⟨[], rfl, Nat.zero_le 1⟩
    | operator | openBlock | semicolon | comma | valueColon =>
        exact ⟨[_], rfl, Nat.le_refl 1⟩
  rw [trail_eq hWritten (h.core_eq_and_settled hCode).1]
  exact hLength

/- The trail after blanks ends with its only line feed. -/
theorem throughLine_gap
    {s : Scanner}
    (hTrail : s.trail.length ≤ 1)
    (blanks : Text) :
    throughLine (s.gap blanks) = s.gap blanks := by
  have hShort {t : Text} (ht : t.length ≤ 1) :
      throughLine t = t := by
    match t with
    | [] => rfl
    | [c] => simp [throughLine]
  unfold gap
  split
  · exact hShort hTrail
  · split
    · split
      · rfl
      · rfl
    · split
      · rfl
      · exact throughLine_throughLine blanks

/- The blanks kept in front of a segment lead to it. -/
theorem lineLead_lead
    {s : Scanner}
    {blanks : Text}
    {c : Char}
    (hTrail : s.trail.length ≤ 1)
    (hBlanks : blanks.all isBlank = true)
    (hBrace : c ≠ '}') :
    LineLead s.depth c (s.lead blanks) := by
  have hLead :=
    lineLead_throughLine s.depth hBrace (s.all_gap hBlanks)
  rw [throughLine_gap hTrail] at hLead
  exact hLead

/- So does the line feed in front of a comment. -/
theorem lineLead_commentLead
    (s : Scanner) :
    LineLead s.depth '/' s.commentLead := by
  unfold commentLead
  split
  · exact .same rfl
  · exact @LineLead.next _ _ [] rfl

/- A move writes a segment behind what leads to it. -/
theorem Move.exists_lineLead
    {s t : Scanner}
    {blanks rest k text : Text}
    (hTrail : s.trail.length ≤ 1)
    (hBlanks : blanks.all isBlank = true)
    (h : Move s blanks rest k text t) :
    ∃ lead c more,
      text = lead ++ k ∧ k = c :: more ∧
      isBlank c = false ∧ LineLead s.depth c lead := by
  rcases h.exists_head with ⟨c, more, hk, hc⟩
  have hSame (lead : Text)
      (hFiller : lead.all isFiller = true)
      (hText : text = lead ++ k) :
      ∃ lead c more,
        text = lead ++ k ∧ k = c :: more ∧
        isBlank c = false ∧ LineLead s.depth c lead :=
    ⟨lead, c, more, hText, hk, hc, .same hFiller⟩
  cases h with
  | plain d hPlain | word d hPlain =>
      refine ⟨_, d, [], rfl, rfl, isBlank_of_isPlain hPlain,
        lineLead_lead hTrail hBlanks ?_⟩
      rintro rfl
      cases hPlain
  | dash =>
      exact ⟨_, '-', [], rfl, rfl, rfl,
        lineLead_lead hTrail hBlanks (by decide)⟩
  | string k hString =>
      rcases exists_of_stringLength? hString with
        ⟨mark, body, _, rfl, hMark, _⟩
      refine ⟨_, mark, body, rfl, rfl,
        (isBlank_and_ne_of_isMark hMark).1,
        lineLead_lead hTrail hBlanks ?_⟩
      rintro rfl
      cases hMark
  | comment k hComment =>
      rcases exists_of_commentLength? hComment with
        ⟨body, _, rfl, _⟩
      exact ⟨_, '/', _, rfl, rfl, rfl,
        s.lineLead_commentLead⟩
  | closeParen | semicolon | comma | selectorColon
  | valueColon =>
      exact hSame [] rfl rfl
  | operator | openBlock => exact hSame [' '] rfl rfl
  | closeBlock =>
      exact ⟨_, '}', [], rfl, rfl, rfl,
        @LineLead.next _ _ [] rfl⟩
  | closeValue =>
      exact ⟨_, '}', [], rfl, rfl, rfl,
        @LineLead.next _ _ [';'] rfl⟩

end Scanner

end Stylesheet

end WebTidy

------------------------------------------------------------
-- Layouts Are Indented
------------------------------------------------------------

namespace WebTidy

namespace Stylesheet

section Alone

variable {segment : Segment}

/- A character of code that stands alone. -/
theorem eq_code
    {c : Char}
    (h : segments [c] = [segment])
    (hMark : isMark c = false) :
    segment = .code c := by
  rw [segments_code (by simp) hMark] at h
  exact (List.cons.inj h).1.symm

/- A comment that stands alone. -/
theorem IsComment.eq_comment
    {k : Text}
    (hComment : IsComment k)
    (h : segments k = [segment]) :
    segment = .comment k true := by
  have hWhole := segments_comment [] hComment
  rw [List.append_nil, h] at hWhole
  exact (List.cons.inj hWhole).1

/- A string that stands alone. -/
theorem IsString.eq_quoted
    {k : Text}
    (hString : IsString k)
    (h : segments k = [segment]) :
    segment = .quoted k true := by
  have hWhole := segments_string [] hString
  rw [List.append_nil, h] at hWhole
  exact (List.cons.inj hWhole).1

end Alone

namespace Scanner

/- The depth of the scanner is the depth of the braces. -/
theorem Move.depth_eq
    {s t : Scanner}
    {blanks rest k text : Text}
    {segment : Segment}
    (h : Move s blanks rest k text t)
    (hSegment : segments k = [segment]) :
    t.depth = segment.nested s.depth := by
  have hPlain {c : Char}
      (hChar : segments [c] = [segment])
      (hMark : isMark c = false)
      (hBraces : c ≠ '{' ∧ c ≠ '}') :
      s.depth = segment.nested s.depth := by
    rw [eq_code hChar hMark, Segment.nested,
      if_neg hBraces.1, if_neg hBraces.2]
  cases h with
  | plain c hClass | word c hClass =>
      simp [isPlain] at hClass
      exact hPlain hSegment hClass.1.1.1.1.2
        ⟨hClass.1.1.1.2, hClass.1.1.2⟩
  | operator c hComment hValue hParens hOperator =>
      simp only [isOperator, decide_eq_true_eq] at hOperator
      rcases hOperator with rfl | rfl | rfl | rfl
      · exact hPlain hSegment rfl (by decide)
      · exact hPlain hSegment rfl (by decide)
      · exact hPlain hSegment rfl (by decide)
      · exact hPlain hSegment rfl (by decide)
  | comment k hComment =>
      rw [hComment.eq_comment hSegment]
      rfl
  | string k hString =>
      rw [hString.eq_quoted hSegment]
      rfl
  | openBlock | closeBlock | closeValue =>
      rw [eq_code hSegment rfl]
      rfl
  | closeParen | dash | semicolon | comma | selectorColon
  | valueColon =>
      exact hPlain hSegment rfl (by decide)

/-
  The segment of a move is the same alone, in front of the
  rest of the text, and in front of the layout of the rest.
-/
theorem Move.exists_alone
    {s t : Scanner}
    {blanks rest k text later : Text}
    (hCode : s.context = .code)
    (hBlanks : blanks.all isBlank = true)
    (h : Move s blanks rest k text t)
    (hLater : Laid t rest later) :
    ∃ segment : Segment,
      segment.isBlank = false ∧
      segments k = [segment] ∧
      segments (k ++ rest) = segment :: segments rest ∧
      segments (k ++ (later ++ ['\n'])) =
        segment :: segments (later ++ ['\n']) := by
  rcases h.exists_segment with
    ⟨segment, hBlank, _, hSegments⟩
  refine ⟨segment, hBlank, ?_, ?_, ?_⟩
  · have hFront := hSegments [] (by simp)
    rw [List.append_nil, segments] at hFront
    exact hFront
  · exact hSegments rest fun _ hStar => hStar
  · apply hSegments
    intro hSlash hStar
    exact hLater.head?_source (h.ready hCode)
      ((h.final?_eq hCode hBlanks).trans hSlash) rfl hStar
      rfl

/-
  A move in front of an indented layout makes an indented
  layout.
-/
theorem Move.indented
    {s t : Scanner}
    {blanks rest k text later : Text}
    (hCode : s.context = .code)
    (hBlanks : blanks.all isBlank = true)
    (hTrail : s.trail.length ≤ 1)
    (h : Move s blanks rest k text t)
    (hLater : Laid t rest later)
    (hRest :
      Indented t.depth (segments (later ++ ['\n']))) :
    Indented s.depth
      (segments (text ++ (later ++ ['\n']))) := by
  rcases h.exists_alone hCode hBlanks hLater with
    ⟨segment, hBlank, hAlone, _, hShown⟩
  have hBehind :
      Indented s.depth
        (segments (k ++ (later ++ ['\n']))) := by
    rw [h.depth_eq hAlone] at hRest
    rw [hShown]
    apply hRest.cons
    rintro rfl
    cases hBlank
  rcases h.exists_lineLead hTrail hBlanks with
    ⟨lead, c, more, rfl, rfl, hc, hLead⟩
  rw [List.append_assoc]
  exact hLead.indented hc hBehind

/- The layout of a text is indented. -/
theorem Laid.indented
    {s : Scanner}
    {source out : Text}
    (h : Laid s source out)
    (hs : Ready s source)
    (hTrail : s.trail.length ≤ 1) :
    Indented s.depth (segments (out ++ ['\n'])) := by
  have hOnly (depth : Nat) (last : Segment)
      (hLast : last ≠ .code '\n') :
      Indented depth [last] := by
    exact (indented_nil _).cons hLast
  induction h with
  | @blank s blanks hCode hBlanks =>
      have hEnd : Indented s.depth (segments ['\n']) := by
        rw [segments_code (by simp) rfl, segments]
        exact indented_end _
      cases s.inValue with
      | false => exact hEnd
      | true =>
          exact @Indented.filler _ [';'] _ rfl hEnd
  | @openComment s blanks k hCode hBlanks hOpen hEnd =>
      have hKept :=
        segments_comment_open (prefix_trimEnd hOpen)
          (commentLength?_trimEnd hEnd)
      rcases prefix_trimEnd hOpen with ⟨body, hBody⟩
      have hText :
          k.trimEnd isBlank ++ ['\n'] = '/' :: '*' :: body :=
        hBody.symm
      rw [List.append_assoc, hText]
      rw [hText] at hKept
      apply s.lineLead_commentLead.indented rfl
      rw [hKept]
      exact hOnly _ _ (by simp)
  | @openString s blanks body mark hCode hBlanks hMark
      hEnd =>
      have hNone := stringLength?_trimEnd hEnd
      rw [trimEnd_mark_cons body hMark] at hNone
      rw [List.append_assoc, trimEnd_mark_cons body hMark]
      have hBrace : mark ≠ '}' := by
        rintro rfl
        cases hMark
      apply (lineLead_lead hTrail hBlanks hBrace).indented
        (isBlank_and_ne_of_isMark hMark).1
      rw [segments_string_open hMark hNone]
      exact hOnly _ _ (by simp)
  | again hBlanks hFinal hRest ih =>
      exact ih
        ⟨hs.settled, Or.inl (hs.settled.ended hFinal).1⟩
        hTrail
  | @dash s rest out hDash hRest ih =>
      rcases hs.afterDash hDash with ⟨_, hCore, hReady⟩
      have hShort : s.afterDash.trail.length ≤ 1 := by
        rw [@trail_eq _ _ [] rfl hCore]
        exact Nat.zero_le 1
      rw [List.cons_append, segments_code (by simp) rfl]
      have hBehind :
          Indented (Segment.nested s.depth (.code '-'))
            (segments (out ++ ['\n'])) :=
        ih hReady hShort
      exact hBehind.cons (by simp)
  | @move s t blanks k rest text out hCode hBlanks hMove
      hRest ih =>
      rw [List.append_assoc]
      apply hMove.indented hCode hBlanks hTrail hRest
      exact ih (hMove.ready hCode)
        (hMove.length_trail_le hCode)

end Scanner

end Stylesheet

end WebTidy

------------------------------------------------------------
-- Style Sheets
------------------------------------------------------------

namespace WebTidy

namespace Stylesheet

/- The layout of a text of blanks, and of any other. -/
theorem prettify_cases
    (sheet : Text) :
    (sheet.all isBlank = true ∧ prettify sheet = ['\n']) ∨
    ∃ blanks c rest,
      sheet.all isBlank = false ∧
      List.all blanks isBlank = true ∧ isBlank c = false ∧
      prettify sheet = c :: rest ∧
      Indented 0 (segments (blanks ++ c :: rest)) := by
  rcases exists_laid_prettify sheet with ⟨out, hLaid, hOut⟩
  have hBlank := hLaid.all_isBlank_eq nofun rfl
  have hIndented :=
    hLaid.indented (Scanner.ready_new sheet) (Nat.zero_le 1)
  rcases Text.all_or_exists isBlank out with
    hAll | ⟨blanks, c, rest, rfl, hBlanks, hc⟩
  · left
    constructor
    · rw [hBlank, List.all_append, hAll]
      rfl
    · rw [hOut, List.dropWhile_eq_nil_iff.mpr
        (List.all_eq_true.mp hAll)]
      rfl
  · right
    refine ⟨blanks, c, rest ++ ['\n'], ?_, hBlanks, hc, ?_,
      ?_⟩
    · rw [hBlank]
      simp [hc]
    · rw [hOut, Scanner.dropWhile_blanks hBlanks hc]
      rfl
    · rw [List.append_assoc] at hIndented
      exact hIndented

/-
  Every line of a layout that begins in code is indented by
  the number of open braces, and no such line is blank.  The
  one exception is the empty line that stands for a style
  sheet of blanks.
-/
theorem indented_prettify
    (sheet : Text) :
    (sheet.all isBlank = true ∧ prettify sheet = ['\n']) ∨
    (sheet.all isBlank = false ∧
      ∀ front back,
        LineStart (prettify sheet) front back →
        IsIndented (braceDepth 0 front)
          (back.flatMap Segment.source)) := by
  rcases prettify_cases sheet with
    hNone | ⟨blanks, c, rest, hSome, hBlanks, hc, hOut,
      hIndented⟩
  · exact Or.inl hNone
  right
  refine ⟨hSome, ?_⟩
  intro front back hLine
  have hCut := hLine.segments_eq
  rw [hOut] at hCut
  cases hLast : front.getLast? with
  | none =>
      have hFront := List.getLast?_eq_none_iff.mp hLast
      subst hFront
      have hDepth : indentation 0 c = 0 := ite_self 0
      rw [List.nil_append] at hCut
      rw [← hCut, segments_source]
      refine ⟨c, rest, ?_, hc⟩
      rw [braceDepth, List.foldl_nil, hDepth]
      rfl
  | some last =>
      have hStart := hLine.start
      rw [hLast] at hStart
      have hFeed : last = .code '\n' :=
        of_decide_eq_true hStart
      subst hFeed
      rcases List.getLast?_eq_some_iff.mp hLast with
        ⟨init, rfl⟩
      have hBraces : ∀ d ∈ blanks, d ≠ '{' ∧ d ≠ '}' := by
        intro d hd
        have hBlank := List.all_eq_true.mp hBlanks d hd
        constructor
        · rintro rfl
          cases hBlank
        · rintro rfl
          cases hBlank
      have hPlace :=
        hIndented (blanks.map .code ++ init) back
          (by rw [segments_blanks _ hBlanks, hCut]; simp)
          hLine.line
      rw [braceDepth_append, braceDepth_codes 0 hBraces]
        at hPlace
      rw [braceDepth_append]
      exact hPlace

/- Two nested blocks and a string with a line of its own. -/
def nestedBlocks :
    Text :=
  "@media x\x7ba\x7bb:'\n\x7d'\x7d\x7d".toList

/- The segments of its layout up to the declaration. -/
def nestedFront :
    List Segment :=
  "@media x \x7b\n\ta \x7b\n".toList.map .code

/- The declaration stands behind two tabs. -/
theorem indented_nestedBlocks :
    prettify nestedBlocks =
      "@media x \x7b\n\ta \x7b\n".toList ++
        "\t\tb: '\n\x7d';\n\t\x7d\n\x7d\n".toList ∧
    ∃ back,
      LineStart (prettify nestedBlocks) nestedFront back ∧
      IsIndented 2 (back.flatMap Segment.source) := by
  have hLine :
      LineStart (prettify nestedBlocks) nestedFront
        ((segments (prettify nestedBlocks)).drop 16) := by
    constructor <;> decide +kernel
  refine ⟨by decide +kernel, _, hLine, ?_⟩
  rcases indented_prettify nestedBlocks with
    ⟨hBlank, _⟩ | ⟨_, hLines⟩
  · cases hBlank
  · exact hLines _ _ hLine

end Stylesheet

end WebTidy
