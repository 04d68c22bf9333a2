import WebTidy.Proofs.Stylesheet.Passage

/-
  Custom names inside calc expressions.

  Inside a calc expression a hyphen may be an operator, a
  sign or a part of a name.  Two hyphens in a row are
  copied, and so is a hyphen behind a hyphen.  A hyphen
  behind a letter, digit or underscore is copied only if a
  letter, a hyphen or an underscore follows; otherwise it is
  taken for an operator.  So a custom name is written in one
  piece exactly if it has no such hyphen.

  Key definitions include:
    * `WebTidy.Stylesheet.isCustomName`
    * `WebTidy.Stylesheet.isUnbroken`
    * `WebTidy.Stylesheet.Scanner.inCalc`
    * `WebTidy.Stylesheet.Scanner.InName`

  Key theorems include:
    * `WebTidy.Stylesheet.Scanner.InName.copies`
    * `WebTidy.Stylesheet.Scanner.exists_laid_name`
    * `WebTidy.Stylesheet.Scanner.exists_laid_operator`
    * `WebTidy.Stylesheet.keeps_customName_iff`
-/

------------------------------------------------------------
-- Custom Names
------------------------------------------------------------

namespace WebTidy

namespace Stylesheet

/- Two hyphens and any number of characters of a name. -/
def isCustomName :
    Text → Bool
| '-' :: '-' :: rest => rest.all isIdentChar
| _ => false

/-
  A text in front of another in which every hyphen behind
  another character goes on with a letter, a hyphen or an
  underscore.
-/
def isUnbroken
    (back : Text) :
    Text → Bool
| c :: d :: rest =>
    (d = '-' → c = '-' ∨
      (rest ++ back).head?.any isIdentStart) ∧
    isUnbroken back (d :: rest)
| _ => true

/- A scanner inside a calc expression of a property value. -/
def Scanner.inCalc
    (s : Scanner) :
    Bool :=
  s.inValue ∧ s.parens.isSome

/- A character of a name but a hyphen is copied. -/
theorem isWord_of_isIdentChar
    {c : Char}
    (h : isIdentChar c = true)
    (hDash : c ≠ '-') :
    isWord c = true := by
  have hAll :
      (" \t\n\r\x0c\"'{};,+-*/):".toList.all fun e =>
        e == '-' || !isIdentChar e) = true := by
    rfl
  cases hc : isWord c with
  | true => rfl
  | false =>
      have hNone :=
        List.all_eq_true.mp hAll c (mem_of_isWord_eq_false hc)
      simp [hDash, h] at hNone

/- The characters of a name are segments of their own. -/
theorem segments_name
    {name : Text}
    (rest : Text)
    (h : name.all isIdentChar = true) :
    segments (name ++ rest) =
      name.map .code ++ segments rest := by
  apply segments_codes
  intro c hc
  have hIdent := List.all_eq_true.mp h c hc
  constructor
  · rintro rfl
    cases hIdent
  · cases hMark : isMark c with
    | false => rfl
    | true =>
        simp only [isMark, decide_eq_true_eq] at hMark
        rcases hMark with rfl | rfl <;> cases hIdent

end Stylesheet

end WebTidy

------------------------------------------------------------
-- Reading A Name
------------------------------------------------------------

namespace WebTidy

namespace Stylesheet

namespace Scanner

/-
  A scanner inside a name of a calc expression.  The index
  is the character of the name that it has read last.
-/
structure InName
    (s : Scanner)
    (c : Char) :
    Prop where
  value : s.inValue = true
  parens : s.parens.isSome = true
  attending : s.skipping = false
  final : s.final? = some c
  ident : isIdentChar c = true
  code : c ≠ '-' → s.context = .code

/-
  A scanner that copies the next character of a name and
  stays inside the name.
-/
def Copies
    (s : Scanner)
    (c : Char)
    (back : Text) :
    Prop :=
  ∃ t,
    InName t c ∧ Ready t back ∧
    ∀ out, Laid t back out → Laid s (c :: back) (c :: out)

/- Inside a name nothing is written between characters. -/
theorem InName.lead_nil
    {s : Scanner}
    {c : Char}
    (h : InName s c) :
    s.lead [] = [] := by
  simp [lead, gap, h.attending, h.value]

/- Words do not end the calc expression. -/
theorem isSome_parens_trackCalc
    {s : Scanner}
    {c : Char}
    (rest : Text)
    (hParens : s.parens.isSome = true)
    (hOpen : c ≠ '(')
    (hClose : c ≠ ')') :
    (s.trackCalc c rest).parens.isSome = true := by
  rcases Option.isSome_iff_exists.mp hParens with ⟨n, hn⟩
  simp [trackCalc, hn, hOpen, hClose]

/-
  A hyphen of a name that no hyphen follows is copied if a
  hyphen stands before it or the name goes on behind it.
-/
theorem InName.isSign_or_isHyphen
    {s : Scanner}
    {c : Char}
    {back : Text}
    (hs : Settled s)
    (h : InName s c) :
    (s.isSign '-' = true ∨
      (s.pass []).isHyphen '-' back = true) ↔
    (c = '-' ∨ back.head?.any isIdentStart = true) := by
  have hSign : s.isSign '-' = true ↔ c = '-' := by
    constructor
    · intro hSign
      by_contra hDash
      have hWord := isWord_of_isIdentChar h.ident hDash
      simp [isSign, h.final] at hSign
      rcases hSign with rfl | rfl | hOperator
      · cases h.ident
      · cases hWord
      · simp [isWord, hOperator] at hWord
    · rintro rfl
      simp [isSign, h.final, isOperator]
  have hHyphen :
      (s.pass []).isHyphen '-' back = true ↔
        back.head?.any isIdentStart = true := by
    simp [isHyphen, hs.before, h.final, h.ident]
  rw [hSign, hHyphen]

/- The second of two hyphens is copied. -/
theorem copies_dash
    {s : Scanner}
    {back : Text}
    (hs : Ready s ('-' :: back))
    (hValue : s.inValue = true)
    (hParens : s.parens.isSome = true)
    (hDash : s.context = .dash) :
    Copies s '-' back := by
  rcases hs.afterDash hDash with ⟨_, hCore, hReady⟩
  have hFinal : s.afterDash.final? = some '-' := by
    rw [final?, hCore]
    rfl
  exact ⟨s.afterDash,
    ⟨hValue, hParens, rfl, hFinal, rfl, by simp⟩, hReady,
    fun _ hOut => .dash hDash hOut⟩

/-
  A single hyphen behind another character is written as an
  operator if no name goes on behind it.
-/
theorem InName.exists_operator
    {s : Scanner}
    {c : Char}
    {back : Text}
    (hs : Ready s ('-' :: back))
    (h : InName s c)
    (hOther : c ≠ '-')
    (hBack : ¬ back.head?.any isIdentStart = true) :
    ∃ later, Laid s ('-' :: back) (' ' :: later) := by
  have hKept :=
    mt (h.isSign_or_isHyphen hs.settled).mp
      (not_or.mpr ⟨hOther, hBack⟩)
  simp only [not_or, Bool.not_eq_true] at hKept
  have hSingle :
      ¬ ('-' = '-' ∧ back.head? = some '-') := by
    rintro ⟨_, hTwo⟩
    apply hBack
    rw [hTwo]
    rfl
  have hMove : Move s [] back ['-'] [' ', '-'] _ :=
    .operator '-' (by simp) h.value h.parens rfl hSingle
      hKept.1 hKept.2
  have hCode := h.code hOther
  rcases exists_laid (hMove.ready hCode) with
    ⟨later, hLater⟩
  exact ⟨'-' :: later, .move hCode rfl hMove hLater⟩

/- The next character of a name is copied. -/
theorem InName.copies
    {s : Scanner}
    {c d : Char}
    {back : Text}
    (hs : Ready s (d :: back))
    (hIn : InName s c)
    (hIdent : isIdentChar d = true)
    (hBound :
      d = '-' → c = '-' ∨
        back.head?.any isIdentStart = true) :
    Copies s d back := by
  rcases hs.context with hCode | ⟨hDash, _, hHead⟩
  · have hMoved {t : Scanner}
        (hMove : Move s [] back [d] (s.lead [] ++ [d]) t)
        (hValue : t.inValue = true)
        (hParens : t.parens.isSome = true)
        (hSkip : t.skipping = false)
        (hHere : d ≠ '-' → t.context = .code) :
        Copies s d back := by
      refine ⟨t, ?_, hMove.ready hCode, ?_⟩
      · exact ⟨hValue, hParens, hSkip,
          hMove.final?_eq hCode rfl, hIdent, hHere⟩
      · intro out hOut
        have hLaid := Laid.move hCode rfl hMove hOut
        rw [hIn.lead_nil] at hLaid
        exact hLaid
    have hTrack :=
      isSome_parens_trackCalc (c := d) back hIn.parens
        (by rintro rfl; cases hIdent)
        (by rintro rfl; cases hIdent)
    by_cases hHyphen : d = '-'
    · subst hHyphen
      -- two hyphens in a row are copied without a look back
      by_cases hTwo : back.head? = some '-'
      · exact hMoved (.dash hIn.value hIn.parens hTwo)
          hIn.value hIn.parens rfl (by simp)
      · refine hMoved (.word '-' rfl (by simp) (by decide)
          hIn.value ?_) hIn.value hTrack rfl (by simp)
        intro _ _
        refine ⟨by simp [hTwo], ?_⟩
        exact (hIn.isSign_or_isHyphen hs.settled).mpr
          (hBound rfl)
    · have hWord := isWord_of_isIdentChar hIdent hHyphen
      simp only [isWord, Bool.and_eq_true, bne_iff_ne]
        at hWord
      rcases hWord with ⟨⟨⟨hPlain, hOperator⟩, hClose⟩, _⟩
      refine hMoved (.word d hPlain ?_ hClose hIn.value ?_)
        hIn.value hTrack rfl (fun _ => hCode)
      · rintro ⟨rfl, _⟩
        cases hIdent
      · intro _ hActive
        rw [hActive] at hOperator
        cases hOperator
  · cases hHead
    exact copies_dash hs hIn.value hIn.parens hDash

/- An unbroken name is copied as a whole. -/
theorem exists_laid_name
    {s : Scanner}
    {c : Char}
    {name back : Text}
    (hs : Ready s (name ++ back))
    (hIn : InName s c)
    (hName : name.all isIdentChar = true)
    (hUnbroken : isUnbroken back (c :: name) = true) :
    ∃ later, Laid s (name ++ back) (name ++ later) := by
  induction name generalizing s c with
  | nil => exact exists_laid hs
  | cons d rest ih =>
      simp only [List.all_cons, Bool.and_eq_true] at hName
      simp only [isUnbroken, decide_eq_true_eq] at hUnbroken
      rcases hIn.copies hs hName.1 hUnbroken.1 with
        ⟨t, hNext, hReady, hFirst⟩
      rcases ih hReady hNext hName.2 hUnbroken.2 with
        ⟨later, hLater⟩
      exact ⟨later, hFirst _ hLater⟩

/-
  A broken name is copied up to a hyphen behind another
  character, which is written with a blank before it.
-/
theorem exists_laid_operator
    {s : Scanner}
    {c : Char}
    {name back : Text}
    (hs : Ready s (name ++ back))
    (hIn : InName s c)
    (hName : name.all isIdentChar = true)
    (hBroken : ¬ isUnbroken back (c :: name) = true) :
    ∃ left right later,
      name = left ++ '-' :: right ∧
      Laid s (name ++ back) (left ++ ' ' :: later) := by
  induction name generalizing s c with
  | nil => exact absurd rfl hBroken
  | cons d rest ih =>
      simp only [List.all_cons, Bool.and_eq_true] at hName
      simp only [isUnbroken, decide_eq_true_eq] at hBroken
      by_cases hBound :
          d = '-' → c = '-' ∨
            (rest ++ back).head?.any isIdentStart = true
      · rcases hIn.copies hs hName.1 hBound with
          ⟨t, hNext, hReady, hFirst⟩
        rcases ih hReady hNext hName.2
            (fun hRest => hBroken ⟨hBound, hRest⟩) with
          ⟨left, right, later, hSplit, hLater⟩
        refine ⟨d :: left, right, later, ?_,
          hFirst _ hLater⟩
        rw [hSplit, List.cons_append]
      · simp only [Classical.not_imp, not_or] at hBound
        rcases hBound with ⟨rfl, hOther, hNoName⟩
        rcases hIn.exists_operator hs hOther hNoName with
          ⟨later, hLater⟩
        exact ⟨[], rest, later, rfl, hLater⟩

/- The first hyphen of a custom name is copied. -/
theorem exists_first
    {s : Scanner}
    {between back : Text}
    (hs : Ready s (between ++ '-' :: back))
    (hCalc : s.inCalc = true)
    (hBetween : between.all isBlank = true)
    (hBack : back.head? = some '-') :
    ∃ lead t,
      List.all lead isBlank = true ∧ InName t '-' ∧
      Ready t back ∧
      ∀ out, Laid t back out →
        Laid s (between ++ '-' :: back)
          (lead ++ '-' :: out) := by
  simp only [inCalc, decide_eq_true_eq] at hCalc
  rcases hs.context with hCode | ⟨hDash, _, hHead⟩
  · have hMove : Move s between back ['-'] _ _ :=
      .dash hCalc.1 hCalc.2 hBack
    refine ⟨s.lead between, _, s.all_lead hBetween, ?_,
      hMove.ready hCode, ?_⟩
    · exact ⟨hCalc.1, hCalc.2, rfl,
        hMove.final?_eq hCode hBetween, rfl, by simp⟩
    · intro out hOut
      have hLaid := Laid.move hCode hBetween hMove hOut
      rw [List.append_assoc, List.append_assoc] at hLaid
      exact hLaid
  · have hNone := eq_nil_of_head? hBetween hHead rfl
    subst hNone
    rcases copies_dash hs hCalc.1 hCalc.2 hDash with
      ⟨t, hNext, hReady, hFirst⟩
    exact ⟨[], t, rfl, hNext, hReady, hFirst⟩

end Scanner

end Stylesheet

end WebTidy

------------------------------------------------------------
-- Style Sheets
------------------------------------------------------------

namespace WebTidy

namespace Stylesheet

/- A custom name begins with two hyphens. -/
theorem exists_of_isCustomName
    {name : Text}
    (h : isCustomName name = true) :
    ∃ rest : Text,
      name = '-' :: '-' :: rest ∧
      rest.all isIdentChar = true := by
  unfold isCustomName at h
  split at h
  · exact ⟨_, rfl, h⟩
  · cases h

/- Characters of code are their own text. -/
theorem flatMap_source_map
    (t : Text) :
    (t.map Segment.code).flatMap Segment.source = t := by
  induction t with
  | nil => rfl
  | cons c more ih =>
      rw [List.map_cons, List.flatMap_cons, ih]
      rfl

/- Blanks at a cut of the layout may stand in front of it. -/
theorem Counterpart.shift
    {sheet blanks : Text}
    {front back before after : List Segment}
    (h :
      Counterpart sheet front back before
        (blanks.map .code ++ after))
    (hBlanks : blanks.all isBlank = true) :
    Counterpart sheet front back (before ++ blanks.map .code)
      after := by
  constructor
  · rw [h.segments_eq, List.append_assoc]
  · rw [said_append, said_blanks hBlanks, List.append_nil,
      h.said_before]
  · rw [← h.said_after, said_append, said_blanks hBlanks,
      List.nil_append]

/-
  The cut in front of a segment but a blank or semicolon is
  where as much is said before.
-/
theorem append_cancel_said
    {segment : Segment}
    {before after others rest : List Segment}
    (hBlank : segment.isBlank = false)
    (hSemicolon : segment ≠ .code ';')
    (h :
      before ++ segment :: after =
        others ++ segment :: rest)
    (hSaid : said before = said others) :
    before = others := by
  have hMore {front more : List Segment}
      (hSame :
        said front = said (front ++ segment :: more)) :
      False := by
    rw [said_append, said_cons _ hBlank hSemicolon] at hSame
    have hLength := congrArg List.length hSame
    simp at hLength
  rcases List.append_eq_append_iff.mp h with
    ⟨more, rfl, hAfter⟩ | ⟨more, rfl, hRest⟩
  · cases more with
    | nil => rw [List.append_nil]
    | cons first more =>
        rw [← (List.cons.inj hAfter).1] at hSaid
        exact (hMore hSaid).elim
  · cases more with
    | nil => rw [List.append_nil]
    | cons first more =>
        rw [← (List.cons.inj hRest).1] at hSaid
        exact (hMore hSaid.symm).elim

/- The passage to a name inside a calc expression. -/
theorem Scanner.exists_passed_calc
    {sheet name : Text}
    {front back : List Segment}
    (hSheet :
      segments sheet = front ++ (name.map .code ++ back))
    (hName : name ≠ [])
    (hCalc :
      (scannerAt (front.flatMap Segment.source)
        (name ++ back.flatMap Segment.source)).inCalc =
          true) :
    ∃ passed between out t,
      sheet =
        passed ++
          (between ++
            (name ++ back.flatMap Segment.source)) ∧
      List.all between isBlank = true ∧
      segments (name ++ back.flatMap Segment.source) =
        name.map .code ++ back ∧
      Passed
        (between ++ (name ++ back.flatMap Segment.source))
        {} passed out t ∧
      t.inCalc = true ∧ out ≠ [] := by
  rcases exists_passed (ready_new _) hSheet (by simp [hName])
    with
    ⟨passed, between, rest, out, t, rfl, hBetween, hFront,
      hRest, hPassed⟩
  have hSource := segments_source rest
  rw [hRest, List.flatMap_append, flatMap_source_map]
    at hSource
  subst hSource
  have hReached := hPassed.reaches (ready_new _)
  rw [← hFront, scannerAt, through_append, hReached.1]
    at hCalc
  have hHere : t.inCalc = true := by
    rcases hReached.2.2.context with
      hCode | ⟨_, _, hHead⟩
    · rw [through_blanks hReached.2.2.settled hCode hBetween]
        at hCalc
      exact hCalc
    · rw [eq_nil_of_head? hBetween hHead rfl] at hCalc
      exact hCalc
  refine ⟨passed, between, out, t, rfl, hBetween, hRest,
    hPassed, hHere, ?_⟩
  rintro rfl
  simp only [inCalc, decide_eq_true_eq] at hHere
  apply (hReached.2.2.settled.value hHere.1).1
  rw [final?, hReached.2.1]
  rfl

/-
  The scanner behind the first hyphen of a custom name.  The
  layout that it writes from there on has its place behind
  that hyphen.
-/
theorem exists_inName
    {sheet rest : Text}
    {front back : List Segment}
    (hSheet :
      segments sheet =
        front ++ (('-' :: '-' :: rest).map .code ++ back))
    (hCalc :
      (scannerAt (front.flatMap Segment.source)
        ('-' :: '-' :: rest ++
          back.flatMap Segment.source)).inCalc = true) :
    ∃ s,
      Scanner.InName s '-' ∧
      Scanner.Ready s
        ('-' :: rest ++ back.flatMap Segment.source) ∧
      ∀ out,
        Scanner.Laid s
          ('-' :: rest ++ back.flatMap Segment.source) out →
        ∃ before,
          Counterpart sheet front
            (('-' :: '-' :: rest).map .code ++ back) before
            (segments ('-' :: out ++ ['\n'])) := by
  rcases Scanner.exists_passed_calc hSheet (by simp) hCalc
    with
    ⟨passed, between, written, t, hText, hBetween, hBack,
      hPassed, hHere, hWritten⟩
  have hReady := (hPassed.reaches (Scanner.ready_new _)).2.2
  rcases Scanner.exists_first hReady hHere hBetween rfl with
    ⟨lead, s, hLead, hIn, hNext, hFirst⟩
  refine ⟨s, hIn, hNext, ?_⟩
  intro out hOut
  rcases hPassed.exists_counterpart hSheet hText hBetween
      hBack (hFirst out hOut)
      (fun hNil => absurd hNil hWritten) with
    ⟨before, hPart, _⟩
  rw [List.append_assoc, segments_blanks _ hLead] at hPart
  exact ⟨_, hPart.shift hLead⟩

/-
  A custom name inside a calc expression is written in one
  piece exactly if it is unbroken.
-/
theorem keeps_customName_iff
    {sheet name : Text}
    {front back : List Segment}
    (hSheet :
      segments sheet = front ++ (name.map .code ++ back))
    (hName : isCustomName name = true)
    (hCalc :
      (scannerAt (front.flatMap Segment.source)
        (name ++ back.flatMap Segment.source)).inCalc =
          true) :
    (∃ before after,
      Counterpart sheet front (name.map .code ++ back) before
        (name.map .code ++ after)) ↔
    isUnbroken (back.flatMap Segment.source) name = true := by
  rcases exists_of_isCustomName hName with
    ⟨rest, rfl, hRest⟩
  rcases exists_inName hSheet hCalc with
    ⟨s, hIn, hReady, hPlace⟩
  have hIdent : ('-' :: rest).all isIdentChar = true := by
    rw [List.all_cons, hRest]
    rfl
  constructor
  · rintro ⟨before, after, hPart⟩
    by_contra hBroken
    rcases Scanner.exists_laid_operator hReady hIn hIdent
        hBroken with
      ⟨left, right, later, hSplit, hLater⟩
    rcases hPlace _ hLater with ⟨others, hOthers⟩
    have hLeft : left.all isIdentChar = true := by
      rw [hSplit, List.all_append, Bool.and_eq_true] at hIdent
      exact hIdent.1
    rw [List.cons_append, segments_code (by simp) rfl,
      List.append_assoc, segments_name _ hLeft,
      List.cons_append, segments_code (by simp) rfl]
      at hOthers
    -- both cuts are in front of the first hyphen of the name
    have hSame :=
      hPart.segments_eq.symm.trans hOthers.segments_eq
    have hFront : before = others :=
      append_cancel_said rfl (by decide) hSame
        (hPart.said_before.trans hOthers.said_before.symm)
    rw [hFront, List.append_cancel_left_eq] at hSame
    have hMore :
        ('-' :: rest).map Segment.code ++ after =
          left.map .code ++
            .code ' ' :: segments (later ++ ['\n']) :=
      (List.cons.inj hSame).2
    rw [hSplit, List.map_append, List.append_assoc,
      List.append_cancel_left_eq] at hMore
    injection hMore with hBlank _
    cases hBlank
  · intro hUnbroken
    rcases Scanner.exists_laid_name hReady hIn hIdent
        hUnbroken with
      ⟨later, hLater⟩
    rcases hPlace _ hLater with ⟨before, hPart⟩
    rw [List.cons_append, segments_code (by simp) rfl,
      List.append_assoc, segments_name _ hIdent] at hPart
    exact ⟨before, _, hPart⟩

/- A rule with a custom name that has a hyphen inside. -/
def sidebarRule :
    Text :=
  "a\x7bwidth:calc(2*var(--side-bar))\x7d".toList

/- The name is written in one piece. -/
theorem keeps_sidebarName :
    ∃ before after,
      Counterpart sidebarRule
        ("a\x7bwidth:calc(2*var(".toList.map .code)
        ("--side-bar".toList.map .code ++
          "))\x7d".toList.map .code)
        before ("--side-bar".toList.map .code ++ after) := by
  have hSheet :
      segments sidebarRule =
        "a\x7bwidth:calc(2*var(".toList.map .code ++
          ("--side-bar".toList.map .code ++
            "))\x7d".toList.map .code) := by
    decide +kernel
  exact (keeps_customName_iff hSheet (by decide)
    (by decide +kernel)).mpr (by decide)

/- A name with a digit behind a hyphen is not. -/
theorem not_keeps_customName :
    ¬ ∀ (sheet name : Text) (front back : List Segment),
      segments sheet = front ++ (name.map .code ++ back) →
      isCustomName name = true →
      (scannerAt (front.flatMap Segment.source)
        (name ++ back.flatMap Segment.source)).inCalc =
          true →
      ∃ before after,
        Counterpart sheet front (name.map .code ++ back)
          before (name.map .code ++ after) := by
  intro hKeeps
  have hSheet :
      segments "a\x7bwidth:calc(var(--a-1))\x7d".toList =
        "a\x7bwidth:calc(var(".toList.map .code ++
          ("--a-1".toList.map .code ++
            "))\x7d".toList.map .code) := by
    decide +kernel
  have hLayout :
      segments
          (prettify
            "a\x7bwidth:calc(var(--a-1))\x7d".toList) =
        "a \x7b\n\twidth: calc(var(".toList.map .code ++
          .code '-' ::
            "-a - 1));\n\x7d\n".toList.map .code := by
    decide +kernel
  rcases hKeeps _ _ _ _ hSheet (by decide)
      (by decide +kernel) with
    ⟨before, after, hPart⟩
  have hSame := hPart.segments_eq.symm.trans hLayout
  have hFront :=
    append_cancel_said rfl (by decide) hSame
      (hPart.said_before.trans (by decide))
  rw [hFront, List.append_cancel_left_eq] at hSame
  simp at hSame

end Stylesheet

end WebTidy
