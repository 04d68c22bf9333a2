import Mathlib.Tactic.Simps.Basic
import WebTidy.Proofs.Stylesheet.Segment

/-
  Settled scanners.

  Between two characters that are no blanks, the scanner is
  settled: what it has written is final, except for the
  blanks at the end, its trail, which the next character may
  replace.  Reading blanks of code only changes the trail.

  Key definitions include:
    * `WebTidy.Stylesheet.Scanner.core`
    * `WebTidy.Stylesheet.Scanner.Settled`
    * `WebTidy.Stylesheet.Scanner.gap`
    * `WebTidy.Stylesheet.Scanner.pass`

  Key theorems include:
    * `WebTidy.Stylesheet.Scanner.settled_of_tight`
    * `WebTidy.Stylesheet.Scanner.settled_of_loose`
    * `WebTidy.Stylesheet.Scanner.run_blanks`
-/

------------------------------------------------------------
-- Final Output And Its Trail
------------------------------------------------------------

namespace WebTidy

namespace Stylesheet

namespace Scanner

/- What is written up to the last character but blanks. -/
def core
    (s : Scanner) :
    Text :=
  s.written.dropWhile isBlank

/- The blanks written last. -/
def trail
    (s : Scanner) :
    Text :=
  (s.written.takeWhile isBlank).reverse

/- The last character written that is no blank. -/
def final?
    (s : Scanner) :
    Option Char :=
  s.core.head?

/- The final part and the trail are all that is written. -/
theorem written_eq
    (s : Scanner) :
    s.written = s.trail.reverse ++ s.core := by
  simp [trail, core]

/- The last character of the final part. -/
@[simp] theorem last?_trimmed
    (s : Scanner) :
    s.trimmed.last? = s.final? := by
  rfl

/- The trail consists of blanks. -/
theorem all_trail
    (s : Scanner) :
    s.trail.all isBlank = true := by
  simp [trail]

/- The final part does not end with a blank. -/
theorem isBlank_of_final?
    {s : Scanner}
    {c : Char}
    (h : s.final? = some c) :
    isBlank c = false := by
  exact isBlank_last_trimmed s c h

/- The parts of an output whose end is known. -/
theorem core_eq_and_trail_eq
    {s : Scanner}
    {base tail : Text}
    (hWritten : s.written = tail.reverse ++ base)
    (hTail : tail.all isBlank = true)
    (hBase : base.head?.all (!isBlank ·) = true) :
    s.core = base ∧ s.trail = tail := by
  have hBlank : ∀ c ∈ tail.reverse, isBlank c = true := by
    simpa using hTail
  have hDrop : base.dropWhile isBlank = base := by
    cases base with
    | nil => rfl
    | cons c rest =>
        rw [List.dropWhile_cons_of_neg]
        simpa using hBase
  have hTake : base.takeWhile isBlank = [] := by
    cases base with
    | nil => rfl
    | cons c rest =>
        rw [List.takeWhile_cons_of_neg]
        simpa using hBase
  rw [core, trail, hWritten]
  rw [List.dropWhile_append_of_pos hBlank, hDrop,
    List.takeWhile_append_of_pos hBlank, hTake]
  simp

end Scanner

end Stylesheet

end WebTidy

------------------------------------------------------------
-- Settled Scanners
------------------------------------------------------------

namespace WebTidy

namespace Stylesheet

/- Characters after which blanks are dropped. -/
def isJoint
    (c : Char) :
    Bool :=
  c = '{' ∨ c = '}' ∨ c = ';' ∨ c = ',' ∨ c = ':' ∨
    isOperator c

namespace Scanner

/-
  A scanner that has just read a character of code that is
  no blank, or nothing.  Blanks are only written ahead of
  the next character where following blanks are dropped.
  A semicolon at the end of the final part leaves no trace
  of the declaration that it ends.
-/
structure Settled
    (s : Scanner) :
    Prop where
  before : s.before = s.final?
  tight : s.skipping = false → s.trail = []
  joint : s.skipping = true → s.final?.any isJoint = true
  bare :
    s.skipping = true → s.trail = [] →
      s.final? = some ':' ∨ s.final? = some '}'
  value :
    s.inValue = true →
      s.final? ≠ none ∧ s.trail.getLast? ≠ some '\n'
  ended :
    s.final? = some ';' →
      s.context = .code ∧ s.skipping = true ∧
      s.inValue = false ∧ s.parens = none ∧
      s.trail = ['\n']

/- A new scanner is settled. -/
theorem settled_new :
    Settled {} := by
  constructor <;> simp [final?, core, trail]

/- Inside a value no semicolon stands at the end. -/
theorem Settled.final?_ne_semicolon
    {s : Scanner}
    (hs : Settled s)
    (hValue : s.inValue = true) :
    s.final? ≠ some ';' := by
  intro hFinal
  have hNot := (hs.ended hFinal).2.2.1
  rw [hValue] at hNot
  cases hNot

/- Settled after a character that keeps blanks. -/
theorem settled_of_tight
    {s : Scanner}
    {c : Char}
    {base : Text}
    (hWritten : s.written = c :: base)
    (hBefore : s.before = some c)
    (hSkip : s.skipping = false)
    (hc : isBlank c = false)
    (hSemicolon : c ≠ ';') :
    s.core = c :: base ∧ Settled s := by
  have hParts : s.core = c :: base ∧ s.trail = [] := by
    apply core_eq_and_trail_eq _ rfl (by simp [hc])
    exact hWritten
  have hFinal : s.final? = some c := by
    rw [final?, hParts.1]
    rfl
  refine ⟨hParts.1, ?_⟩
  constructor
  · rw [hBefore, hFinal]
  · intro _
    exact hParts.2
  · simp [hSkip]
  · simp [hSkip]
  · simp [hFinal, hParts.2]
  · simp [hFinal, hSemicolon]

/-
  Settled after a character that drops blanks.  Behind it
  stand a space or a line feed that the scanner wrote, or
  nothing after a colon or a close brace.
-/
theorem settled_of_loose
    {s : Scanner}
    {c : Char}
    {base : Text}
    (tail : Text)
    (hWritten : s.written = tail.reverse ++ c :: base)
    (hBefore : s.before = some c)
    (hSkip : s.skipping = true)
    (hJoint : isBlank c = false ∧ isJoint c = true)
    (hTail : tail.all isBlank = true)
    (hBare : tail = [] → c = ':' ∨ c = '}')
    (hValue :
      s.inValue = true → tail.getLast? ≠ some '\n')
    (hEnded :
      c = ';' →
        s.context = .code ∧ s.inValue = false ∧
        s.parens = none ∧ tail = ['\n']) :
    s.core = c :: base ∧ Settled s := by
  have hParts : s.core = c :: base ∧ s.trail = tail :=
    core_eq_and_trail_eq hWritten hTail (by simp [hJoint.1])
  have hFinal : s.final? = some c := by
    rw [final?, hParts.1]
    rfl
  refine ⟨hParts.1, ?_⟩
  constructor
  · rw [hBefore, hFinal]
  · simp [hSkip]
  · simp [hFinal, hJoint.2]
  · simpa [hSkip, hFinal, hParts.2] using hBare
  · simpa [hFinal, hParts.2] using hValue
  · simpa [hSkip, hFinal, hParts.2] using hEnded

end Scanner

end Stylesheet

end WebTidy

------------------------------------------------------------
-- Blanks Of Code
------------------------------------------------------------

namespace WebTidy

namespace Stylesheet

/- A run of blanks up to its first line feed. -/
def throughLine :
    Text → Text
| [] => []
| c :: rest =>
    if c = '\n' then [c] else c :: throughLine rest

/- Reading on after a line feed adds nothing more. -/
theorem throughLine_concat
    (t : Text)
    (c : Char) :
    throughLine (t ++ [c]) =
      if (throughLine t).getLast? = some '\n' then
        throughLine t
      else throughLine t ++ [c] := by
  induction t with
  | nil =>
      by_cases hc : c = '\n' <;> simp [throughLine, hc]
  | cons d rest ih =>
      by_cases hd : d = '\n'
      · simp [throughLine, hd]
      · rw [List.cons_append, throughLine, if_neg hd, ih,
          throughLine, if_neg hd]
        cases hRest : throughLine rest with
        | nil => simp [hd]
        | cons e more =>
            rw [List.getLast?_cons_cons]
            split <;> rfl

namespace Scanner

/- The trail of a settled scanner after blanks of code. -/
def gap
    (s : Scanner)
    (blanks : Text) :
    Text :=
  if s.skipping then s.trail
  else if s.inValue then
    if blanks = [] ∨ s.final? = some '(' then [] else [' ']
  else if s.final? = none then []
  else throughLine blanks

/- A settled scanner after blanks of code. -/
@[simps before context skipping depth inBlock inValue
  inGroup parens]
def pass
    (s : Scanner)
    (blanks : Text) :
    Scanner :=
  { s with
    written := (s.gap blanks).reverse ++ s.core
    before := blanks.getLast?.or s.before }

/- The last character after blanks of code. -/
@[simp] theorem last?_pass
    (s : Scanner)
    (blanks : Text) :
    (s.pass blanks).last? =
      (s.gap blanks).getLast?.or s.final? := by
  simp [last?, pass, final?, List.head?_append]

/- Passing no blank is standing still. -/
theorem pass_nil
    {s : Scanner}
    (hs : Settled s) :
    s.pass [] = s := by
  have hGap : s.gap [] = s.trail := by
    unfold gap
    split
    · rfl
    · rename_i hSkip
      rw [hs.tight (by simpa using hSkip)]
      simp [throughLine]
  rw [pass, hGap, ← written_eq]
  rfl

/- A blank of code is read as any other plain character. -/
theorem readCode_blank
    (s : Scanner)
    {c : Char}
    (rest : Text)
    (hc : isBlank c = true) :
    s.readCode c rest =
      { s with skipping := false }.readPlain c rest := by
  simp only [isBlank, decide_eq_true_eq] at hc
  rcases hc with rfl | rfl | rfl | rfl | rfl <;>
    simp [readCode, trackGroup]

/- The word calc begins with its first letter. -/
theorem beginsWith_calc
    {c : Char}
    (rest : Text)
    (hLetter : c.toLower ≠ 'c') :
    Text.beginsWith "calc(".toList (c :: rest) = false := by
  change
    Text.beginsWith ('c' :: "alc(".toList) (c :: rest) = false
  rw [Text.beginsWith_cons]
  have hWord : ¬ c.toLower = 'c'.toLower := hLetter
  rw [decide_eq_false hWord, Bool.false_and]

/- Only parentheses and the word calc are counted. -/
theorem trackCalc_eq_self
    (s : Scanner)
    {c : Char}
    (rest : Text)
    (hLetter : c.toLower ≠ 'c')
    (hOpen : c ≠ '(')
    (hClose : c ≠ ')') :
    s.trackCalc c rest = s := by
  simp only [trackCalc, beginsWith_calc rest hLetter,
    Bool.false_eq_true, and_false, if_false, hOpen, hClose]

/- A blank of a value is written as one space at most. -/
theorem readValue_pass
    {s : Scanner}
    (hs : Settled s)
    (hSkip : s.skipping = false)
    (hValue : s.inValue = true)
    (seen rest : Text)
    {c : Char}
    (hc : isBlank c = true) :
    (s.pass seen).readValue c rest =
      { s.pass (seen ++ [c]) with
        before := (s.pass seen).before } := by
  have hTrack :
      (s.pass seen).trackCalc c rest = s.pass seen := by
    simp only [isBlank, decide_eq_true_eq] at hc
    rcases hc with rfl | rfl | rfl | rfl | rfl <;>
      exact trackCalc_eq_self _ _ (by decide) (by decide)
        (by decide)
  have hOperator : isOperator c = false := by
    simp only [isBlank, decide_eq_true_eq] at hc
    rcases hc with rfl | rfl | rfl | rfl | rfl <;> rfl
  have hRead :
      (s.pass seen).readValue c rest =
        if (s.pass seen).takesSpace then
          (s.pass seen).write [' ']
        else s.pass seen := by
    rw [readValue, hTrack]
    simp [hOperator, hc]
  rcases Option.ne_none_iff_exists'.mp (hs.value hValue).1
    with ⟨d, hd⟩
  have hBlank := isBlank_of_final? hd
  have hSpace : d ≠ ' ' := by
    rintro rfl
    cases hBlank
  have hLine : d ≠ '\n' := by
    rintro rfl
    cases hBlank
  rw [hRead, takesSpace, last?_pass, hd]
  by_cases hSeen : seen = []
  · by_cases hOpen : d = '('
    · simp [gap, pass, hSkip, hValue, hd, hOpen]
    · simp [gap, pass, write, hSkip, hValue, hd, hSeen,
        hOpen, hSpace, hLine]
  · by_cases hOpen : d = '('
    · simp [gap, pass, hSkip, hValue, hd, hOpen]
    · simp [gap, pass, hSkip, hValue, hd, hSeen, hOpen]

/-
  A blank outside values is written as it is, unless it
  starts a line.
-/
theorem readLayout_pass
    {s : Scanner}
    (hSkip : s.skipping = false)
    (hValue : s.inValue = false)
    (seen : Text)
    (c : Char) :
    (if (s.pass seen).atLineStart then s.pass seen
      else (s.pass seen).put c) =
      { s.pass (seen ++ [c]) with
        before := (s.pass seen).before } := by
  cases hFinal : s.final? with
  | none =>
      rw [atLineStart, last?_pass]
      simp [gap, pass, hSkip, hValue, hFinal]
  | some d =>
      have hBlank := isBlank_of_final? hFinal
      have hLine : d ≠ '\n' := by
        rintro rfl
        cases hBlank
      have hGap (t : Text) : s.gap t = throughLine t := by
        simp [gap, hSkip, hValue, hFinal]
      rw [atLineStart, put, last?_pass, hGap, hFinal]
      by_cases hEnd :
          (throughLine seen).getLast? = some '\n'
      · simp [pass, hGap, throughLine_concat, hEnd]
      · have hNot :
            (throughLine seen).getLast?.getD d ≠ '\n' := by
          cases hLast : (throughLine seen).getLast? with
          | none => simpa using hLine
          | some e => simpa [hLast] using hEnd
        simp [pass, write, hGap, throughLine_concat, hEnd,
          hNot]

/- One more blank of code. -/
theorem step_pass
    {s : Scanner}
    (hs : Settled s)
    (hCode : s.context = .code)
    (seen rest : Text)
    {c : Char}
    (hc : isBlank c = true) :
    (s.pass seen).step c rest = s.pass (seen ++ [c]) := by
  have hContext : (s.pass seen).context = .code := hCode
  cases hSkip : s.skipping with
  | true =>
      simp [step, read, pass, gap, hCode, hSkip, hc]
  | false =>
      have hPassSkip : (s.pass seen).skipping = false := hSkip
      have hRead :
          (s.pass seen).read c rest =
            (s.pass seen).readPlain c rest := by
        rw [read, hContext]
        simp only [hPassSkip, Bool.false_eq_true, false_and,
          if_false]
        rw [readCode_blank _ _ hc]
        simp [pass, hSkip]
      rw [step, hRead, readPlain]
      cases hValue : s.inValue with
      | true =>
          have hPassValue : (s.pass seen).inValue = true :=
            hValue
          rw [if_pos hPassValue,
            readValue_pass hs hSkip hValue _ _ hc]
          simp [pass]
      | false =>
          have hPassValue :
              ¬ (s.pass seen).inValue = true := by
            simp [pass, hValue]
          rw [if_neg hPassValue]
          simp only [hc, true_and]
          rw [readLayout_pass hSkip hValue]
          simp [pass]

/- Reading blanks of code. -/
theorem run_blanks
    {s : Scanner}
    (hs : Settled s)
    (hCode : s.context = .code)
    {blanks : Text}
    (hBlanks : blanks.all isBlank = true)
    (rest : Text) :
    run s (blanks ++ rest) = run (s.pass blanks) rest := by
  have hFrom :
      ∀ seen,
        run (s.pass seen) (blanks ++ rest) =
          run (s.pass (seen ++ blanks)) rest := by
    induction blanks with
    | nil => simp
    | cons c more ih =>
        intro seen
        simp only [List.all_cons, Bool.and_eq_true]
          at hBlanks
        rw [List.cons_append, run,
          step_pass hs hCode _ _ hBlanks.1,
          ih hBlanks.2]
        simp
  have hStart := hFrom []
  rw [pass_nil hs, List.nil_append] at hStart
  exact hStart

end Scanner

end Stylesheet

end WebTidy
