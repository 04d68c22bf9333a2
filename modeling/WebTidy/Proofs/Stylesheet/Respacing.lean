import Mathlib.Logic.Relation
import WebTidy.Proofs.Stylesheet.Lookahead
import WebTidy.Proofs.Stylesheet.View

/-
  The layout of a style sheet does not depend on its
  spacing.

  Blanks beside a brace, a semicolon, a comma or a colon
  outside values may come and go, and so may blanks at both
  ends.  Blanks inside a value may be any other blanks.  The
  semicolon in front of a close brace may be left out.

  Key definitions include:
    * `WebTidy.Stylesheet.Scanner.through`
    * `WebTidy.Stylesheet.Scanner.isHinge`
    * `WebTidy.Stylesheet.Respaced`

  Key theorems include:
    * `WebTidy.Stylesheet.Scanner.through_alike`
    * `WebTidy.Stylesheet.Scanner.through_blanks_calm`
    * `WebTidy.Stylesheet.Scanner.step_hinge`
    * `WebTidy.Stylesheet.Respaced.prettify_eq`
    * `WebTidy.Stylesheet.prettify_respaced`
-/

------------------------------------------------------------
-- Spacing
------------------------------------------------------------

namespace WebTidy

namespace Stylesheet

namespace Scanner

/- A scanner that has read a text in front of another. -/
def through :
    Scanner → Text → Text → Scanner
| s, [], _ => s
| s, c :: front, rest =>
    through (s.step c (front ++ rest)) front rest

/- A character of code beside which blanks do not matter. -/
def isHinge
    (s : Scanner)
    (c : Char) :
    Bool :=
  s.context = .code ∧
    (c = '{' ∨ c = '}' ∨ c = ';' ∨ c = ',' ∨
      c = ':' ∧ s.inValue = false)

/- A scanner that reads code inside a property value. -/
def readsValue
    (s : Scanner) :
    Bool :=
  s.context = .code ∧ s.inValue

end Scanner

/- The scanner at a place inside a style sheet. -/
def scannerAt
    (front rest : Text) :
    Scanner :=
  Scanner.through {} front rest

/-
  Two style sheets that differ in one edit of the spacing.
  Where a condition looks at the scanner, it is the one that
  reads the first style sheet.
-/
inductive Respaced :
    Text → Text → Prop
| ahead
    {front blanks others rest : Text}
    {c : Char}
    (hBlanks : blanks.all isBlank = true)
    (hOthers : others.all isBlank = true)
    (hHinge :
      (scannerAt (front ++ blanks) (c :: rest)).isHinge c =
        true) :
    Respaced (front ++ blanks ++ c :: rest)
      (front ++ others ++ c :: rest)
| behind
    {front blanks others rest : Text}
    {c : Char}
    (hBlanks : blanks.all isBlank = true)
    (hOthers : others.all isBlank = true)
    (hHinge :
      (scannerAt front (c :: (blanks ++ rest))).isHinge c =
        true) :
    Respaced (front ++ c :: (blanks ++ rest))
      (front ++ c :: (others ++ rest))
| inside
    {front blanks others rest : Text}
    (hBlanks : blanks.all isBlank = true)
    (hOthers : others.all isBlank = true)
    (hSome : blanks ≠ [])
    (hOther : others ≠ [])
    (hValue :
      (scannerAt front (blanks ++ rest)).readsValue = true) :
    Respaced (front ++ (blanks ++ rest))
      (front ++ (others ++ rest))
| start
    {blanks others rest : Text}
    (hBlanks : blanks.all isBlank = true)
    (hOthers : others.all isBlank = true) :
    Respaced (blanks ++ rest) (others ++ rest)
| finish
    {front blanks others : Text}
    (hBlanks : blanks.all isBlank = true)
    (hOthers : others.all isBlank = true)
    (hCode :
      (scannerAt (front ++ blanks) []).context = .code) :
    Respaced (front ++ blanks) (front ++ others)
| semicolon
    {front rest : Text}
    (hValue :
      (scannerAt front ('}' :: rest)).readsValue = true) :
    Respaced (front ++ '}' :: rest)
      (front ++ ';' :: '}' :: rest)
| noSemicolon
    {front rest : Text}
    (hValue :
      (scannerAt front (';' :: '}' :: rest)).readsValue =
        true) :
    Respaced (front ++ ';' :: '}' :: rest)
      (front ++ '}' :: rest)

end Stylesheet

end WebTidy

------------------------------------------------------------
-- Reading In Two Parts
------------------------------------------------------------

namespace WebTidy

namespace Stylesheet

namespace Scanner

/- Reading a text is reading its two parts. -/
theorem run_append
    (s : Scanner)
    (front rest : Text) :
    run s (front ++ rest) =
      run (s.through front rest) rest := by
  induction front generalizing s with
  | nil => rfl
  | cons c front ih =>
      rw [List.cons_append, run, ih]
      rfl

/- Reading the first part in two parts. -/
theorem through_append
    (s : Scanner)
    (front more rest : Text) :
    s.through (front ++ more) rest =
      (s.through front (more ++ rest)).through more rest := by
  induction front generalizing s with
  | nil => rfl
  | cons c front ih =>
      rw [List.cons_append, through, ih, List.append_assoc]
      rfl

end Scanner

end Stylesheet

end WebTidy

------------------------------------------------------------
-- What Is Seen Ahead
------------------------------------------------------------

namespace WebTidy

namespace Stylesheet

/- Characters that end every word and every operator. -/
def isSeparator
    (c : Char) :
    Bool :=
  isBlank c ∨ c = '{' ∨ c = '}' ∨ c = ';' ∨ c = ',' ∨
    c = ':'

/-
  Two texts that begin with separators and look alike to the
  scanner from anywhere in front of them.
-/
structure Alike
    (t u : Text) :
    Prop where
  selector : selectorAhead t = selectorAhead u
  blank : t.all isBlank = u.all isBlank
  first : t.head?.all isSeparator = true
  other : u.head?.all isSeparator = true

/- A class without separators is seen ahead in both. -/
theorem Alike.head?_any
    {t u : Text}
    (h : Alike t u)
    {p : Char → Bool}
    (hp : ∀ c, isSeparator c = true → p c = false)
    (k : Text) :
    (k ++ t).head?.any p = (k ++ u).head?.any p := by
  have hNone {v : Text}
      (hFirst : v.head?.all isSeparator = true) :
      v.head?.any p = false := by
    cases v with
    | nil => rfl
    | cons c rest => exact hp c hFirst
  cases k with
  | nil =>
      rw [List.nil_append, List.nil_append, hNone h.first,
        hNone h.other]
  | cons c k => rfl

/- The separators, one by one. -/
theorem mem_of_isSeparator
    {c : Char}
    (h : isSeparator c = true) :
    c ∈ " \t\n\r\x0c\x7b\x7d;,:".toList := by
  simp only [isSeparator, isBlank, decide_eq_true_eq] at h
  simp
  grind

/- No separator belongs to a class that holds none. -/
theorem eq_false_of_isSeparator
    {p : Char → Bool}
    (hp : (" \t\n\r\x0c\x7b\x7d;,:".toList.all fun c => !p c) = true)
    (c : Char)
    (h : isSeparator c = true) :
    p c = false := by
  have hNot :=
    List.all_eq_true.mp hp c (mem_of_isSeparator h)
  simpa using hNot

/- So is a character other than a separator. -/
theorem Alike.head?_eq
    {t u : Text}
    (h : Alike t u)
    {d : Char}
    (hd : isSeparator d = false)
    (k : Text) :
    (k ++ t).head? = some d ↔ (k ++ u).head? = some d := by
  have hAny :=
    h.head?_any (p := (· == d))
      (by
        intro c hc
        rw [beq_eq_false_iff_ne]
        rintro rfl
        rw [hc] at hd
        cases hd)
      k
  rw [Bool.eq_iff_iff, Option.any_eq_true,
    Option.any_eq_true] at hAny
  simpa using hAny

/- So is a mark without separators. -/
theorem Alike.beginsWith_eq
    {t u mark : Text}
    (h : Alike t u)
    (hMark :
      ∀ m ∈ mark, ∀ c, isSeparator c = true →
        c.toLower ≠ m.toLower)
    (k : Text) :
    Text.beginsWith mark (k ++ t) =
      Text.beginsWith mark (k ++ u) := by
  induction mark generalizing k with
  | nil => rfl
  | cons m mark ih =>
      have hNone {v : Text}
          (hFirst : v.head?.all isSeparator = true) :
          Text.beginsWith (m :: mark) v = false := by
        cases v with
        | nil => rfl
        | cons c rest =>
            rw [Text.beginsWith_cons,
              decide_eq_false (hMark m (by simp) c hFirst),
              Bool.false_and]
      cases k with
      | nil =>
          rw [List.nil_append, List.nil_append,
            hNone h.first, hNone h.other]
      | cons c k =>
          rw [List.cons_append, List.cons_append,
            Text.beginsWith_cons, Text.beginsWith_cons, ih]
          intro m hm
          exact hMark m (by simp [hm])

/- A common start, up to a separator, looks alike. -/
theorem alike_append
    {k t u : Text}
    (hk : k ≠ [])
    (hFirst : k.head?.all isSeparator = true)
    (hSelector : selectorAhead t = selectorAhead u)
    (hBlank : t.all isBlank = u.all isBlank) :
    Alike (k ++ t) (k ++ u) := by
  rcases List.exists_cons_of_ne_nil hk with ⟨c, more, rfl⟩
  refine ⟨selectorAhead_append_congr _ hSelector, ?_, hFirst,
    hFirst⟩
  rw [List.all_append, List.all_append, hBlank]

/- Blanks in front of a separator look alike. -/
theorem alike_blanks
    {blanks others rest : Text}
    (hBlanks : blanks.all isBlank = true)
    (hOthers : others.all isBlank = true)
    (hRest :
      blanks = [] ∨ others = [] →
        rest.head?.all isSeparator = true) :
    Alike (blanks ++ rest) (others ++ rest) := by
  have hFirst {t : Text}
      (ht : t.all isBlank = true)
      (hNil : t = [] → rest.head?.all isSeparator = true) :
      (t ++ rest).head?.all isSeparator = true := by
    cases t with
    | nil => exact hNil rfl
    | cons c more =>
        have hc := List.all_eq_true.mp ht c (by simp)
        simp [isSeparator, hc]
  constructor
  · rw [selectorAhead_blanks _ hBlanks,
      selectorAhead_blanks _ hOthers]
  · rw [List.all_append, List.all_append, hBlanks, hOthers]
  · exact hFirst hBlanks (fun h => hRest (Or.inl h))
  · exact hFirst hOthers (fun h => hRest (Or.inr h))

namespace Scanner

/- A step does not tell apart what looks alike ahead. -/
theorem step_alike
    {t u : Text}
    (h : Alike t u)
    (s : Scanner)
    (c : Char)
    (k : Text) :
    s.step c (k ++ t) = s.step c (k ++ u) := by
  have hStar : (k ++ t).head? = some '*' ↔
      (k ++ u).head? = some '*' :=
    h.head?_eq rfl k
  have hDash : (k ++ t).head? = some '-' ↔
      (k ++ u).head? = some '-' :=
    h.head?_eq rfl k
  have hIdent :
      (k ++ t).head?.any isIdentStart =
        (k ++ u).head?.any isIdentStart :=
    h.head?_any (eq_false_of_isSeparator (by decide)) k
  have hSelector :
      selectorAhead (k ++ t) = selectorAhead (k ++ u) :=
    selectorAhead_append_congr k h.selector
  have hBlank :
      (k ++ t).all isBlank = (k ++ u).all isBlank := by
    rw [List.all_append, List.all_append, h.blank]
  have hLetters :
      ("calc(".toList.all fun m =>
        " \t\n\r\x0c\x7b\x7d;,:".toList.all fun c =>
          !(c.toLower == m.toLower)) = true := by
    decide
  have hCalc :
      Text.beginsWith "calc(".toList (c :: (k ++ t)) =
        Text.beginsWith "calc(".toList (c :: (k ++ u)) := by
    apply h.beginsWith_eq (k := c :: k)
    intro m hm d hd
    have hNot :=
      eq_false_of_isSeparator
        (List.all_eq_true.mp hLetters m hm) d hd
    simpa using hNot
  simp only [step, read, readCode, closeBlock, readColon,
    readPlain, readValue, readOperator, trackCalc, isHyphen,
    hStar, hDash, hIdent, hSelector, hBlank, hCalc]

/- Neither does reading up to there. -/
theorem through_alike
    {t u : Text}
    (h : Alike t u)
    (s : Scanner)
    (front : Text) :
    s.through front t = s.through front u := by
  induction front generalizing s with
  | nil => rfl
  | cons c front ih =>
      rw [through, through, step_alike h, ih]

end Scanner

end Stylesheet

end WebTidy

------------------------------------------------------------
-- Blanks Leave No Trace
------------------------------------------------------------

namespace WebTidy

namespace Stylesheet

namespace Scanner

/-
  What a scanner remembers where blanks do not matter: not
  the blanks at the end of its output, nor whether it skips
  blanks, nor the last character read.
-/
def calm
    (s : Scanner) :
    Scanner :=
  { s.trimmed with before := none, skipping := false }

/- Writing blanks leaves no trace. -/
theorem calm_write
    (s : Scanner)
    {t : Text}
    (ht : t.all isBlank = true) :
    (s.write t).calm = s.calm := by
  have hBlank : ∀ c ∈ t.reverse, isBlank c = true := by
    simpa using ht
  simp only [calm, trimmed, write,
    List.dropWhile_append_of_pos hBlank]

/- A blank of code leaves no trace. -/
theorem step_blank_calm
    {s : Scanner}
    {c : Char}
    (rest : Text)
    (hCode : s.context = .code)
    (hc : isBlank c = true) :
    (s.step c rest).calm = s.calm := by
  have hBefore (t : Scanner) :
      ({ t with before := some c } : Scanner).calm =
        t.calm := rfl
  have hAttend :
      ({ s with skipping := false } : Scanner).calm =
        s.calm := rfl
  have hValue (t : Scanner) :
      (t.readValue c rest).calm = t.calm := by
    have hTrack : t.trackCalc c rest = t := by
      simp only [isBlank, decide_eq_true_eq] at hc
      rcases hc with rfl | rfl | rfl | rfl | rfl <;>
        exact trackCalc_eq_self _ _ (by decide) (by decide)
          (by decide)
    have hOperator : isOperator c = false := by
      simp only [isBlank, decide_eq_true_eq] at hc
      rcases hc with rfl | rfl | rfl | rfl | rfl <;> rfl
    simp only [readValue, hTrack, hOperator, hc,
      Bool.false_eq_true, and_false, if_false, if_true]
    split
    · exact calm_write t rfl
    · rfl
  have hPut (t : Scanner) : (t.put c).calm = t.calm := by
    unfold put
    split
    · apply calm_write
      rw [List.all_append, List.all_cons, hc]
      simp [tabs, isBlank]
    · apply calm_write
      simp [hc]
  rw [step, hBefore, read, hCode]
  simp only
  split
  · rfl
  · rw [readCode_blank s rest hc, readPlain]
    split
    · rw [hValue, hAttend]
    · split
      · exact hAttend
      · rw [hPut, hAttend]

/- The context of a scanner is part of what it remembers. -/
theorem context_of_calm
    {s t : Scanner}
    (h : s.calm = t.calm) :
    s.context = t.context ∧ s.inValue = t.inValue := by
  have hContext := congrArg Scanner.context h
  have hValue := congrArg Scanner.inValue h
  exact ⟨hContext, hValue⟩

/- Blanks of code leave no trace. -/
theorem through_blanks_calm
    {s : Scanner}
    {blanks : Text}
    (rest : Text)
    (hCode : s.context = .code)
    (hBlanks : blanks.all isBlank = true) :
    (s.through blanks rest).calm = s.calm := by
  induction blanks generalizing s with
  | nil => rfl
  | cons c more ih =>
      simp only [List.all_cons, Bool.and_eq_true] at hBlanks
      have hStep :=
        step_blank_calm (more ++ rest) hCode hBlanks.1
      rw [through, ih _ hBlanks.2, hStep]
      rw [(context_of_calm hStep).1, hCode]

/- The semicolon that the last declaration lacks. -/
def lacking
    (s : Scanner) :
    Text :=
  if s.final? = some ';' then [] else [';']

/-
  A scanner after a hinge.  Nothing in it depends on blanks
  in front of the hinge.
-/
def turn
    (s : Scanner)
    (c : Char)
    (rest : Text) :
    Scanner :=
  if c = '{' then
    { s.lay [' ', '{'] ['\n'] with
      skipping := true
      depth := s.depth + 1
      inBlock := true
      inValue := false
      inGroup := false
      parens := none }
  else if c = '}' then
    if s.inValue ∧ s.final? ≠ none then
      s.leave (s.lacking ++ s.closing) rest
    else s.leave s.closing rest
  else if c = ';' then
    { s.lay s.lacking ['\n'] with
      before := some ';'
      skipping := true
      inValue := false
      parens := none }
  else if c = ',' then
    { s.lay [','] [' '] with skipping := true }
  else if s.inGroup ∨ selectorAhead rest then
    { s.lay [':'] [] with skipping := true }
  else
    { s.lay [':'] [' '] with
      skipping := true
      inValue := true }

/- A close brace is read without the blanks before it. -/
theorem step_closeBlock
    {s : Scanner}
    (rest : Text)
    (hCode : s.context = .code) :
    s.step '}' rest = s.turn '}' rest := by
  have hRead :
      s.read '}' rest = s.attend.closeBlock rest := by
    simp [read, hCode, readCode, trackGroup, isBlank, attend]
  simp only [step, hRead, closeBlock, turn, leave, lacking,
    final?]
  generalize rest.all isBlank = blank
  by_cases hValue : s.inValue = true
  · by_cases hNone : s.core.head? = none
    · cases blank <;>
        simp_all [trimmed, last?, write, tabs, core, lay]
    · by_cases hEnd : s.core.head? = some ';'
      · cases blank <;>
          simp_all [trimmed, last?, write, tabs, core, lay,
            terminate]
      · cases blank <;>
          simp_all [trimmed, last?, write, tabs, core, lay,
            terminate, List.getLast?_cons]
  · cases blank <;>
      simp_all [trimmed, last?, write, tabs, core, lay]

/- So is a semicolon. -/
theorem step_semicolon
    {s : Scanner}
    (rest : Text)
    (hCode : s.context = .code) :
    s.step ';' rest = s.turn ';' rest := by
  have hRead : s.read ';' rest = s.attend.endDeclaration := by
    simp [read, hCode, readCode, trackGroup, isBlank, attend]
  simp only [step, hRead, endDeclaration, turn, lacking,
    final?]
  by_cases hEnd : s.core.head? = some ';'
  · simp_all [trimmed, last?, write, core, lay, terminate]
  · simp_all [trimmed, last?, write, core, lay, terminate]

/- So is a colon outside values. -/
theorem step_colon
    {s : Scanner}
    (rest : Text)
    (hCode : s.context = .code)
    (hValue : s.inValue = false) :
    s.step ':' rest = s.turn ':' rest := by
  have hRead : s.read ':' rest = s.attend.readColon rest := by
    simp [read, hCode, hValue, readCode, trackGroup, isBlank,
      attend]
  simp only [step, hRead, readColon, turn]
  by_cases hSelector :
      s.inGroup = true ∨ selectorAhead rest = true
  · simp_all [trimmed, write, core, lay]
  · simp_all [trimmed, write, core, lay]

/- A hinge is read without the blanks before it. -/
theorem step_hinge
    {s : Scanner}
    {c : Char}
    (rest : Text)
    (hHinge : s.isHinge c = true) :
    s.step c rest = s.turn c rest := by
  simp only [isHinge, decide_eq_true_eq] at hHinge
  rcases hHinge with
    ⟨hCode, rfl | rfl | rfl | rfl | ⟨rfl, hValue⟩⟩
  · simp [step, read, hCode, readCode, trackGroup, turn,
      openBlock, trimmed, write, isBlank, lay, core]
  · exact step_closeBlock rest hCode
  · exact step_semicolon rest hCode
  · simp [step, read, hCode, readCode, trackGroup, turn,
      readComma, trimmed, write, isBlank, lay, core]
  · exact step_colon rest hCode hValue

/- The final part is all that is left after trimming. -/
theorem core_calm
    (s : Scanner) :
    s.calm.core = s.core := by
  simp only [core, calm, trimmed, List.dropWhile_idempotent]

/- Nothing after a hinge depends on blanks before it. -/
theorem turn_calm
    (s : Scanner)
    (c : Char)
    (rest : Text) :
    s.calm.turn c rest = s.turn c rest := by
  simp only [turn, leave, lay, closing, lacking, final?,
    core_calm]
  rfl

/- The result is the final part, and a missing semicolon. -/
theorem result_eq
    (s : Scanner) :
    s.result =
      (s.core.reverse ++
        if s.context = .code ∧ s.inValue then s.lacking
        else []).dropWhile isBlank ++ ['\n'] := by
  have hContext : s.trimmed.context = s.context := rfl
  have hValue : s.trimmed.inValue = s.inValue := rfl
  simp only [result, hContext, hValue]
  split
  · simp only [terminate, last?_trimmed, lacking]
    split <;> simp [trimmed, write, core]
  · simp [trimmed, core]

/- Neither does the result depend on blanks at the end. -/
theorem result_of_calm
    {s t : Scanner}
    (h : s.calm = t.calm) :
    s.result = t.result := by
  have hCalm (v : Scanner) : v.calm.result = v.result := by
    simp only [result_eq, lacking, final?, core_calm]
    rfl
  rw [← hCalm s, ← hCalm t, h]

end Scanner

end Stylesheet

end WebTidy

------------------------------------------------------------
-- The Last Character Read
------------------------------------------------------------

namespace WebTidy

namespace Stylesheet

namespace Scanner

/- A scanner with another last character read. -/
def remember
    (s : Scanner)
    (before : Option Char) :
    Scanner :=
  { s with before := before }

/- The view of a scanner that shows it. -/
def rememberView
    (before : Option Char) :
    View where
  output := id
  before := fun _ => before
  last := id
  keeps := Octet.keeps_id
  head?_output := by simp
  dropWhile_output := fun _ => rfl
  output_cons := fun _ _ => rfl

section Remember

variable
  (s : Scanner)
  {p : Option Char}
  (h : p.any isIdentChar = s.before.any isIdentChar)

include h

/-
  A step only asks whether the last character read belongs
  to a name.
-/
theorem step_remember
    (c : Char)
    (rest : Text) :
    (s.remember p).step c rest = s.step c rest := by
  have hRead :
      (s.remember p).read c rest =
        (s.read c rest).remember p :=
    (rememberView p).read_of s (fun _ _ => rfl) rest h rfl
  rw [step, step, hRead]
  rfl

/- So the result does not depend on it otherwise. -/
theorem result_run_remember
    (source : Text) :
    (run (s.remember p) source).result =
      (run s source).result := by
  cases source with
  | nil => exact result_of_calm rfl
  | cons c rest => rw [run, run, step_remember s h]

end Remember

end Scanner

end Stylesheet

end WebTidy

------------------------------------------------------------
-- Blanks That Are Skipped Or Folded
------------------------------------------------------------

namespace WebTidy

namespace Stylesheet

namespace Scanner

/- Blanks do not end with a character of a name. -/
theorem getLast?_any_isIdentChar
    {blanks : Text}
    (hBlanks : blanks.all isBlank = true) :
    blanks.getLast?.any isIdentChar = false := by
  cases hLast : blanks.getLast? with
  | none => rfl
  | some c =>
      have hc : isBlank c = true :=
        List.all_eq_true.mp hBlanks c
          (List.mem_of_getLast? hLast)
      simp only [isBlank, decide_eq_true_eq] at hc
      rcases hc with rfl | rfl | rfl | rfl | rfl <;> rfl

/- Blanks behind a hinge are skipped. -/
theorem through_skipping
    {s : Scanner}
    {blanks : Text}
    (rest : Text)
    (hCode : s.context = .code)
    (hSkip : s.skipping = true)
    (hBlanks : blanks.all isBlank = true) :
    s.through blanks rest =
      s.remember (blanks.getLast?.or s.before) := by
  induction blanks generalizing s with
  | nil => rfl
  | cons c more ih =>
      simp only [List.all_cons, Bool.and_eq_true] at hBlanks
      have hStep :
          s.step c (more ++ rest) = s.remember (some c) := by
        simp [step, read, hCode, hSkip, hBlanks.1, remember]
      rw [through, hStep,
        ih (s := s.remember (some c)) hCode hSkip hBlanks.2]
      cases hLast : more.getLast? <;>
        simp [remember, List.getLast?_cons, hLast]

/- A scanner that has read a blank inside a value. -/
def spaced
    (s : Scanner) :
    Scanner :=
  if s.skipping = false ∧ s.takesSpace then s.write [' ']
  else s

/- A view of that space. -/
theorem View.spaced_of
    (v : View)
    (s : Scanner) :
    (v.of s).spaced = v.of s.spaced := by
  have hSpace : (v.of s).write [' '] = v.of (s.write [' ']) :=
    v.write_of s (by decide) (by simp)
  rw [spaced, spaced, v.takesSpace_of, hSpace, v.of_ite]
  rfl

/- A blank of a value is one space, or none. -/
theorem step_spaced
    {s : Scanner}
    {c : Char}
    (rest : Text)
    (hValue : s.readsValue = true)
    (hc : isBlank c = true) :
    s.step c rest = s.spaced.remember (some c) := by
  simp only [readsValue, decide_eq_true_eq] at hValue
  rcases hValue with ⟨hCode, hInside⟩
  have hTrack : s.trackCalc c rest = s := by
    simp only [isBlank, decide_eq_true_eq] at hc
    rcases hc with rfl | rfl | rfl | rfl | rfl <;>
      exact trackCalc_eq_self _ _ (by decide) (by decide)
        (by decide)
  have hOperator : isOperator c = false := by
    simp only [isBlank, decide_eq_true_eq] at hc
    rcases hc with rfl | rfl | rfl | rfl | rfl <;> rfl
  cases hSkip : s.skipping with
  | true =>
      simp [step, read, hCode, hSkip, hc, spaced, remember]
  | false =>
      have hAttend : { s with skipping := false } = s := by
        rw [← hSkip]
      rw [step, read, hCode]
      simp only [hSkip, Bool.false_eq_true, false_and,
        if_false]
      rw [readCode_blank s rest hc, hAttend, readPlain,
        if_pos hInside, readValue, hTrack, hOperator]
      simp only [Bool.false_eq_true, and_false, if_false, hc,
        if_true, spaced, hSkip, true_and]
      rfl

/- A second blank changes nothing. -/
theorem spaced_remember_spaced
    (s : Scanner)
    (p : Option Char) :
    (s.spaced.remember p).spaced = s.spaced.remember p := by
  by_cases hSpace :
      s.skipping = false ∧ s.takesSpace = true
  · have hSpaced : s.spaced = s.write [' '] := by
      rw [spaced, if_pos hSpace]
    rw [hSpaced, spaced, if_neg]
    rintro ⟨_, hAgain⟩
    simp [takesSpace, remember, last?, write] at hAgain
  · have hSpaced : s.spaced = s := by
      rw [spaced, if_neg hSpace]
    rw [hSpaced, spaced]
    exact if_neg hSpace

/- One space is all that blanks of a value leave. -/
theorem through_spaced
    {s : Scanner}
    {blanks : Text}
    (rest : Text)
    (hValue : s.readsValue = true)
    (hSome : blanks ≠ [])
    (hBlanks : blanks.all isBlank = true) :
    s.through blanks rest =
      s.spaced.remember blanks.getLast? := by
  induction blanks generalizing s with
  | nil => exact absurd rfl hSome
  | cons c more ih =>
      simp only [List.all_cons, Bool.and_eq_true] at hBlanks
      rw [through, step_spaced (more ++ rest) hValue hBlanks.1]
      by_cases hMore : more = []
      · rw [hMore]
        rfl
      · have hNext :
            (s.spaced.remember (some c)).readsValue = true := by
          rw [← hValue, spaced]
          split <;> rfl
        rcases List.exists_cons_of_ne_nil hMore with
          ⟨d, tail, rfl⟩
        rw [ih hNext hMore hBlanks.2, spaced_remember_spaced,
          List.getLast?_cons_cons]
        rfl

end Scanner

end Stylesheet

end WebTidy

------------------------------------------------------------
-- Scanners In The Middle Of A Text
------------------------------------------------------------

namespace WebTidy

namespace Stylesheet

namespace Scanner

/- A scanner that has written more than blanks. -/
def inked
    (s : Scanner) :
    Bool :=
  s.written.any (!isBlank ·)

/- Writing blanks changes nothing. -/
@[simp] theorem inked_write
    (s : Scanner)
    (t : Text) :
    (s.write t).inked = (t.any (!isBlank ·) || s.inked) := by
  simp [inked, write]

/- Taking blanks back changes nothing. -/
@[simp] theorem inked_trimmed
    (s : Scanner) :
    s.trimmed.inked = s.inked := by
  have hSplit :
      s.inked =
        (s.trail.reverse.any (!isBlank ·) ||
          s.core.any (!isBlank ·)) := by
    rw [← List.any_append, ← written_eq, inked]
  have hTrail :
      s.trail.reverse.any (!isBlank ·) = false := by
    simpa using all_trail s
  rw [hSplit, hTrail, Bool.false_or]
  rfl

/- A scanner has written more than blanks at its end. -/
theorem final?_ne_none
    {s : Scanner}
    (h : s.inked = true) :
    s.final? ≠ none := by
  intro hNone
  have hCore : s.core = [] := by
    simpa [final?] using hNone
  have hTrimmed := inked_trimmed s
  simp only [inked, trimmed] at hTrimmed
  rw [core] at hCore
  rw [hCore] at hTrimmed
  rw [inked, ← hTrimmed] at h
  cases h

/-
  A scanner in front of a text, after another one.  A dash
  is followed by a dash, a string ends with a quote, and a
  value has something in front of it.
-/
structure Reached
    (s : Scanner)
    (rest : Text) :
    Prop where
  dash : s.context = .dash → rest.head? = some '-'
  mark :
    ∀ mark escaped,
      s.context = .quoted mark escaped →
        mark = '"' ∨ mark = '\''
  value : s.inValue = true → s.inked = true

/- A new scanner stands in front of any text. -/
theorem reached_new
    (rest : Text) :
    Reached {} rest := by
  constructor
  · intro h
    cases h
  · intro mark escaped h
    cases h
  · intro h
    cases h

/- A scanner of code stands in front of any text. -/
theorem reached_of_code
    {s : Scanner}
    (rest : Text)
    (hCode : s.context = .code)
    (hValue : s.inValue = true → s.inked = true) :
    Reached s rest := by
  constructor
  · simp [hCode]
  · simp [hCode]
  · exact hValue

/- Writing more keeps the place. -/
theorem Reached.write
    {s : Scanner}
    {rest : Text}
    (h : Reached s rest)
    (t : Text) :
    Reached (s.write t) rest := by
  refine ⟨h.dash, h.mark, ?_⟩
  intro hValue
  rw [inked_write, h.value hValue, Bool.or_true]

/- So does taking back blanks. -/
theorem Reached.trimmed
    {s : Scanner}
    {rest : Text}
    (h : Reached s rest) :
    Reached s.trimmed rest := by
  refine ⟨h.dash, h.mark, ?_⟩
  intro hValue
  rw [inked_trimmed, h.value hValue]

/- So does a character with its indentation. -/
theorem Reached.put
    {s : Scanner}
    {rest : Text}
    (h : Reached s rest)
    (c : Char) :
    Reached (s.put c) rest := by
  unfold Scanner.put
  split
  · exact h.write _
  · exact h.write _

/- After a character of a value. -/
theorem reached_readValue
    {s : Scanner}
    (c : Char)
    (rest : Text)
    (hs : Reached s rest) :
    Reached (s.readValue c rest) rest := by
  have hTrack : Reached (s.trackCalc c rest) rest :=
    ⟨hs.dash, hs.mark, hs.value⟩
  simp only [readValue, readOperator]
  generalize s.trackCalc c rest = t at hTrack
  split
  · split
    · rename_i hDash
      refine ⟨fun _ => hDash.2, ?_, (hTrack.write _).value⟩
      intro mark escaped hContext
      cases hContext
    · split
      · exact hTrack.put c
      · have hNext :=
          hTrack.trimmed.write [' ', c, ' ']
        exact ⟨hNext.dash, hNext.mark, hNext.value⟩
  · split
    · split
      · exact hTrack.write _
      · exact hTrack
    · split
      · exact hTrack.trimmed.put c
      · exact hTrack.put c

/- After the start of a comment. -/
theorem reached_openComment
    {s : Scanner}
    {rest : Text} :
    Reached s.openComment rest := by
  refine ⟨by simp [openComment], by simp [openComment], ?_⟩
  intro _
  have hSlash (t : Scanner) : (t.write ['/']).inked = true := by
    simp [isBlank]
  exact hSlash _

/- After a colon. -/
theorem reached_readColon
    {s : Scanner}
    (rest : Text)
    (hCode : s.context = .code) :
    Reached (s.readColon rest) rest := by
  unfold readColon
  simp only
  split
  · refine reached_of_code rest hCode (fun _ => ?_)
    simp [isBlank]
  · refine reached_of_code rest hCode (fun _ => ?_)
    simp [inked, write, isBlank]

/- A close brace keeps the context and ends the value. -/
theorem context_closeBlock
    (s : Scanner)
    (rest : Text) :
    (s.closeBlock rest).context = s.context ∧
      (s.closeBlock rest).inValue = false := by
  simp only [closeBlock, terminate]
  split_ifs <;> exact ⟨rfl, rfl⟩

/- A semicolon keeps the context. -/
theorem context_endDeclaration
    (s : Scanner) :
    s.endDeclaration.context = s.context := by
  simp only [endDeclaration, terminate]
  split <;> rfl

/- After a character of code. -/
theorem reached_readCode
    {s : Scanner}
    (c : Char)
    (rest : Text)
    (hCode : s.context = .code)
    (hValue : s.inValue = true → s.inked = true) :
    Reached (s.readCode c rest) rest := by
  obtain ⟨t, ht⟩ :
      ∃ t, { s.trackGroup c with skipping := false } = t :=
    ⟨_, rfl⟩
  have hTrackCode : t.context = .code := by
    rw [← ht, trackGroup_eq]
    exact hCode
  have hReached : Reached t rest := by
    apply reached_of_code rest hTrackCode
    rw [← ht, trackGroup_eq]
    exact hValue
  have hEnded {u : Scanner}
      (hContext : u.context = t.context)
      (hNot : u.inValue = false) :
      Reached u rest := by
    apply reached_of_code rest (hContext.trans hTrackCode)
    simp [hNot]
  simp only [readCode, ht]
  split
  · exact reached_openComment
  split
  · rename_i hMark
    refine ⟨by simp, ?_, (hReached.put c).value⟩
    intro mark escaped hContext
    cases hContext
    exact hMark
  split
  · exact hEnded rfl rfl
  split
  · exact hEnded (context_closeBlock t rest).1
      (context_closeBlock t rest).2
  split
  · exact hEnded (context_endDeclaration t) rfl
  split
  · have hNext := hReached.trimmed.write [',', ' ']
    exact ⟨hNext.dash, hNext.mark, hNext.value⟩
  split
  · exact reached_readColon rest hTrackCode
  · unfold readPlain
    split
    · exact reached_readValue c rest hReached
    · split
      · exact hReached
      · exact hReached.put c

/- After any character. -/
theorem Reached.step
    {s : Scanner}
    {c : Char}
    {rest : Text}
    (h : Reached s (c :: rest)) :
    Reached (s.step c rest) rest := by
  have hBefore {t : Scanner}
      (ht : Reached t rest) :
      Reached { t with before := some c } rest :=
    ⟨ht.dash, ht.mark, ht.value⟩
  apply hBefore
  have hInked : s.inValue = true → (s.write [c]).inked = true := by
    intro hValue
    rw [inked_write, h.value hValue, Bool.or_true]
  unfold read
  cases hContext : s.context with
  | code =>
      simp only
      split
      · exact reached_of_code rest hContext h.value
      · exact reached_readCode c rest hContext h.value
  | opening => exact ⟨by simp, by simp, hInked⟩
  | comment star =>
      simp only
      refine ⟨?_, ?_, hInked⟩
      · simp only
        split <;> simp
      · simp only
        split <;> simp
  | quoted mark escaped =>
      have hMark := h.mark mark escaped hContext
      refine ⟨?_, ?_, hInked⟩
      · simp only [afterQuoted]
        split_ifs <;> simp
      · simp only [afterQuoted]
        split_ifs <;> simp [hMark]
  | dash => exact reached_of_code rest rfl hInked

/- After any text. -/
theorem Reached.through
    {s : Scanner}
    {front rest : Text}
    (h : Reached s (front ++ rest)) :
    Reached (s.through front rest) rest := by
  induction front generalizing s with
  | nil => exact h
  | cons c front ih => exact ih h.step

/- Blanks that end in code are blanks of code. -/
theorem Reached.context_of_blanks
    {s : Scanner}
    {blanks rest : Text}
    (h : Reached s (blanks ++ rest))
    (hBlanks : blanks.all isBlank = true)
    (hCode : (s.through blanks rest).context = .code) :
    s.context = .code := by
  induction blanks generalizing s with
  | nil => exact hCode
  | cons c more ih =>
      simp only [List.all_cons, Bool.and_eq_true] at hBlanks
      have hNext := ih h.step hBlanks.2 hCode
      have hMark (mark : Char) (hm : isBlank mark = false) :
          c ≠ mark := by
        rintro rfl
        rw [hBlanks.1] at hm
        cases hm
      simp only [Scanner.step, read] at hNext
      cases hContext : s.context with
      | code => rfl
      | opening => simp [hContext] at hNext
      | comment star =>
          simp [hContext, hMark '/' rfl] at hNext
      | quoted mark escaped =>
          have hQuote : isBlank mark = false := by
            rcases h.mark _ _ hContext with rfl | rfl
            · rfl
            · rfl
          have hEnd := hMark mark hQuote
          have hEscape := hMark '\\' rfl
          simp only [hContext, afterQuoted, hEnd, hEscape,
            if_false] at hNext
          split at hNext <;> cases hNext
      | dash =>
          have hDash := h.dash hContext
          rw [List.cons_append, List.head?_cons,
            Option.some_inj] at hDash
          exact absurd hDash (hMark '-' rfl)

end Scanner

/- A scanner at a place inside a style sheet. -/
theorem reached_scannerAt
    (front rest : Text) :
    (scannerAt front rest).Reached rest := by
  exact (Scanner.reached_new _).through

end Stylesheet

end WebTidy

------------------------------------------------------------
-- Edits Of The Spacing
------------------------------------------------------------

namespace WebTidy

namespace Stylesheet

namespace Scanner

/- A hinge is a separator. -/
theorem isSeparator_of_isHinge
    {s : Scanner}
    {c : Char}
    (h : s.isHinge c = true) :
    isSeparator c = true := by
  simp only [isHinge, decide_eq_true_eq] at h
  simp only [isSeparator, decide_eq_true_eq]
  grind

/- Blanks in front of a hinge. -/
theorem step_ahead
    {s t : Scanner}
    {c : Char}
    (rest : Text)
    (hCalm : s.calm = t.calm)
    (hHinge : s.isHinge c = true) :
    s.step c rest = t.step c rest := by
  have hOther : t.isHinge c = true := by
    rw [← hHinge, isHinge, isHinge,
      (context_of_calm hCalm).1, (context_of_calm hCalm).2]
  rw [step_hinge rest hHinge, step_hinge rest hOther,
    ← turn_calm s, ← turn_calm t, hCalm]

/- A hinge looks ahead past blanks. -/
theorem turn_congr
    (s : Scanner)
    (c : Char)
    {t u : Text}
    (hSelector : selectorAhead t = selectorAhead u)
    (hBlank : t.all isBlank = u.all isBlank) :
    s.turn c t = s.turn c u := by
  simp only [turn, leave, hSelector, hBlank]

/- A scanner skips blanks behind a hinge. -/
theorem skipping_turn
    {s : Scanner}
    {c : Char}
    (rest : Text)
    (hHinge : s.isHinge c = true) :
    (s.turn c rest).context = .code ∧
      (s.turn c rest).skipping = true ∧
      (s.turn c rest).before.any isIdentChar = false := by
  simp only [isHinge, decide_eq_true_eq] at hHinge
  rcases hHinge with
    ⟨hCode, rfl | rfl | rfl | rfl | ⟨rfl, hValue⟩⟩
  · exact ⟨hCode, rfl, rfl⟩
  · have hIdent (t : Text) :
        (t ++ s.closing).getLast?.any isIdentChar = false := by
      rw [List.getLast?_append, getLast?_closing]
      rfl
    have hTurn (t : Text) :
        (s.leave (t ++ s.closing) rest).context = .code ∧
          (s.leave (t ++ s.closing) rest).skipping = true ∧
          (s.leave (t ++ s.closing) rest).before.any
            isIdentChar = false :=
      ⟨hCode, rfl, hIdent t⟩
    unfold turn
    simp only [Char.reduceEq, if_false, if_true]
    split
    · exact hTurn s.lacking
    · exact hTurn []
  · exact ⟨hCode, rfl, rfl⟩
  · exact ⟨hCode, rfl, rfl⟩
  · unfold turn
    simp only [Char.reduceEq, if_false]
    split
    · exact ⟨hCode, rfl, rfl⟩
    · exact ⟨hCode, rfl, rfl⟩

/- A semicolon in front of a close brace. -/
theorem turn_semicolon
    {s : Scanner}
    (more rest : Text)
    (hValue : s.inValue = true)
    (hFinal : s.final? ≠ none) :
    (s.turn ';' more).turn '}' rest = s.turn '}' rest := by
  have hHead :
      (s.lacking.reverse ++ s.core).head?.all (!isBlank ·) =
        true := by
    by_cases hEnd : s.final? = some ';'
    · have hCore : s.core.head? = some ';' := hEnd
      rw [lacking, if_pos hEnd, List.reverse_nil,
        List.nil_append, hCore]
      rfl
    · rw [lacking, if_neg hEnd]
      rfl
  have hWritten :
      (s.turn ';' more).written =
        ['\n'].reverse ++ (s.lacking.reverse ++ s.core) := rfl
  have hCore :
      (s.turn ';' more).core = s.lacking.reverse ++ s.core :=
    (core_eq_and_trail_eq hWritten rfl hHead).1
  have hFirst :
      s.turn '}' rest =
        s.leave (s.lacking ++ s.closing) rest := by
    simp [turn, hValue, hFinal]
  have hSecond :
      (s.turn ';' more).turn '}' rest =
        (s.turn ';' more).leave s.closing rest := by
    rfl
  have hLast :
      (s.lacking ++ s.closing).getLast? =
        s.closing.getLast? := by
    rw [List.getLast?_append, getLast?_closing]
    rfl
  have hText :
      s.closing.reverse ++ (s.lacking.reverse ++ s.core) =
        (s.lacking ++ s.closing).reverse ++ s.core := by
    rw [List.reverse_append, List.append_assoc]
  rw [hFirst, hSecond, leave, lay, hCore, hText, ← hLast]
  rfl

/- Blanks at the start are dropped. -/
theorem through_start
    {blanks : Text}
    (rest : Text)
    (hBlanks : blanks.all isBlank = true) :
    through {} blanks rest = remember {} blanks.getLast? := by
  have hFrom (p : Option Char) :
      (remember {} p).through blanks rest =
        remember {} (blanks.getLast?.or p) := by
    induction blanks generalizing p with
    | nil => rfl
    | cons c more ih =>
        simp only [List.all_cons, Bool.and_eq_true]
          at hBlanks
        have hRead :
            (remember {} p).readCode c (more ++ rest) =
              remember {} p := by
          rw [readCode_blank _ _ hBlanks.1]
          simp [readPlain, remember, hBlanks.1, atLineStart,
            last?]
        have hStep :
            (remember {} p).step c (more ++ rest) =
              { (remember {} p).readCode c (more ++ rest) with
                before := some c } := by
          rfl
        rw [through, hStep, hRead]
        have hMore := ih hBlanks.2 (some c)
        simp only [remember] at hMore
        simp only [remember, hMore]
        cases hLast : more.getLast? <;>
          simp [List.getLast?_cons, hLast]
  have hNew := hFrom none
  rw [Option.or_none] at hNew
  exact hNew

/- The result after one of two characters before blanks. -/
theorem result_run_blanks
    (s : Scanner)
    {blanks others : Text}
    (rest : Text)
    (p : Option Char)
    (hp : p.any isIdentChar = false)
    (hBlanks : blanks.all isBlank = true)
    (hOthers : others.all isBlank = true) :
    (run (s.remember (blanks.getLast?.or p)) rest).result =
      (run (s.remember (others.getLast?.or p)) rest).result := by
  have hIdent {t : Text}
      (ht : t.all isBlank = true) :
      (t.getLast?.or p).any isIdentChar = false := by
    have hLast := getLast?_any_isIdentChar ht
    cases hEnd : t.getLast? with
    | none => exact hp
    | some c =>
        rw [hEnd] at hLast
        exact hLast
  apply result_run_remember (s.remember (others.getLast?.or p))
  exact (hIdent hBlanks).trans (hIdent hOthers).symm

end Scanner

/- Reading a style sheet in two parts. -/
theorem prettify_append
    (front rest : Text) :
    prettify (front ++ rest) =
      ((scannerAt front rest).run rest).result := by
  rw [prettify, Scanner.run_append, scannerAt]

/- Blanks in front of a hinge do not change the layout. -/
theorem prettify_ahead
    {front blanks others rest : Text}
    {c : Char}
    (hBlanks : blanks.all isBlank = true)
    (hOthers : others.all isBlank = true)
    (hHinge :
      (scannerAt (front ++ blanks) (c :: rest)).isHinge c =
        true) :
    prettify (front ++ blanks ++ c :: rest) =
      prettify (front ++ others ++ c :: rest) := by
  have hFirst : (c :: rest).head?.all isSeparator = true :=
    Scanner.isSeparator_of_isHinge hHinge
  have hFront :
      scannerAt front (blanks ++ c :: rest) =
        scannerAt front (others ++ c :: rest) :=
    Scanner.through_alike
      (alike_blanks hBlanks hOthers (fun _ => hFirst)) _ _
  have hSplit (t : Text) :
      scannerAt (front ++ t) (c :: rest) =
        (scannerAt front (t ++ c :: rest)).through t
          (c :: rest) := by
    exact Scanner.through_append _ _ _ _
  have hCode :
      (scannerAt front (blanks ++ c :: rest)).context =
        .code := by
    apply (reached_scannerAt _ _).context_of_blanks hBlanks
    rw [← hSplit]
    simp only [Scanner.isHinge, decide_eq_true_eq] at hHinge
    exact hHinge.1
  have hCalm :
      (scannerAt (front ++ blanks) (c :: rest)).calm =
        (scannerAt (front ++ others) (c :: rest)).calm := by
    rw [hSplit, hSplit,
      Scanner.through_blanks_calm _ hCode hBlanks, ← hFront,
      Scanner.through_blanks_calm _ hCode hOthers]
  rw [prettify_append, prettify_append, Scanner.run,
    Scanner.run, Scanner.step_ahead rest hCalm hHinge]

/- Neither do blanks behind a hinge. -/
theorem prettify_behind
    {front blanks others rest : Text}
    {c : Char}
    (hBlanks : blanks.all isBlank = true)
    (hOthers : others.all isBlank = true)
    (hHinge :
      (scannerAt front (c :: (blanks ++ rest))).isHinge c =
        true) :
    prettify (front ++ c :: (blanks ++ rest)) =
      prettify (front ++ c :: (others ++ rest)) := by
  have hSelector :
      selectorAhead (blanks ++ rest) =
        selectorAhead (others ++ rest) := by
    rw [selectorAhead_blanks _ hBlanks,
      selectorAhead_blanks _ hOthers]
  have hBlank :
      (blanks ++ rest).all isBlank =
        (others ++ rest).all isBlank := by
    rw [List.all_append, List.all_append, hBlanks, hOthers]
  have hAlike :
      Alike ([c] ++ (blanks ++ rest)) ([c] ++ (others ++ rest)) :=
    alike_append (by simp)
      (Scanner.isSeparator_of_isHinge hHinge) hSelector hBlank
  have hFront :
      scannerAt front (c :: (blanks ++ rest)) =
        scannerAt front (c :: (others ++ rest)) :=
    Scanner.through_alike hAlike _ _
  have hNext :=
    Scanner.skipping_turn (others ++ rest) hHinge
  rw [prettify_append, prettify_append, ← hFront, Scanner.run,
    Scanner.run, Scanner.step_hinge _ hHinge,
    Scanner.step_hinge _ hHinge,
    Scanner.turn_congr _ c hSelector hBlank,
    Scanner.run_append, Scanner.run_append,
    Scanner.through_skipping rest hNext.1 hNext.2.1 hBlanks,
    Scanner.through_skipping rest hNext.1 hNext.2.1 hOthers]
  exact Scanner.result_run_blanks _ rest _ hNext.2.2 hBlanks
    hOthers

/- Blanks inside a value may be any others. -/
theorem prettify_inside
    {front blanks others rest : Text}
    (hBlanks : blanks.all isBlank = true)
    (hOthers : others.all isBlank = true)
    (hSome : blanks ≠ [])
    (hOther : others ≠ [])
    (hValue :
      (scannerAt front (blanks ++ rest)).readsValue = true) :
    prettify (front ++ (blanks ++ rest)) =
      prettify (front ++ (others ++ rest)) := by
  have hFront :
      scannerAt front (blanks ++ rest) =
        scannerAt front (others ++ rest) := by
    apply Scanner.through_alike
    apply alike_blanks hBlanks hOthers
    rintro (hNil | hNil)
    · exact absurd hNil hSome
    · exact absurd hNil hOther
  have hResult :=
    Scanner.result_run_blanks
      (scannerAt front (blanks ++ rest)).spaced rest none rfl
      hBlanks hOthers
  rw [prettify_append, prettify_append, ← hFront,
    Scanner.run_append, Scanner.run_append,
    Scanner.through_spaced rest hValue hSome hBlanks,
    Scanner.through_spaced rest hValue hOther hOthers]
  simpa using hResult

/- Blanks at the start do not change the layout. -/
theorem prettify_start
    {blanks others : Text}
    (rest : Text)
    (hBlanks : blanks.all isBlank = true)
    (hOthers : others.all isBlank = true) :
    prettify (blanks ++ rest) = prettify (others ++ rest) := by
  have hResult :=
    Scanner.result_run_blanks {} rest none rfl hBlanks hOthers
  rw [prettify_append, prettify_append, scannerAt, scannerAt,
    Scanner.through_start rest hBlanks,
    Scanner.through_start rest hOthers]
  simpa using hResult

/- Neither do blanks at the end. -/
theorem prettify_finish
    {front blanks others : Text}
    (hBlanks : blanks.all isBlank = true)
    (hOthers : others.all isBlank = true)
    (hCode :
      (scannerAt (front ++ blanks) []).context = .code) :
    prettify (front ++ blanks) = prettify (front ++ others) := by
  have hFront :
      scannerAt front (blanks ++ []) =
        scannerAt front (others ++ []) :=
    Scanner.through_alike
      (alike_blanks hBlanks hOthers (fun _ => rfl)) _ _
  have hSplit (t : Text) :
      scannerAt (front ++ t) [] =
        (scannerAt front (t ++ [])).through t [] := by
    exact Scanner.through_append _ _ _ _
  have hStart : (scannerAt front (blanks ++ [])).context = .code := by
    apply (reached_scannerAt _ _).context_of_blanks hBlanks
    rw [← hSplit]
    exact hCode
  have hEnd (t : Text) :
      prettify (front ++ t) = (scannerAt (front ++ t) []).result := by
    have hNil := prettify_append (front ++ t) []
    rw [List.append_nil] at hNil
    exact hNil
  rw [hEnd, hEnd]
  apply Scanner.result_of_calm
  rw [hSplit, hSplit,
    Scanner.through_blanks_calm _ hStart hBlanks, ← hFront,
    Scanner.through_blanks_calm _ hStart hOthers]

/- A semicolon in front of a close brace is not seen. -/
theorem scannerAt_semicolon
    (front rest : Text) :
    scannerAt front ('}' :: rest) =
      scannerAt front (';' :: '}' :: rest) := by
  apply Scanner.through_alike
  exact ⟨by simp [selectorAhead], by simp [isBlank], rfl, rfl⟩

/- Neither does the semicolon in front of a close brace. -/
theorem prettify_semicolon
    {front rest : Text}
    (hValue :
      (scannerAt front ('}' :: rest)).readsValue = true) :
    prettify (front ++ '}' :: rest) =
      prettify (front ++ ';' :: '}' :: rest) := by
  simp only [Scanner.readsValue, decide_eq_true_eq] at hValue
  rcases hValue with ⟨hCode, hInside⟩
  have hFront := scannerAt_semicolon front rest
  have hFinal :
      (scannerAt front ('}' :: rest)).final? ≠ none :=
    Scanner.final?_ne_none
      ((reached_scannerAt _ _).value hInside)
  have hNext :
      ((scannerAt front ('}' :: rest)).turn ';'
        ('}' :: rest)).context = .code := hCode
  rw [prettify_append, prettify_append, ← hFront, Scanner.run,
    Scanner.run, Scanner.run, Scanner.step_closeBlock rest hCode,
    Scanner.step_semicolon _ hCode,
    Scanner.step_closeBlock rest hNext,
    Scanner.turn_semicolon _ rest hInside hFinal]

/- One edit of the spacing does not change the layout. -/
theorem Respaced.prettify_eq
    {x y : Text}
    (h : Respaced x y) :
    prettify x = prettify y := by
  cases h with
  | ahead hBlanks hOthers hHinge =>
      exact prettify_ahead hBlanks hOthers hHinge
  | behind hBlanks hOthers hHinge =>
      exact prettify_behind hBlanks hOthers hHinge
  | inside hBlanks hOthers hSome hOther hValue =>
      exact prettify_inside hBlanks hOthers hSome hOther hValue
  | start hBlanks hOthers =>
      exact prettify_start _ hBlanks hOthers
  | finish hBlanks hOthers hCode =>
      exact prettify_finish hBlanks hOthers hCode
  | semicolon hValue => exact prettify_semicolon hValue
  | noSemicolon hValue =>
      rw [← scannerAt_semicolon] at hValue
      exact (prettify_semicolon hValue).symm

/-
  The layout of a style sheet does not depend on its
  spacing, whatever the edits and their order.
-/
theorem prettify_respaced
    {x y : Text}
    (h : Relation.ReflTransGen Respaced x y) :
    prettify x = prettify y := by
  induction h with
  | refl => rfl
  | tail _ hEdit ih => rw [ih, hEdit.prettify_eq]

/-
  A rule on one line and the same rule with other blanks and
  with a semicolon.
-/
theorem prettify_respaced_rule :
    prettify "a\x7bb:c d\x7d".toList =
      prettify "\na \x7b\tb:c\n d;\x7d".toList := by
  have hAhead :
      Respaced "a\x7bb:c d\x7d".toList "a \x7bb:c d\x7d".toList :=
    @Respaced.ahead ['a'] [] [' '] "b:c d\x7d".toList '{' rfl rfl
      (by decide)
  have hBehind :
      Respaced "a \x7bb:c d\x7d".toList "a \x7b\tb:c d\x7d".toList :=
    @Respaced.behind "a ".toList [] ['\t'] "b:c d\x7d".toList '{'
      rfl rfl (by decide)
  have hInside :
      Respaced "a \x7b\tb:c d\x7d".toList "a \x7b\tb:c\n d\x7d".toList :=
    @Respaced.inside "a \x7b\tb:c".toList [' '] "\n ".toList
      "d\x7d".toList rfl rfl (by decide) (by decide) (by decide)
  have hSemicolon :
      Respaced "a \x7b\tb:c\n d\x7d".toList
        "a \x7b\tb:c\n d;\x7d".toList :=
    @Respaced.semicolon "a \x7b\tb:c\n d".toList [] (by decide)
  have hStart :
      Respaced "a \x7b\tb:c\n d;\x7d".toList
        "\na \x7b\tb:c\n d;\x7d".toList :=
    @Respaced.start [] ['\n'] "a \x7b\tb:c\n d;\x7d".toList rfl rfl
  exact
    prettify_respaced
      (((((Relation.ReflTransGen.single hAhead).tail
        hBehind).tail hInside).tail hSemicolon).tail hStart)

end Stylesheet

end WebTidy
